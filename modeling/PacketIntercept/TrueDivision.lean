import Mathlib.Algebra.Order.Round
import Mathlib.Data.Int.Log
import Mathlib.Data.Rat.Floor
import Mathlib.Tactic.FieldSimp
import Mathlib.Tactic.Linarith

namespace PacketIntercept.TrueDivision

/-- The nearest integer, the even one where two are equally near. -/
def nearestEven (q : ℚ) : ℤ :=
  if Int.fract q < 1 / 2 then ⌊q⌋
  else if 1 / 2 < Int.fract q then ⌊q⌋ + 1
  else if ⌊q⌋ % 2 = 0 then ⌊q⌋ else ⌊q⌋ + 1

def lastBit (q : ℚ) : ℤ := max (Int.log 2 |q| - 52) (-1074)

def nearest64 (q : ℚ) : ℚ := nearestEven (q / 2 ^ lastBit q) * 2 ^ lastBit q

/-- Python's a / b on ints, as the exact value of the float it gives; none
is the ZeroDivisionError or the OverflowError. -/
def truediv (a b : ℤ) : Option ℚ :=
  if b = 0 then none
  else if |nearest64 (a / b)| < 2 ^ 1024 then some (nearest64 (a / b)) else none

/-- Python's int(a / b) on counts. -/
def intDiv (a b : ℕ) : Option ℕ := (truediv a b).map fun x => ⌊x⌋₊

def Representable (n : ℕ) : Prop := n < 2 ^ 1024 ∧ ∃ m k : ℕ, m < 2 ^ 53 ∧ n = m * 2 ^ k

theorem nearestEven_intCast (n : ℤ) : nearestEven n = n := by
  simp [nearestEven]

theorem abs_nearestEven_sub_le (q : ℚ) : |(nearestEven q : ℚ) - q| ≤ 1 / 2 := by
  have hq : (⌊q⌋ : ℚ) + Int.fract q = q := Int.floor_add_fract q
  have h0 : 0 ≤ Int.fract q := Int.fract_nonneg q
  have h1 : Int.fract q < 1 := Int.fract_lt_one q
  rw [abs_le, nearestEven]
  split_ifs <;> push_cast <;> constructor <;> linarith

theorem two_zpow_pos (e : ℤ) : (0 : ℚ) < 2 ^ e := zpow_pos (by norm_num) e

theorem abs_nearest64_sub_le (q : ℚ) : |nearest64 q - q| ≤ 2 ^ lastBit q / 2 := by
  have hpos := two_zpow_pos (lastBit q)
  have hdiv : nearest64 q - q = (nearestEven (q / 2 ^ lastBit q) - q / 2 ^ lastBit q) * 2 ^ lastBit q := by
    rw [nearest64]
    field_simp
  rw [hdiv, abs_mul, abs_of_pos hpos]
  have hn := mul_le_mul_of_nonneg_right (abs_nearestEven_sub_le (q / 2 ^ lastBit q)) hpos.le
  linarith

theorem two_zpow_lastBit_le (q : ℚ) : (2 : ℚ) ^ lastBit q ≤ |q| + 1 := by
  have hone {e : ℤ} (he : e ≤ 0) : (2 : ℚ) ^ e ≤ 1 := zpow_le_one_of_nonpos₀ (by norm_num) he
  rcases le_total (Int.log 2 |q| - 52) (-1074) with hle | hle
  · rw [lastBit, max_eq_right hle]
    linarith [hone (show (-1074 : ℤ) ≤ 0 by norm_num), abs_nonneg q]
  · rw [lastBit, max_eq_left hle]
    rcases eq_or_ne q 0 with rfl | hq
    · simpa using hone (show (-52 : ℤ) ≤ 0 by norm_num)
    · have hlog : (2 : ℚ) ^ Int.log 2 |q| ≤ |q| := by
        exact_mod_cast Int.zpow_log_le_self (b := 2) (by norm_num) (abs_pos.mpr hq)
      have hshift : (2 : ℚ) ^ (Int.log 2 |q| - 52) ≤ 2 ^ Int.log 2 |q| :=
        zpow_le_zpow_right₀ (by norm_num) (by omega)
      linarith

theorem abs_nearest64_le (q : ℚ) : |nearest64 q| ≤ 2 * |q| + 1 := by
  have herr := abs_nearest64_sub_le q
  have hbit := two_zpow_lastBit_le q
  have htri := abs_add_le (nearest64 q - q) q
  rw [sub_add_cancel] at htri
  linarith [abs_nonneg q]

/-- Away from the subnormal numbers the error is relative. -/
theorem abs_nearest64_sub_le_mul {q : ℚ} (hq : 2 ^ (-1022 : ℤ) ≤ q) :
    |nearest64 q - q| ≤ q / 2 ^ 53 := by
  have hpos : 0 < q := lt_of_lt_of_le (two_zpow_pos _) hq
  have hlog : -1022 ≤ Int.log 2 q := by
    have h := (Int.zpow_le_iff_le_log (b := 2) (by norm_num) hpos).mp (by exact_mod_cast hq)
    exact h
  have hbit : lastBit q = Int.log 2 q - 52 := by
    rw [lastBit, abs_of_pos hpos]
    omega
  have hle : (2 : ℚ) ^ Int.log 2 q ≤ q := by
    exact_mod_cast Int.zpow_log_le_self (b := 2) (by norm_num) hpos
  calc |nearest64 q - q| ≤ 2 ^ lastBit q / 2 := abs_nearest64_sub_le q
    _ = 2 ^ Int.log 2 q / 2 ^ 53 := by
      rw [hbit, zpow_sub₀ (by norm_num)]
      norm_num
      ring
    _ ≤ q / 2 ^ 53 := by gcongr

theorem nearest64_eq_self {q : ℚ} {n : ℤ} (h : q = n * 2 ^ lastBit q) : nearest64 q = q := by
  have hdiv : q / 2 ^ lastBit q = n := by
    have hpos := two_zpow_pos (lastBit q)
    rw [div_eq_iff hpos.ne']
    exact h
  rw [nearest64, hdiv, nearestEven_intCast, ← h]

theorem nearest64_exact {q : ℚ} {m : ℕ} {k : ℤ} (hm : m < 2 ^ 53) (hk : -1074 ≤ k) (hq : q = m * 2 ^ k) :
    nearest64 q = q := by
  rcases Nat.eq_zero_or_pos m with rfl | hpos
  · rw [hq]
    simp [nearest64, nearestEven]
  have hqpos : 0 < q := by
    rw [hq]
    exact mul_pos (by exact_mod_cast hpos) (two_zpow_pos k)
  have hlt : q < 2 ^ (53 + k) := by
    rw [hq, zpow_add₀ (by norm_num)]
    have hm' : (m : ℚ) < 2 ^ 53 := by exact_mod_cast hm
    exact mul_lt_mul_of_pos_right (by exact_mod_cast hm') (two_zpow_pos k)
  have hlog : Int.log 2 q < 53 + k :=
    (Int.lt_zpow_iff_log_lt (b := 2) (by norm_num) hqpos).mp (by exact_mod_cast hlt)
  have hle : lastBit q ≤ k := by
    rw [lastBit, abs_of_pos hqpos]
    omega
  obtain ⟨d, hd⟩ := Int.le.dest hle
  have hint : q = ((m * 2 ^ d : ℕ) : ℤ) * 2 ^ lastBit q := by
    calc q = m * 2 ^ k := hq
      _ = m * 2 ^ (lastBit q + d) := by rw [hd]
      _ = ((m * 2 ^ d : ℕ) : ℤ) * 2 ^ lastBit q := by
        rw [zpow_add₀ (by norm_num), zpow_natCast]
        push_cast
        ring
  exact nearest64_eq_self hint

theorem nearest64_intCast {n : ℤ} (hn : |n| < 2 ^ 53) : nearest64 n = n := by
  rcases eq_or_ne n 0 with rfl | hne
  · simp [nearest64, nearestEven]
  have hpos : 0 < |(n : ℚ)| := abs_pos.mpr (by exact_mod_cast hne)
  have hlt : |(n : ℚ)| < 2 ^ (53 : ℤ) := by exact_mod_cast hn
  have hlog : Int.log 2 |(n : ℚ)| < 53 :=
    (Int.lt_zpow_iff_log_lt (b := 2) (by norm_num) hpos).mp (by exact_mod_cast hlt)
  have hle : lastBit n ≤ 0 := by
    rw [lastBit]
    omega
  obtain ⟨d, hd⟩ := Int.le.dest hle
  have hint : (n : ℚ) = ((n * 2 ^ d : ℤ) : ℚ) * 2 ^ lastBit n := by
    have hone : (2 : ℚ) ^ d * 2 ^ lastBit n = 1 := by
      rw [← zpow_natCast, ← zpow_add₀ (by norm_num), add_comm, hd, zpow_zero]
    push_cast
    rw [mul_assoc, hone, mul_one]
  exact nearest64_eq_self hint

theorem lastBit_natCast {n : ℕ} (hn : 2 ^ 53 ≤ n) : lastBit n = ((Nat.log 2 n - 52 : ℕ) : ℤ) := by
  have hlog : Int.log 2 |(n : ℚ)| = Nat.log 2 n := by rw [Nat.abs_cast, Int.log_natCast]
  have hbig : 53 ≤ Nat.log 2 n := Nat.le_log_of_pow_le (by norm_num) hn
  rw [lastBit, hlog]
  omega

/-- A count is rounded to a count, with at most 53 significant bits. -/
theorem nearest64_natCast {n : ℕ} (hn : 2 ^ 53 ≤ n) :
    ∃ m : ℕ, nearest64 n = (m * 2 ^ (Nat.log 2 n - 52) : ℕ) := by
  have hnonneg : 0 ≤ nearestEven ((n : ℚ) / 2 ^ (Nat.log 2 n - 52)) := by
    have hq : (0 : ℚ) ≤ n / 2 ^ (Nat.log 2 n - 52) := by positivity
    have herr := (abs_le.mp (abs_nearestEven_sub_le ((n : ℚ) / 2 ^ (Nat.log 2 n - 52)))).1
    have hlow : (-1 : ℚ) < nearestEven ((n : ℚ) / 2 ^ (Nat.log 2 n - 52)) := by linarith
    have hint : -1 < nearestEven ((n : ℚ) / 2 ^ (Nat.log 2 n - 52)) := by exact_mod_cast hlow
    omega
  obtain ⟨m, hm⟩ := Int.eq_ofNat_of_zero_le hnonneg
  refine ⟨m, ?_⟩
  rw [nearest64, lastBit_natCast hn, zpow_natCast, hm]
  push_cast
  rfl

theorem representable_of_lt {n : ℕ} (hn : n < 2 ^ 53) : Representable n := by
  have hpow : (2 : ℕ) ^ 53 ≤ 2 ^ 1024 := pow_le_pow_right₀ one_le_two (by omega)
  exact ⟨lt_of_lt_of_le hn hpow, n, 0, hn, by simp⟩

theorem nearest64_of_representable {n : ℕ} (hn : Representable n) : nearest64 n = n := by
  obtain ⟨-, m, k, hm, hk⟩ := hn
  apply nearest64_exact hm (k := k) (by omega)
  rw [hk, zpow_natCast]
  push_cast
  rfl

theorem representable_of_nearest64 {n : ℕ} (hn : n < 2 ^ 1024) (h : nearest64 n = n) :
    Representable n := by
  by_cases hsmall : n < 2 ^ 53
  · exact representable_of_lt hsmall
  obtain ⟨m, hm⟩ := nearest64_natCast (not_lt.mp hsmall)
  have hnat : n = m * 2 ^ (Nat.log 2 n - 52) := by
    rw [h] at hm
    exact_mod_cast hm
  have hbig : 53 ≤ Nat.log 2 n := Nat.le_log_of_pow_le (by norm_num) (not_lt.mp hsmall)
  have hpow : 2 ^ (Nat.log 2 n + 1) = 2 ^ 53 * 2 ^ (Nat.log 2 n - 52) := by
    rw [← Nat.pow_add]
    congr 1
    omega
  have hlt : m * 2 ^ (Nat.log 2 n - 52) < 2 ^ 53 * 2 ^ (Nat.log 2 n - 52) := by
    rw [← hnat, ← hpow]
    exact Nat.lt_pow_succ_log_self (by norm_num) n
  exact ⟨hn, m, Nat.log 2 n - 52, Nat.lt_of_mul_lt_mul_right hlt, hnat⟩

theorem intDiv_eq {a b : ℕ} (hb : b ≠ 0) :
    intDiv a b = if |nearest64 ((a : ℚ) / b)| < 2 ^ 1024 then some ⌊nearest64 ((a : ℚ) / b)⌋₊ else none := by
  have hb' : (b : ℤ) ≠ 0 := by exact_mod_cast hb
  rw [intDiv, truediv, if_neg hb']
  push_cast
  split <;> rfl

theorem intDiv_double_iff (n : ℕ) : intDiv (2 * n) 2 = some n ↔ Representable n := by
  have hq : ((2 * n : ℕ) : ℚ) / (2 : ℕ) = n := by
    push_cast
    field_simp
  rw [intDiv_eq (by norm_num), hq]
  constructor
  · intro h
    split at h
    · rename_i hfin
      have hfloor : ⌊nearest64 (n : ℚ)⌋₊ = n := Option.some.inj h
      have hexact : nearest64 (n : ℚ) = n := by
        by_cases hsmall : n < 2 ^ 53
        · exact nearest64_of_representable (representable_of_lt hsmall)
        · obtain ⟨m, hm⟩ := nearest64_natCast (not_lt.mp hsmall)
          rw [hm, Nat.floor_natCast] at hfloor
          rw [hm, hfloor]
      rw [hexact, Nat.abs_cast] at hfin
      exact representable_of_nearest64 (by exact_mod_cast hfin) hexact
    · exact absurd h (by simp)
  · intro h
    have hfin : (n : ℚ) < 2 ^ 1024 := by exact_mod_cast h.1
    rw [nearest64_of_representable h, Nat.abs_cast, if_pos hfin, Nat.floor_natCast]

theorem normal_of_le {q : ℚ} (hq : 1 / 2 ^ 53 ≤ q) : 2 ^ (-1022 : ℤ) ≤ q := by
  have h : (2 : ℚ) ^ (-1022 : ℤ) ≤ 2 ^ (-53 : ℤ) := zpow_le_zpow_right₀ (by norm_num) (by norm_num)
  have h53 : (2 : ℚ) ^ (-53 : ℤ) = 1 / 2 ^ 53 := by norm_num
  rw [h53] at h
  exact le_trans h hq

theorem nearest64_bounds {q : ℚ} (hq : 1 / 2 ^ 53 ≤ q) :
    q - q / 2 ^ 53 ≤ nearest64 q ∧ nearest64 q ≤ q + q / 2 ^ 53 := by
  have herr := abs_le.mp (abs_nearest64_sub_le_mul (normal_of_le hq))
  constructor <;> linarith

theorem abs_nearest64 {q : ℚ} (hq : 1 / 2 ^ 53 ≤ q) : |nearest64 q| = nearest64 q := by
  have hpos : (0 : ℚ) < 1 / 2 ^ 53 := by norm_num
  have hlow := (nearest64_bounds hq).1
  apply abs_of_nonneg
  linarith

/-- A quotient that is no integer keeps a distance of 1 / b to the integers
around it. -/
theorem div_gap {a b : ℕ} (hb : 0 < b) (hdvd : ¬ b ∣ a) :
    ((a / b : ℕ) : ℚ) + 1 / b ≤ a / b ∧ (a : ℚ) / b + 1 / b ≤ (a / b : ℕ) + 1 := by
  have hbq : (0 : ℚ) < b := by exact_mod_cast hb
  have hrem : 0 < a % b := Nat.pos_of_ne_zero fun h => hdvd (Nat.dvd_of_mod_eq_zero h)
  have hlow : (1 : ℚ) ≤ (a % b : ℕ) := by exact_mod_cast hrem
  have hhigh : ((a % b : ℕ) : ℚ) + 1 ≤ b := by exact_mod_cast Nat.mod_lt a hb
  have hdecomp : (a : ℚ) = b * (a / b : ℕ) + (a % b : ℕ) := by exact_mod_cast (Nat.div_add_mod a b).symm
  rw [hdecomp]
  constructor
  · field_simp
    linarith
  · field_simp
    linarith

theorem floor_nearest64 {a b : ℕ} (ha : a < 2 ^ 53) (hb : 0 < b) (hb' : b ≤ 2 ^ 53) (hdvd : ¬ b ∣ a) :
    |nearest64 ((a : ℚ) / b)| < 2 ^ 1024 ∧ ⌊nearest64 ((a : ℚ) / b)⌋₊ = a / b := by
  have hbq : (0 : ℚ) < b := by exact_mod_cast hb
  obtain ⟨hlow, hhigh⟩ := div_gap hb hdvd
  have herr : (a : ℚ) / b / 2 ^ 53 < 1 / b := by
    have ha' : (a : ℚ) < 2 ^ 53 := by exact_mod_cast ha
    rw [div_div, div_lt_div_iff₀ (by positivity) hbq]
    nlinarith
  have hnormal : (1 : ℚ) / 2 ^ 53 ≤ a / b := by
    have hle : (1 : ℚ) / 2 ^ 53 ≤ 1 / b := one_div_le_one_div_of_le hbq (by exact_mod_cast hb')
    have hnn : (0 : ℚ) ≤ (a / b : ℕ) := by positivity
    linarith
  obtain ⟨hge, hle⟩ := nearest64_bounds hnormal
  have habs := abs_nearest64 hnormal
  constructor
  · have hdiv : ((a / b : ℕ) : ℚ) + 1 ≤ 2 ^ 53 := by
      exact_mod_cast (lt_of_le_of_lt (Nat.div_le_self a b) ha : a / b < 2 ^ 53)
    have hpow : (2 : ℚ) ^ 53 ≤ 2 ^ 1024 := pow_le_pow_right₀ (by norm_num) (by norm_num)
    rw [habs]
    exact lt_of_lt_of_le (by linarith) hpow
  · rw [Nat.floor_eq_iff (by rw [← habs]; exact abs_nonneg _)]
    constructor <;> linarith

/-- Where the numerator is below 2^53 the rounding never reaches the next
integer, and int cuts off exactly the remainder. -/
theorem intDiv_of_lt {a b : ℕ} (ha : a < 2 ^ 53) (hb : 0 < b) (hb' : b ≤ 2 ^ 53) :
    intDiv a b = some (a / b) := by
  rw [intDiv_eq hb.ne']
  by_cases hdvd : b ∣ a
  · obtain ⟨c, rfl⟩ := hdvd
    have hbq : (b : ℚ) ≠ 0 := by exact_mod_cast hb.ne'
    have hc : Representable c := representable_of_lt (lt_of_le_of_lt (Nat.le_mul_of_pos_left c hb) ha)
    have hq : ((b * c : ℕ) : ℚ) / b = c := by
      push_cast
      field_simp
    have hfin : (c : ℚ) < 2 ^ 1024 := by exact_mod_cast hc.1
    rw [hq, nearest64_of_representable hc, Nat.abs_cast, if_pos hfin, Nat.floor_natCast,
      Nat.mul_div_cancel_left c hb]
  · obtain ⟨hfin, hfloor⟩ := floor_nearest64 ha hb hb' hdvd
    rw [if_pos hfin, hfloor]

theorem intDiv_half_lt {n h : ℕ} (hn : 0 < n) (hh : intDiv n 2 = some h) : h < n := by
  have hnq : (1 : ℚ) ≤ n := by exact_mod_cast hn
  have hnormal : (1 : ℚ) / 2 ^ 53 ≤ (n : ℚ) / (2 : ℕ) := by
    push_cast
    linarith
  have hle := (nearest64_bounds hnormal).2
  rw [intDiv_eq (by norm_num)] at hh
  split at hh
  · rw [← Option.some.inj hh]
    apply (Nat.floor_lt (by rw [← abs_nearest64 hnormal]; exact abs_nonneg _)).mpr
    push_cast at hle ⊢
    linarith
  · exact absurd hh (by simp)

/-- Of n values the middle rank does not lie above the 99% rank, nor that
above n. -/
theorem intDiv_ranks {n t : ℕ} (ht : intDiv (n * 99) 100 = some t) :
    ∃ m, intDiv n 2 = some m ∧ m ≤ t ∧ t ≤ n := by
  rcases Nat.eq_zero_or_pos n with rfl | hn
  · rw [intDiv_of_lt (by norm_num) (by norm_num) (by norm_num)] at ht
    refine ⟨0, intDiv_of_lt (by norm_num) (by norm_num) (by norm_num), by omega, ?_⟩
    rw [← Option.some.inj ht]
  have hnq : (1 : ℚ) ≤ n := by exact_mod_cast hn
  have hp : (1 : ℚ) / 2 ^ 53 ≤ (n : ℚ) / (2 : ℕ) := by
    push_cast
    linarith
  have hq : (1 : ℚ) / 2 ^ 53 ≤ ((n * 99 : ℕ) : ℚ) / (100 : ℕ) := by
    push_cast
    linarith
  have hmono : nearest64 ((n : ℚ) / (2 : ℕ)) ≤ nearest64 (((n * 99 : ℕ) : ℚ) / (100 : ℕ)) := by
    have hle := (nearest64_bounds hp).2
    have hge := (nearest64_bounds hq).1
    push_cast at hle hge ⊢
    linarith
  have hupper : nearest64 (((n * 99 : ℕ) : ℚ) / (100 : ℕ)) ≤ n := by
    have hle := (nearest64_bounds hq).2
    push_cast at hle ⊢
    linarith
  rw [intDiv_eq (by norm_num), abs_nearest64 hq] at ht
  rw [intDiv_eq (by norm_num), abs_nearest64 hp]
  split at ht
  · rename_i hfin
    rw [if_pos (lt_of_le_of_lt hmono hfin), ← Option.some.inj ht]
    refine ⟨_, rfl, Nat.floor_le_floor hmono, ?_⟩
    exact Nat.floor_le_of_le hupper
  · exact absurd ht (by simp)

end PacketIntercept.TrueDivision
