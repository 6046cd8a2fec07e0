import Mathlib.Logic.Function.Basic
import Mathlib.Tactic.Ring

namespace PacketIntercept.ByteMemory

/-- Memory seen from a base address: the byte at every offset, also at those
behind the end of the object the base points to. -/
abbrev Mem := Nat → UInt8

def memcpy (dst : Mem) (pos : Nat) (src : Mem) (n : Nat) : Mem :=
  fun i => if pos ≤ i ∧ i < pos + n then src (i - pos) else dst i

def memset (dst : Mem) (pos : Nat) (v : UInt8) (n : Nat) : Mem := memcpy dst pos (fun _ => v) n

theorem memcpy_inside (dst : Mem) (pos : Nat) (src : Mem) (n b : Nat) (h : b < n) :
    memcpy dst pos src n (pos + b) = src b := by
  have hb : pos ≤ pos + b ∧ pos + b < pos + n := by omega
  simp [memcpy, hb]

theorem memcpy_first (dst : Mem) (pos : Nat) (src : Mem) {n : Nat} (h : 0 < n) :
    memcpy dst pos src n pos = src 0 := by
  have hb := memcpy_inside dst pos src n 0 h
  rwa [Nat.add_zero] at hb

theorem memcpy_outside (dst : Mem) (pos : Nat) (src : Mem) (n i : Nat)
    (h : i < pos ∨ pos + n ≤ i) : memcpy dst pos src n i = dst i := by
  have hi : ¬ (pos ≤ i ∧ i < pos + n) := by omega
  simp only [memcpy, hi, if_false]

theorem memset_apply (dst : Mem) (pos : Nat) (v : UInt8) (n i : Nat) :
    memset dst pos v n i = if pos ≤ i ∧ i < pos + n then v else dst i := rfl

theorem memcpy_block_ne (dst src : Mem) {a b size n j : Nat} (hab : a ≠ b) (hn : n ≤ size)
    (hj : j < size) : memcpy dst (a * size) src n (b * size + j) = dst (b * size + j) := by
  apply memcpy_outside
  rcases Nat.lt_or_gt_of_ne hab with h | h
  · right
    calc a * size + n ≤ a * size + size := by omega
      _ = (a + 1) * size := by ring
      _ ≤ b * size := Nat.mul_le_mul_right _ h
      _ ≤ b * size + j := by omega
  · left
    calc b * size + j < b * size + size := by omega
      _ = (b + 1) * size := by ring
      _ ≤ a * size := Nat.mul_le_mul_right _ h

theorem memcpy_block_first_ne (dst src : Mem) {a b size n : Nat} (hab : a ≠ b) (hn : n ≤ size)
    (hs : 0 < size) : memcpy dst (a * size) src n (b * size) = dst (b * size) := by
  have hb := memcpy_block_ne dst src hab hn hs
  rwa [Nat.add_zero] at hb

/-- The unsigned number stored in w bytes, least significant byte first. -/
def leNat (m : Mem) (pos : Nat) : Nat → Nat
  | 0 => 0
  | w + 1 => (m pos).toNat + 256 * leNat m (pos + 1) w

def le64 (m : Mem) (pos : Nat) : Nat := leNat m pos 8

def be16 (m : Mem) (pos : Nat) : Nat := (m pos).toNat * 256 + (m (pos + 1)).toNat

theorem leNat_congr {m m' : Mem} {pos pos' : Nat} (w : Nat)
    (h : ∀ i, i < w → m (pos + i) = m' (pos' + i)) : leNat m pos w = leNat m' pos' w := by
  induction w generalizing pos pos' with
  | zero => rfl
  | succ w ih =>
      have h0 : m pos = m' pos' := by simpa using h 0 (by omega)
      have ht : leNat m (pos + 1) w = leNat m' (pos' + 1) w := by
        apply ih
        intro i hi
        have hs := h (i + 1) (by omega)
        rwa [show pos + (i + 1) = pos + 1 + i by omega,
          show pos' + (i + 1) = pos' + 1 + i by omega] at hs
      rw [leNat, leNat, h0, ht]

theorem leNat_inj {m m' : Mem} {pos pos' : Nat} (w : Nat) (h : leNat m pos w = leNat m' pos' w)
    (i : Nat) (hi : i < w) : m (pos + i) = m' (pos' + i) := by
  induction w generalizing pos pos' i with
  | zero => exact absurd hi (Nat.not_lt_zero i)
  | succ w ih =>
      have hb : (m pos).toNat < 256 := (m pos).toNat_lt
      have hb' : (m' pos').toNat < 256 := (m' pos').toNat_lt
      rw [leNat, leNat] at h
      cases i with
      | zero =>
          apply UInt8.toNat_inj.mp
          rw [Nat.add_zero, Nat.add_zero]
          omega
      | succ i =>
          have ht : m (pos + 1 + i) = m' (pos' + 1 + i) := ih (by omega) i (by omega)
          rwa [show pos + (i + 1) = pos + 1 + i by omega,
            show pos' + (i + 1) = pos' + 1 + i by omega]

/-- The low bytes of a stored number are the number stored in them: reading
fewer bytes at the same address truncates. -/
theorem leNat_mod (m : Mem) (pos v w : Nat) :
    leNat m pos (v + w) % 256 ^ v = leNat m pos v := by
  induction v generalizing pos with
  | zero => simp [leNat, Nat.mod_one]
  | succ v ih =>
      have hb : (m pos).toNat < 256 := (m pos).toNat_lt
      rw [show v + 1 + w = v + w + 1 by omega, leNat, leNat, Nat.pow_succ, Nat.mul_comm (256 ^ v),
        Nat.mod_mul, Nat.add_mul_mod_self_left, Nat.mod_eq_of_lt hb,
        Nat.add_mul_div_left _ _ (by omega), Nat.div_eq_of_lt hb, Nat.zero_add, ih]

theorem byte_add_one_ne (b : UInt8) : b + 1 ≠ b := by
  intro h
  have hn : (b.toNat + 1) % 256 = b.toNat := by simpa using congrArg UInt8.toNat h
  have hb : b.toNat < 256 := b.toNat_lt
  omega

def leByte (v i : Nat) : UInt8 := UInt8.ofNat (v / 256 ^ i % 256)

theorem leNat_leByte {m : Mem} {pos : Nat} (v w : Nat)
    (h : ∀ i, i < w → m (pos + i) = leByte v i) : leNat m pos w = v % 256 ^ w := by
  induction w generalizing pos v with
  | zero => simp [leNat, Nat.mod_one]
  | succ w ih =>
      have h0 : (m pos).toNat = v % 256 := by
        have hb := h 0 (by omega)
        rw [Nat.add_zero] at hb
        rw [hb, leByte, Nat.pow_zero, Nat.div_one, UInt8.toNat_ofNat_of_lt' (Nat.mod_lt _ (by decide))]
      have ht : leNat m (pos + 1) w = v / 256 % 256 ^ w := by
        apply ih
        intro i hi
        have hb := h (i + 1) (by omega)
        rw [show pos + (i + 1) = pos + 1 + i by omega] at hb
        rw [hb, leByte, leByte, Nat.pow_succ, Nat.mul_comm, Nat.div_div_eq_div_mul]
      rw [leNat, h0, ht, Nat.pow_succ, Nat.mul_comm (256 ^ w), Nat.mod_mul]

theorem leNat_zero {m : Mem} {pos : Nat} (w : Nat) (h : ∀ i, i < w → m (pos + i) = 0) :
    leNat m pos w = 0 := by
  induction w generalizing pos with
  | zero => rfl
  | succ w ih =>
      have h0 : m pos = 0 := by simpa using h 0 (by omega)
      rw [leNat, h0, ih (fun i hi => by
        have hs := h (i + 1) (by omega)
        rwa [show pos + (i + 1) = pos + 1 + i by omega] at hs)]
      rfl

end PacketIntercept.ByteMemory
