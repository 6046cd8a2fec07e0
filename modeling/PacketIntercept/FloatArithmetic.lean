import PacketIntercept.RaisedErrors
import PacketIntercept.TrueDivision

namespace PacketIntercept.FloatArithmetic

open RaisedErrors TrueDivision

inductive PythonError
  | zeroDivisionError
  | overflowError
  | valueError
deriving DecidableEq

/-- A float, by its exact value. The two zeros are one. -/
inductive Binary64
  | finite (q : ℚ)
  | inf (negative : Bool)
  | nan
deriving DecidableEq

namespace Binary64

def round (q : ℚ) : Binary64 :=
  if |nearest64 q| < 2 ^ 1024 then .finite (nearest64 q) else .inf (decide (q < 0))

def neg : Binary64 → Binary64
  | .finite q => .finite (-q)
  | .inf s => .inf !s
  | .nan => .nan

def add : Binary64 → Binary64 → Binary64
  | .finite a, .finite b => round (a + b)
  | .finite _, .inf s => .inf s
  | .inf s, .finite _ => .inf s
  | .inf s, .inf s' => if s = s' then .inf s else .nan
  | .nan, _ => .nan
  | _, .nan => .nan

def sub (x y : Binary64) : Binary64 := add x (neg y)

def mul : Binary64 → Binary64 → Binary64
  | .finite a, .finite b => round (a * b)
  | .finite a, .inf s => if a = 0 then .nan else .inf (s != decide (a < 0))
  | .inf s, .finite b => if b = 0 then .nan else .inf (s != decide (b < 0))
  | .inf s, .inf s' => .inf (s != s')
  | .nan, _ => .nan
  | _, .nan => .nan

def quotient : Binary64 → Binary64 → Binary64
  | .finite a, .finite b => round (a / b)
  | .finite _, .inf _ => .finite 0
  | .inf s, .finite b => .inf (s != decide (b < 0))
  | .inf _, .inf _ => .nan
  | .nan, _ => .nan
  | _, .nan => .nan

/-- x / y, which raises where IEEE 754 has an infinity. -/
def div (x y : Binary64) : Except PythonError Binary64 :=
  if y = .finite 0 then .error .zeroDivisionError else .ok (quotient x y)

def checked : Binary64 → Except PythonError Binary64
  | .finite q => .ok (.finite q)
  | _ => .error .overflowError

/-- x ** 2, which raises where a multiplication gives an infinity. -/
def square : Binary64 → Except PythonError Binary64
  | .finite q => checked (round (q * q))
  | .inf _ => .ok (.inf false)
  | .nan => .ok .nan

def ofInt (n : ℤ) : Except PythonError Binary64 := checked (round n)

/-- a / b on ints, rounded once. -/
def truedivInt (a b : ℤ) : Except PythonError Binary64 :=
  if b = 0 then .error .zeroDivisionError
  else match truediv a b with
    | some q => .ok (.finite q)
    | none => .error .overflowError

/-- int(x), towards zero. -/
def toInt : Binary64 → Except PythonError ℤ
  | .finite q => .ok (if 0 ≤ q then ⌊q⌋ else ⌈q⌉)
  | .inf _ => .error .overflowError
  | .nan => .error .valueError

def leInt : Binary64 → ℤ → Bool
  | .finite q, n => q ≤ n
  | .inf s, _ => s
  | .nan, _ => false

def intLt : ℤ → Binary64 → Bool
  | n, .finite q => n < q
  | _, .inf s => !s
  | _, .nan => false

theorem abs_intCast_lt {n : ℤ} (hn : |n| < 2 ^ 53) : |(n : ℚ)| < 2 ^ 1024 := by
  have hlt : |(n : ℚ)| < 2 ^ 53 := by exact_mod_cast hn
  exact hlt.trans (pow_lt_pow_right₀ (by norm_num) (by norm_num))

theorem round_intCast {n : ℤ} (hn : |n| < 2 ^ 53) : round n = .finite n := by
  rw [round, nearest64_intCast hn, if_pos (abs_intCast_lt hn)]

theorem ofInt_eq {n : ℤ} (hn : |n| < 2 ^ 53) : ofInt n = .ok (.finite n) := by
  rw [ofInt, round_intCast hn, checked]

theorem truedivInt_one {n : ℤ} (hn : |n| < 2 ^ 53) : truedivInt n 1 = .ok (.finite n) := by
  have hdiv : truediv n 1 = some (n : ℚ) := by
    rw [truediv, if_neg one_ne_zero, Int.cast_one, div_one, nearest64_intCast hn,
      if_pos (abs_intCast_lt hn)]
  rw [truedivInt, if_neg one_ne_zero, hdiv]

theorem mul_intCast {a b : ℤ} (h : |a * b| < 2 ^ 53) :
    mul (.finite a) (.finite b) = .finite ((a * b : ℤ) : ℚ) := by
  rw [mul, ← Int.cast_mul, round_intCast h]

theorem toInt_intCast (n : ℤ) : toInt (.finite n) = .ok n := by
  simp [toInt]

/-- A number of at most b bits before the point. -/
def Within (b : ℕ) (x : Binary64) : Prop := ∃ r, x = .finite r ∧ |r| ≤ 2 ^ b

theorem abs_nearest64_le_pow {q : ℚ} {b : ℕ} (hq : |q| ≤ 2 ^ b) : |nearest64 q| ≤ 2 ^ (b + 2) := by
  have hone : (1 : ℚ) ≤ 2 ^ b := one_le_pow₀ (by norm_num)
  have h := abs_nearest64_le q
  rw [pow_add]
  linarith

theorem round_eq {q : ℚ} {b : ℕ} (hb : b ≤ 1000) (hq : |q| ≤ 2 ^ b) : round q = .finite (nearest64 q) := by
  have hlt : |nearest64 q| < 2 ^ 1024 :=
    (abs_nearest64_le_pow hq).trans_lt (pow_lt_pow_right₀ (by norm_num) (by omega))
  exact if_pos hlt

theorem round_within {q : ℚ} {b : ℕ} (hb : b ≤ 1000) (hq : |q| ≤ 2 ^ b) : (round q).Within (b + 2) :=
  ⟨nearest64 q, round_eq hb hq, abs_nearest64_le_pow hq⟩

theorem sub_within {x y : Binary64} {b : ℕ} (hb : b < 1000) (hx : x.Within b) (hy : y.Within b) :
    (sub x y).Within (b + 3) := by
  obtain ⟨p, rfl, hp⟩ := hx
  obtain ⟨q, rfl, hq⟩ := hy
  apply round_within (b := b + 1) (by omega)
  have htri := abs_add_le p (-q)
  rw [abs_neg] at htri
  rw [pow_succ]
  linarith

theorem checked_within {x : Binary64} {b : ℕ} (hx : x.Within b) (E : PythonError → Prop) :
    Ends (Within b) E (checked x) := by
  obtain ⟨r, rfl, hr⟩ := hx
  exact ⟨r, rfl, hr⟩

theorem checked_ends (x : Binary64) :
    Ends (fun y => ∃ q, x = .finite q ∧ y = .finite q) (· = .overflowError) (checked x) := by
  cases x with
  | finite q => exact ⟨q, rfl, rfl⟩
  | inf s => rfl
  | nan => rfl

theorem truedivInt_eq (n : ℤ) {m : ℤ} (hm : m ≠ 0) :
    truedivInt n m = checked (round ((n : ℚ) / m)) := by
  rw [truedivInt, if_neg hm, truediv, if_neg hm, round]
  split_ifs <;> rfl

theorem truedivInt_ends (n : ℤ) {m : ℤ} (hm : m ≠ 0) :
    Ends (fun x => ∃ q, x = .finite q) (· = .overflowError) (truedivInt n m) := by
  rw [truedivInt_eq n hm]
  apply (checked_ends _).mono
  · rintro y ⟨q, -, hy⟩
    exact ⟨q, hy⟩
  · exact fun e he => he

theorem ofInt_ends (n : ℤ) : Ends (fun x => 1 ≤ n → x ≠ .finite 0) (· = .overflowError) (ofInt n) := by
  apply (checked_ends (round n)).mono
  · rintro y ⟨q, hround, hy⟩ hn hzero
    have hq : q = 0 := Binary64.finite.inj (hy.symm.trans hzero)
    have hnear : nearest64 n = 0 := by
      rw [round] at hround
      split_ifs at hround
      rw [← hq]
      exact Binary64.finite.inj hround
    have hn' : (1 : ℚ) ≤ n := by exact_mod_cast hn
    have hlow := (nearest64_bounds (q := n) (by linarith)).1
    rw [hnear] at hlow
    linarith
  · exact fun e he => he

theorem square_ends (x : Binary64) : Ends (fun _ => True) (· = .overflowError) (square x) := by
  cases x with
  | finite q => exact (checked_ends (round (q * q))).mono (fun _ _ => trivial) (fun _ he => he)
  | inf s => trivial
  | nan => trivial

section Bounded

variable {b : ℕ} {E : PythonError → Prop}

theorem truedivInt_within {n m : ℤ} (hb : b ≤ 1000) (hm : m ≠ 0) (hn : |n| ≤ 2 ^ b * |m|) :
    Ends (Within (b + 2)) E (truedivInt n m) := by
  have hpos : (0 : ℚ) < |(m : ℚ)| := abs_pos.mpr (by exact_mod_cast hm)
  have hq : |(n : ℚ) / m| ≤ 2 ^ b := by
    rw [abs_div, div_le_iff₀ hpos]
    exact_mod_cast hn
  rw [truedivInt_eq n hm]
  exact checked_within (round_within hb hq) E

theorem ofInt_within {n : ℤ} (hb : b ≤ 1000) (hn : |n| ≤ 2 ^ b) : Ends (Within (b + 2)) E (ofInt n) := by
  have hq : |(n : ℚ)| ≤ 2 ^ b := by exact_mod_cast hn
  exact checked_within (round_within hb hq) E

theorem square_within {x : Binary64} (hb : 2 * b ≤ 1000) (hx : x.Within b) :
    Ends (Within (2 * b + 2)) E (square x) := by
  obtain ⟨r, rfl, hr⟩ := hx
  apply checked_within (round_within hb ?_) E
  rw [abs_mul, two_mul, pow_add]
  exact mul_le_mul hr hr (abs_nonneg r) (by positivity)

end Bounded

end Binary64

/-- The operations on numbers that a computation over ints and floats uses. -/
structure Arithmetic (ν : Type) where
  ofInt : ℤ → Except PythonError ν
  truedivInt : ℤ → ℤ → Except PythonError ν
  zero : ν
  add : ν → ν → ν
  sub : ν → ν → ν
  mul : ν → ν → ν
  square : ν → Except PythonError ν
  div : ν → ν → Except PythonError ν

def binary64 : Arithmetic Binary64 where
  ofInt := Binary64.ofInt
  truedivInt := Binary64.truedivInt
  zero := .finite 0
  add := Binary64.add
  sub := Binary64.sub
  mul := Binary64.mul
  square := Binary64.square
  div := Binary64.div

/-- The same operations without rounding and without overflow. -/
def exact : Arithmetic ℚ where
  ofInt n := .ok n
  truedivInt a b := if b = 0 then .error .zeroDivisionError else .ok (a / b)
  zero := 0
  add a b := a + b
  sub a b := a - b
  mul a b := a * b
  square a := .ok (a * a)
  div a b := if b = 0 then .error .zeroDivisionError else .ok (a / b)

end PacketIntercept.FloatArithmetic
