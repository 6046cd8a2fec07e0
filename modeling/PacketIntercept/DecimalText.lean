import Mathlib.Data.List.DropRight
import Mathlib.Data.Nat.Log

namespace PacketIntercept.DecimalText

def newline : UInt8 := 10
def carriageReturn : UInt8 := 13
def underscore : UInt8 := 95
def plusSign : UInt8 := 43
def minusSign : UInt8 := 45

def digit (d : Nat) : UInt8 := UInt8.ofNat (48 + d)
def isDigit (c : UInt8) : Bool := 48 ≤ c.toNat && c.toNat ≤ 57
def digitValue (c : UInt8) : Nat := c.toNat - 48

/-- The text printf writes for %lu. -/
def decimal (n : Nat) : List UInt8 :=
  if n < 10 then [digit n] else decimal (n / 10) ++ [digit (n % 10)]

def digitsFrom (acc : Nat) : List UInt8 → Option Nat
  | [] => some acc
  | [c] => if isDigit c then some (10 * acc + digitValue c) else none
  | c :: d :: cs =>
      if isDigit c then digitsFrom (10 * acc + digitValue c) (d :: cs)
      else if c == underscore && isDigit d then digitsFrom (10 * acc + digitValue d) cs
      else none

def natLiteral : List UInt8 → Option Nat
  | [] => none
  | c :: cs => if isDigit c then digitsFrom (digitValue c) cs else none

def intLiteral : List UInt8 → Option Int
  | [] => none
  | c :: cs =>
      if c == minusSign then (natLiteral cs).map fun n => -(n : Int)
      else if c == plusSign then (natLiteral cs).map Int.ofNat
      else (natLiteral (c :: cs)).map Int.ofNat

def isSpace (c : UInt8) : Bool := 9 ≤ c.toNat && c.toNat ≤ 13 || c.toNat == 32

def strip (cs : List UInt8) : List UInt8 := (cs.dropWhile isSpace).rdropWhile isSpace

/-- Python's int on the text of a line. The text is given in UTF-8; what int
makes of a line with other than ASCII characters is the parameter. -/
def int (other : List UInt8 → Option Int) (line : List UInt8) : Option Int :=
  if line.all (· < 128) then intLiteral (strip line) else other line

/-- Text mode reads each of the three line ends as a newline. -/
def universalNewlines : List UInt8 → List UInt8
  | [] => []
  | [c] => if c == carriageReturn then [newline] else [c]
  | c :: d :: cs =>
      if c == carriageReturn then
        if d == newline then newline :: universalNewlines cs
        else newline :: universalNewlines (d :: cs)
      else c :: universalNewlines (d :: cs)

def splitLines : List UInt8 → List (List UInt8)
  | [] => []
  | c :: cs =>
      if c == newline then [newline] :: splitLines cs
      else
        match splitLines cs with
        | [] => [[c]]
        | l :: ls => (c :: l) :: ls

/-- The loop `for line in f: log.append(int(line))`; none is an exception. -/
def load (other : List UInt8 → Option Int) (text : List UInt8) : Option (List Int) :=
  (splitLines (universalNewlines text)).mapM (int other)

theorem digit_toNat {d : Nat} (hd : d < 10) : (digit d).toNat = 48 + d :=
  UInt8.toNat_ofNat_of_lt' (by simp [UInt8.size]; omega)

theorem isDigit_digit {d : Nat} (hd : d < 10) : isDigit (digit d) = true := by
  simp [isDigit, digit_toNat hd]
  omega

theorem digitValue_digit {d : Nat} (hd : d < 10) : digitValue (digit d) = d := by
  simp [digitValue, digit_toNat hd]

theorem isDigit_range {c : UInt8} (hc : isDigit c = true) : 48 ≤ c.toNat ∧ c.toNat ≤ 57 := by
  simpa [isDigit] using hc

theorem isDigit_ne {c d : UInt8} (hc : isDigit c = true) (hd : isDigit d = false) : c ≠ d := by
  rintro rfl
  rw [hc] at hd
  exact Bool.noConfusion hd

theorem not_isSpace_of_isDigit {c : UInt8} (hc : isDigit c = true) : isSpace c = false := by
  have hr := isDigit_range hc
  simp [isSpace]
  omega

theorem isDigit_of_mem_decimal (n : Nat) : ∀ c ∈ decimal n, isDigit c = true := by
  fun_induction decimal n with
  | case1 n hn =>
      intro c hc
      rw [List.mem_singleton.mp hc]
      exact isDigit_digit hn
  | case2 n hn ih =>
      intro c hc
      rcases List.mem_append.mp hc with hc | hc
      · exact ih c hc
      · rw [List.mem_singleton.mp hc]
        exact isDigit_digit (Nat.mod_lt _ (by omega))

theorem decimal_ne_nil (n : Nat) : decimal n ≠ [] := by
  fun_cases decimal n <;> simp

theorem decimal_length (n : Nat) : (decimal n).length = Nat.log 10 n + 1 := by
  fun_induction decimal n with
  | case1 n hn => simp [Nat.log_of_lt hn]
  | case2 n hn ih =>
      rw [List.length_append, ih, List.length_singleton, ← Nat.log_of_one_lt_of_le (by omega) (by omega)]

theorem digitsFrom_of_digits (cs : List UInt8) (h : ∀ c ∈ cs, isDigit c = true) (acc : Nat) :
    digitsFrom acc cs = some (cs.foldl (fun a c => 10 * a + digitValue c) acc) := by
  induction cs generalizing acc with
  | nil => rfl
  | cons c cs ih =>
      have hc : isDigit c = true := h c List.mem_cons_self
      have ht := ih (fun d hd => h d (List.mem_cons_of_mem c hd)) (10 * acc + digitValue c)
      cases cs with
      | nil => simp [digitsFrom, hc]
      | cons d cs =>
          rw [digitsFrom, if_pos hc, ht]
          rfl

theorem natLiteral_of_digits {cs : List UInt8} (h : ∀ c ∈ cs, isDigit c = true) (hne : cs ≠ []) :
    natLiteral cs = some (cs.foldl (fun a c => 10 * a + digitValue c) 0) := by
  cases cs with
  | nil => exact absurd rfl hne
  | cons c cs =>
      have hc : isDigit c = true := h c List.mem_cons_self
      rw [natLiteral, if_pos hc, digitsFrom_of_digits cs fun d hd => h d (List.mem_cons_of_mem c hd)]
      simp

theorem foldl_decimal (n : Nat) : (decimal n).foldl (fun a c => 10 * a + digitValue c) 0 = n := by
  fun_induction decimal n with
  | case1 n hn => simp [digitValue_digit hn]
  | case2 n hn ih =>
      rw [List.foldl_append, ih]
      simp only [List.foldl_cons, List.foldl_nil, digitValue_digit (Nat.mod_lt n (show 0 < 10 by omega))]
      omega

theorem natLiteral_decimal (n : Nat) : natLiteral (decimal n) = some n := by
  rw [natLiteral_of_digits (isDigit_of_mem_decimal n) (decimal_ne_nil n), foldl_decimal]

theorem intLiteral_of_digits {cs : List UInt8} (h : ∀ c ∈ cs, isDigit c = true) :
    intLiteral cs = (natLiteral cs).map Int.ofNat := by
  cases cs with
  | nil => rfl
  | cons c cs =>
      have hc : isDigit c = true := h c List.mem_cons_self
      have hm : c ≠ minusSign := isDigit_ne hc (by decide)
      have hp : c ≠ plusSign := isDigit_ne hc (by decide)
      simp [intLiteral, hm, hp]

theorem strip_line {cs : List UInt8} (h : ∀ c ∈ cs, isSpace c = false) (hne : cs ≠ []) :
    strip (cs ++ [newline]) = cs := by
  have hd : (cs ++ [newline]).dropWhile isSpace = cs ++ [newline] := by
    cases cs with
    | nil => exact absurd rfl hne
    | cons c cs => simp [h c List.mem_cons_self]
  have hr : cs.rdropWhile isSpace = cs := by
    apply List.rdropWhile_eq_self_iff.mpr
    intro hl
    simp [h _ (List.getLast_mem hl)]
  rw [strip, hd, List.rdropWhile_concat, if_pos (by decide), hr]

theorem int_decimal (other : List UInt8 → Option Int) (n : Nat) :
    int other (decimal n ++ [newline]) = some (n : Int) := by
  have hdig := isDigit_of_mem_decimal n
  have hascii : (decimal n ++ [newline]).all (· < 128) = true := by
    apply List.all_eq_true.mpr
    intro c hc
    rw [decide_eq_true_eq, UInt8.lt_iff_toNat_lt]
    rcases List.mem_append.mp hc with hc | hc
    · have hr := isDigit_range (hdig c hc)
      exact Nat.lt_of_le_of_lt hr.2 (by decide)
    · rw [List.mem_singleton.mp hc]
      decide
  rw [int, if_pos hascii, strip_line (fun c hc => not_isSpace_of_isDigit (hdig c hc)) (decimal_ne_nil n),
    intLiteral_of_digits hdig, natLiteral_decimal]
  rfl

theorem universalNewlines_cons {c : UInt8} (hc : c ≠ carriageReturn) (cs : List UInt8) :
    universalNewlines (c :: cs) = c :: universalNewlines cs := by
  cases cs <;> simp [universalNewlines, hc]

theorem universalNewlines_append {l : List UInt8} (h : carriageReturn ∉ l) (cs : List UInt8) :
    universalNewlines (l ++ cs) = l ++ universalNewlines cs := by
  induction l with
  | nil => rfl
  | cons c l ih =>
      obtain ⟨hc, hl⟩ := List.ne_and_not_mem_of_not_mem_cons h
      rw [List.cons_append, universalNewlines_cons (Ne.symm hc), ih hl, List.cons_append]

theorem universalNewlines_eq_nil (cs : List UInt8) : universalNewlines cs = [] ↔ cs = [] := by
  fun_cases universalNewlines cs <;> simp_all

theorem splitLines_append {l : List UInt8} (h : newline ∉ l) (cs : List UInt8) :
    splitLines (l ++ newline :: cs) = (l ++ [newline]) :: splitLines cs := by
  induction l with
  | nil => simp [splitLines]
  | cons c l ih =>
      obtain ⟨hc, hl⟩ := List.ne_and_not_mem_of_not_mem_cons h
      simp [splitLines, ih hl, Ne.symm hc]

theorem splitLines_eq_nil (cs : List UInt8) : splitLines cs = [] ↔ cs = [] := by
  cases cs with
  | nil => simp [splitLines]
  | cons c cs =>
      simp only [splitLines, reduceCtorEq, iff_false]
      split
      · simp
      · split <;> simp

theorem load_eq_nil_iff (other : List UInt8 → Option Int) (cs : List UInt8) :
    load other cs = some [] ↔ cs = [] := by
  rw [← universalNewlines_eq_nil, ← splitLines_eq_nil, load]
  cases splitLines (universalNewlines cs) with
  | nil => simp
  | cons l ls =>
      rw [List.mapM_cons]
      cases int other l <;> cases List.mapM (int other) ls <;> simp

theorem load_line (other : List UInt8 → Option Int) (n : Nat) (cs : List UInt8) :
    load other (decimal n ++ newline :: cs) = (load other cs).map ((n : Int) :: ·) := by
  have hdig := isDigit_of_mem_decimal n
  have hcr : carriageReturn ∉ decimal n := fun hc => isDigit_ne (hdig _ hc) (by decide) rfl
  have hnl : newline ∉ decimal n := fun hc => isDigit_ne (hdig _ hc) (by decide) rfl
  rw [load, universalNewlines_append hcr, universalNewlines_cons (by decide), splitLines_append hnl,
    List.mapM_cons, int_decimal, load]
  cases List.mapM (int other) (splitLines (universalNewlines cs)) <;> rfl

/-- A file that starts with the lines of a list loads as this list followed
by what the rest of the file loads as. -/
theorem load_lines (other : List UInt8 → Option Int) (ns : List Nat) (rest : List UInt8) :
    load other ((ns.flatMap fun n => decimal n ++ [newline]) ++ rest) =
      (load other rest).map (ns.map Int.ofNat ++ ·) := by
  induction ns with
  | nil => cases h : load other rest <;> simp [h]
  | cons n ns ih =>
      rw [List.flatMap_cons, List.append_assoc, List.append_assoc, List.singleton_append, load_line, ih]
      cases load other rest <;> rfl

end PacketIntercept.DecimalText
