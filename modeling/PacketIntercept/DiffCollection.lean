import Mathlib.Algebra.BigOperators.Ring.List
import Mathlib.Algebra.Ring.Nat
import Mathlib.Data.Fin.VecNotation
import PacketIntercept.Histograms
import PacketIntercept.Runs

namespace PacketIntercept.DiffCollection

open Histograms Runs

def kmLog : Fin 6 := 0
def upLog : Fin 6 := 1
def kmSLog : Fin 6 := 2
def ebpfLog : Fin 6 := 3
def usebpfLog : Fin 6 := 4
def ebpfSLog : Fin 6 := 5

/-- The logs of one iteration, once the script has found them of equal length. -/
structure Iteration where
  len : ℕ
  logs : Fin 6 → Fin len → ℤ

structure Collected (p : ℕ) where
  logsZeroed : Fin 6 → ℕ
  countDiffs : Fin p → Histogram ℤ
  diffsNeg : Fin p → ℕ

/-- to_subtract of ps_combi_2_stress_non.py and process_suit_combi_4.py. -/
def suitePairs : Fin 4 → Fin 6 × Fin 6 := 
  ![(upLog, kmLog), (kmSLog, kmLog), (usebpfLog, ebpfLog), (ebpfSLog, ebpfLog)]

/-- to_subtract of check_improved_plot.py. -/
def improvedPairs : Fin 6 → Fin 6 × Fin 6 := 
  ![(upLog, kmLog), (kmSLog, kmLog), (kmSLog, upLog),
    (usebpfLog, ebpfLog), (ebpfSLog, ebpfLog), (ebpfSLog, usebpfLog)]

variable {p : ℕ}

def Collected.start : Collected p := ⟨fun _ => 0, fun _ => Histogram.empty, fun _ => 0⟩

def Collected.checkZero (c : Collected p) (log : Fin 6) (v : ℤ) : Collected p :=
  if v = 0 then { c with logsZeroed := Function.update c.logsZeroed log (c.logsZeroed log + 1) } else c

def Collected.addDiff (c : Collected p) (pairTh : Fin p) (d : ℤ) : Collected p :=
  { c with
    diffsNeg :=
      if d < 0 then Function.update c.diffsNeg pairTh (c.diffsNeg pairTh + 1) else c.diffsNeg
    countDiffs := Function.update c.countDiffs pairTh ((c.countDiffs pairTh).increment d) }

def subtractPair (toSubtract : Fin p → Fin 6 × Fin 6) (it : Iteration) (i : Fin it.len)
    (c : Collected p) (pairTh : Fin p) : Collected p :=
  let pair := toSubtract pairTh
  let a := it.logs pair.1 i
  let b := it.logs pair.2 i
  let checked := (c.checkZero pair.1 a).checkZero pair.2 b
  if a = 0 ∨ b = 0 then checked else checked.addDiff pairTh (a - b)

def collectIndex (toSubtract : Fin p → Fin 6 × Fin 6) (it : Iteration) (c : Collected p)
    (i : Fin it.len) : Collected p :=
  run (subtractPair toSubtract it i) c (List.finRange p)

def collectIteration (toSubtract : Fin p → Fin 6 × Fin 6) (c : Collected p) (it : Iteration) :
    Collected p :=
  run (collectIndex toSubtract it) c (List.finRange it.len)

def collect (toSubtract : Fin p → Fin 6 × Fin 6) (its : List Iteration) : Collected p :=
  run (collectIteration toSubtract) Collected.start its

/-- How often a log stands in the pairs. -/
def placesOf (toSubtract : Fin p → Fin 6 × Fin 6) (log : Fin 6) : ℕ :=
  ((List.finRange p).map fun th =>
    (if (toSubtract th).1 = log then 1 else 0) + if (toSubtract th).2 = log then 1 else 0).sum

def Iteration.zeros (it : Iteration) (log : Fin 6) : ℕ :=
  (List.finRange it.len).countP fun i => it.logs log i = 0

def zeros (its : List Iteration) (log : Fin 6) : ℕ := (its.map fun it => it.zeros log).sum

theorem checkZero_logsZeroed (c : Collected p) (l log : Fin 6) (v : ℤ) :
    (c.checkZero l v).logsZeroed log =
      c.logsZeroed log + if v = 0 then if l = log then 1 else 0 else 0 := by
  by_cases hv : v = 0
  · by_cases hl : l = log
    · subst hl
      simp [Collected.checkZero, hv]
    · simp [Collected.checkZero, hv, hl, Function.update_of_ne (Ne.symm hl)]
  · simp [Collected.checkZero, hv]

theorem zero_at_place (it : Iteration) (i : Fin it.len) (l log : Fin 6) :
    (if it.logs l i = 0 then if l = log then 1 else 0 else 0) =
      if it.logs log i = 0 then if l = log then 1 else 0 else 0 := by
  by_cases hl : l = log
  · rw [hl]
  · simp [hl]

theorem subtractPair_logsZeroed (toSubtract : Fin p → Fin 6 × Fin 6) (it : Iteration)
    (i : Fin it.len) (log : Fin 6) (c : Collected p) (th : Fin p) :
    (subtractPair toSubtract it i c th).logsZeroed log = c.logsZeroed log +
      if it.logs log i = 0 then
        (if (toSubtract th).1 = log then 1 else 0) + if (toSubtract th).2 = log then 1 else 0
      else 0 := by
  have hchecked : (subtractPair toSubtract it i c th).logsZeroed =
      ((c.checkZero (toSubtract th).1 (it.logs (toSubtract th).1 i)).checkZero (toSubtract th).2
        (it.logs (toSubtract th).2 i)).logsZeroed := by
    rw [subtractPair]
    split <;> rfl
  rw [hchecked, checkZero_logsZeroed, checkZero_logsZeroed, zero_at_place, zero_at_place]
  by_cases h : it.logs log i = 0
  · simp only [h, if_true, Nat.add_assoc]
  · simp only [h, if_false, Nat.add_zero]

theorem collectIndex_logsZeroed (toSubtract : Fin p → Fin 6 × Fin 6) (it : Iteration) (log : Fin 6)
    (c : Collected p) (i : Fin it.len) :
    (collectIndex toSubtract it c i).logsZeroed log =
      c.logsZeroed log + if it.logs log i = 0 then placesOf toSubtract log else 0 := by
  refine (run_counter (fun c => c.logsZeroed log) (subtractPair_logsZeroed toSubtract it i log) c _).trans ?_
  by_cases h : it.logs log i = 0
  · simp only [h, if_true, placesOf]
  · simp [h]

theorem sum_map_ite {α : Type} (q : α → Prop) [DecidablePred q] (n : ℕ) (xs : List α) :
    (xs.map fun x => if q x then n else 0).sum = n * xs.countP fun x => q x := by
  induction xs with
  | nil => rfl
  | cons x xs ih =>
      rw [List.map_cons, List.sum_cons, ih, List.countP_cons]
      by_cases h : q x
      · simp [h, Nat.mul_add, Nat.add_comm]
      · simp [h]

theorem collectIteration_logsZeroed (toSubtract : Fin p → Fin 6 × Fin 6) (log : Fin 6)
    (c : Collected p) (it : Iteration) :
    (collectIteration toSubtract c it).logsZeroed log =
      c.logsZeroed log + placesOf toSubtract log * it.zeros log := by
  refine (run_counter (fun c => c.logsZeroed log) (collectIndex_logsZeroed toSubtract it log) c _).trans ?_
  rw [sum_map_ite, Iteration.zeros]

/-- A zero is counted once for every place of its log in the pairs. -/
theorem collect_logsZeroed (toSubtract : Fin p → Fin 6 × Fin 6) (its : List Iteration)
    (log : Fin 6) :
    (collect toSubtract its).logsZeroed log = placesOf toSubtract log * zeros its log := by
  refine (run_counter (fun c => c.logsZeroed log) (collectIteration_logsZeroed toSubtract log)
    Collected.start its).trans ?_
  rw [zeros, List.sum_map_mul_left]
  exact Nat.zero_add _

end PacketIntercept.DiffCollection
