import PacketIntercept.DiffCollection
import PacketIntercept.HistogramStatistics

namespace PacketIntercept.DiffStatistics

open DiffCollection FloatArithmetic Histograms HistogramStatistics Runs

variable {p : ℕ}

def diffAt (pair : Fin 6 × Fin 6) (it : Iteration) (i : Fin it.len) : Option ℤ :=
  if it.logs pair.1 i = 0 ∨ it.logs pair.2 i = 0 then none
  else some (it.logs pair.1 i - it.logs pair.2 i)

def iterationDiffs (pair : Fin 6 × Fin 6) (it : Iteration) : List ℤ :=
  (List.finRange it.len).flatMap fun i => (diffAt pair it i).toList

/-- The differences of a pair over all iterations. -/
def rawDiffs (pair : Fin 6 × Fin 6) (its : List Iteration) : List ℤ := its.flatMap (iterationDiffs pair)

theorem mem_rawDiffs {pair : Fin 6 × Fin 6} {its : List Iteration} {d : ℤ} :
    d ∈ rawDiffs pair its ↔ ∃ it ∈ its, ∃ i, it.logs pair.1 i ≠ 0 ∧ it.logs pair.2 i ≠ 0 ∧
      it.logs pair.1 i - it.logs pair.2 i = d := by
  simp only [rawDiffs, iterationDiffs, List.mem_flatMap, List.mem_finRange, true_and,
    Option.mem_toList, diffAt]
  apply exists_congr
  intro it
  apply and_congr_right
  intro _
  apply exists_congr
  intro i
  by_cases hz : it.logs pair.1 i = 0 ∨ it.logs pair.2 i = 0
  · simp only [hz, if_true, reduceCtorEq, false_iff, not_and]
    intro ha hb
    exact absurd hz (not_or.mpr ⟨ha, hb⟩)
  · simp [not_or.mp hz]

structure PairCounters where
  diffs : Histogram ℤ
  neg : ℕ

def PairCounters.add (c : PairCounters) (d : ℤ) : PairCounters :=
  ⟨c.diffs.increment d, if d < 0 then c.neg + 1 else c.neg⟩

def pairCounters (c : Collected p) (th : Fin p) : PairCounters := ⟨c.countDiffs th, c.diffsNeg th⟩

theorem pair_checkZero (c : Collected p) (log : Fin 6) (v : ℤ) (th : Fin p) :
    pairCounters (c.checkZero log v) th = pairCounters c th := by
  rw [Collected.checkZero]
  split <;> rfl

theorem pair_addDiff_self (c : Collected p) (th : Fin p) (d : ℤ) :
    pairCounters (c.addDiff th d) th = (pairCounters c th).add d := by
  by_cases hd : d < 0 <;> simp [pairCounters, Collected.addDiff, PairCounters.add, hd]

theorem pair_addDiff_other (c : Collected p) {th th' : Fin p} (hne : th' ≠ th) (d : ℤ) :
    pairCounters (c.addDiff th' d) th = pairCounters c th := by
  by_cases hd : d < 0 <;>
    simp [pairCounters, Collected.addDiff, hd, Function.update_of_ne (Ne.symm hne)]

variable (toSubtract : Fin p → Fin 6 × Fin 6)

theorem pair_subtractPair_self (it : Iteration) (i : Fin it.len) (c : Collected p) (th : Fin p) :
    pairCounters (subtractPair toSubtract it i c th) th =
      run PairCounters.add (pairCounters c th) (diffAt (toSubtract th) it i).toList := by
  rw [subtractPair, diffAt]
  split
  · simp only [pair_checkZero, Option.toList_none, run_nil]
  · simp only [pair_addDiff_self, pair_checkZero, Option.toList_some, run_cons, run_nil]

theorem pair_subtractPair_other (it : Iteration) (i : Fin it.len) {th th' : Fin p} (hne : th' ≠ th)
    (c : Collected p) :
    pairCounters (subtractPair toSubtract it i c th') th = pairCounters c th := by
  rw [subtractPair]
  split
  · simp only [pair_checkZero]
  · simp only [pair_addDiff_other _ hne, pair_checkZero]

theorem pair_collectIndex (it : Iteration) (th : Fin p) (c : Collected p) (i : Fin it.len) :
    pairCounters (collectIndex toSubtract it c i) th =
      run PairCounters.add (pairCounters c th) (diffAt (toSubtract th) it i).toList :=
  run_single (f := fun c => pairCounters c th)
    (g := fun s => run PairCounters.add s (diffAt (toSubtract th) it i).toList)
    (fun c => pair_subtractPair_self toSubtract it i c th)
    (fun _ hne c => pair_subtractPair_other toSubtract it i hne c) c (List.nodup_finRange p)
    (List.mem_finRange th)

theorem pair_collectIteration (th : Fin p) (c : Collected p) (it : Iteration) :
    pairCounters (collectIteration toSubtract c it) th =
      run PairCounters.add (pairCounters c th) (iterationDiffs (toSubtract th) it) :=
  run_refines (fun c => pairCounters c th) (pair_collectIndex toSubtract it th) c _

/-- Seen from one pair, the accumulation counts its differences in order. -/
theorem pair_collect (its : List Iteration) (th : Fin p) :
    pairCounters (collect toSubtract its) th =
      run PairCounters.add ⟨.empty, 0⟩ (rawDiffs (toSubtract th) its) :=
  run_refines (fun c => pairCounters c th) (pair_collectIteration toSubtract th) _ _

theorem run_add (c : PairCounters) (ds : List ℤ) :
    run PairCounters.add c ds = ⟨c.diffs.tally ds, c.neg + ds.countP fun d => d < 0⟩ := by
  induction ds generalizing c with
  | nil => rfl
  | cons d ds ih =>
      rw [run_cons, ih, List.countP_cons]
      by_cases hd : d < 0
      · simp [PairCounters.add, Histogram.tally, hd, Nat.add_assoc, Nat.add_comm]
      · simp [PairCounters.add, Histogram.tally, hd]

theorem countDiffs_collect (its : List Iteration) (th : Fin p) :
    (collect toSubtract its).countDiffs th = Histogram.empty.tally (rawDiffs (toSubtract th) its) := by
  have h := pair_collect toSubtract its th
  rw [run_add] at h
  exact congrArg PairCounters.diffs h

theorem diffsNeg_collect (its : List Iteration) (th : Fin p) :
    (collect toSubtract its).diffsNeg th = (rawDiffs (toSubtract th) its).countP fun d => d < 0 := by
  have h := pair_collect toSubtract its th
  rw [run_add, Nat.zero_add] at h
  exact congrArg PairCounters.neg h

theorem values_countDiffs (its : List Iteration) (th : Fin p) :
    ((collect toSubtract its).countDiffs th).values.Perm (rawDiffs (toSubtract th) its) := by
  rw [countDiffs_collect]
  exact Histogram.values_tally Histogram.empty _

/-- The counters of a pair are those of its differences, and the average and
the quantity under the root are their mean and their variance. -/
structure MatchesDiffs (c : Collected p) (th : Fin p) (ds : List ℤ) : Prop where
  counted : ∀ d, (c.countDiffs th).get d = if ds.count d = 0 then none else some (ds.count d)
  negative : c.diffsNeg th = ds.countP fun d => d < 0
  averaged : ds ≠ [] → average exact (c.countDiffs th) = .ok (mean ds)
  deviated : ds ≠ [] → variance exact (c.countDiffs th) = .ok (populationVariance ds)

theorem collect_matchesDiffs (its : List Iteration) (th : Fin p) :
    MatchesDiffs (collect toSubtract its) th (rawDiffs (toSubtract th) its) := by
  have hperm := values_countDiffs toSubtract its th
  have hne : rawDiffs (toSubtract th) its ≠ [] → ((collect toSubtract its).countDiffs th).values ≠ [] := by
    intro h he
    rw [he] at hperm
    exact h hperm.symm.eq_nil
  constructor
  · intro d
    rw [Histogram.get_eq_count, hperm.count_eq]
  · exact diffsNeg_collect toSubtract its th
  · intro h
    rw [average_exact (hne h), mean_perm hperm]
  · intro h
    rw [variance_exact (hne h), populationVariance_perm hperm]

end PacketIntercept.DiffStatistics
