import Mathlib.Algebra.Order.BigOperators.Group.List
import PacketIntercept.DiffStatistics
import PacketIntercept.LatencyBars
import PacketIntercept.ZeroCounts

namespace PacketIntercept.StatisticsStage

open DiffCollection DiffStatistics FloatArithmetic Histograms HistogramStatistics LatencyBars
open HalfOpenBins MedianLoop RaisedErrors TrueDivision ZeroCounts

/-- A computation whose only exception is an OverflowError. -/
def raising {α : Type} : Option α → Except PythonError α
  | some a => .ok a
  | none => .error .overflowError

def pairStatistics (h : Histogram ℤ) : Except PythonError (Binary64 × Binary64) := do
  let avg ← average binary64 h
  let deviation ← varianceAround binary64 h avg
  pure (avg, deviation)

def maxMin (h : Histogram ℤ) : Except PythonError (ℤ × ℤ) :=
  match h.keys.max?, h.keys.min? with
  | some a, some b => .ok (a, b)
  | _, _ => .error .valueError

def title (m : ℤ × ℤ) : Except PythonError (Binary64 × Binary64) := do
  let median ← Binary64.truedivInt m.1 1000
  let procent99 ← Binary64.truedivInt m.2 1000
  pure (median, procent99)

structure Report where
  logsZeroed : Fin 6 → ℕ
  statistics : List (Binary64 × Binary64)
  medians : List (ℤ × ℤ)
  ranges : List (ℤ × ℤ)
  bars : List (List ℕ × List (ℤ × ℕ))
  titles : List (Binary64 × Binary64)

/-- The stages after the accumulation, each of which goes through all pairs. -/
def statisticsStage (c : Collected 4) : Except PythonError Report := do
  let logsZeroed ← raising (halved c.logsZeroed)
  let statistics ← (List.finRange 4).mapM fun th => pairStatistics (c.countDiffs th)
  let medians ← (List.finRange 4).mapM fun th => raising (medianAnd99 (c.countDiffs th))
  let ranges ← (List.finRange 4).mapM fun th => maxMin (c.countDiffs th)
  let bars ← (List.finRange 4).mapM fun th => latencyBars (c.countDiffs th)
  let titles ← medians.mapM title
  pure ⟨logsZeroed, statistics, medians, ranges, bars, titles⟩

/-- No division by zero, and no max or min of nothing. -/
def Safe (its : List Iteration) : Prop :=
  statisticsStage (collect suitePairs its) ≠ .error .zeroDivisionError ∧
    statisticsStage (collect suitePairs its) ≠ .error .valueError

/-- Every pair has a packet that both of its measurement points saw. -/
def Measured (its : List Iteration) : Prop :=
  ∀ th, ∃ it ∈ its, ∃ i, it.logs (suitePairs th).1 i ≠ 0 ∧ it.logs (suitePairs th).2 i ≠ 0

/-- The logs hold 64-bit numbers, and there are not too many of them to be counted in 64 bits. -/
structure Recorded (its : List Iteration) : Prop where
  entries : ∀ it ∈ its, ∀ log i, 0 ≤ it.logs log i ∧ it.logs log i < 2 ^ 64
  positions : positions its < 2 ^ 64

section Stage

variable {E : PythonError → Prop}

theorem statisticsStage_ends {c : Collected 4} {Q : ℤ × ℤ → Prop}
    (hzeroed : Ends (fun _ => True) E (raising (halved c.logsZeroed)))
    (hstatistics : ∀ th, Ends (fun _ => True) E (pairStatistics (c.countDiffs th)))
    (hmedians : ∀ th, Ends Q E (raising (medianAnd99 (c.countDiffs th))))
    (hranges : ∀ th, Ends (fun _ => True) E (maxMin (c.countDiffs th)))
    (hbars : ∀ th, Ends (fun _ => True) E (latencyBars (c.countDiffs th)))
    (htitles : ∀ m, Q m → Ends (fun _ => True) E (title m)) :
    Ends (fun _ => True) E (statisticsStage c) := by
  apply hzeroed.bind
  intro logsZeroed _
  apply (Ends.mapM fun th _ => hstatistics th).bind
  intro statistics _
  apply (Ends.mapM fun th _ => hmedians th).bind
  intro medians hQ
  apply (Ends.mapM fun th _ => hranges th).bind
  intro ranges _
  apply (Ends.mapM fun th _ => hbars th).bind
  intro bars _
  apply (Ends.mapM fun m hm => htitles m (hQ m hm)).bind
  intro titles _
  trivial

theorem raising_ends {α : Type} (x : Option α) : Ends (fun _ => True) (· = .overflowError) (raising x) := by
  cases x with
  | some a => trivial
  | none => rfl

theorem maxMin_ends {h : Histogram ℤ} (hne : h.values ≠ []) : Ends (fun _ => True) E (maxMin h) := by
  have hkeys : h.keys ≠ [] := by
    intro he
    obtain ⟨k, hk⟩ := List.exists_mem_of_ne_nil _ hne
    rw [h.mem_values, he] at hk
    cases hk
  rw [maxMin]
  cases hmax : h.keys.max? with
  | none => exact absurd (List.max?_eq_none_iff.mp hmax) hkeys
  | some a =>
      cases hmin : h.keys.min? with
      | none => exact absurd (List.min?_eq_none_iff.mp hmin) hkeys
      | some b => trivial

theorem countItem_ends (s : Counting) {item : ℤ × ℕ}
    (hq : Ends (fun x => ∃ q, x = .finite q) E (Binary64.truedivInt item.1 toUsec)) :
    Ends (fun _ => True) E (countItem s item) := by
  apply hq.bind
  rintro x ⟨q, rfl⟩
  have hint : ∃ diff, Binary64.toInt (.finite q) = .ok diff := ⟨_, rfl⟩
  obtain ⟨diff, hdiff⟩ := hint
  rw [hdiff]
  simp only [bind, Except.bind, search_eq diff thresholds (fun _ => id)]
  cases binOf (thresholds.map nanoseconds) diff with
  | none => trivial
  | some j => trivial

theorem latencyBars_ends {h : Histogram ℤ}
    (hq : ∀ x ∈ h.items, Ends (fun y => ∃ q, y = .finite q) E (Binary64.truedivInt x.1 toUsec)) :
    Ends (fun _ => True) E (latencyBars h) := by
  have hfold : Ends (fun _ => True) E
      (h.items.foldlM countItem ⟨List.replicate thresholds.length 0, []⟩) :=
    Ends.foldlM trivial (fun x hx s _ => countItem_ends s (hq x hx))
  apply hfold.bind
  intro s _
  trivial

theorem varianceAround_ends {h : Histogram ℤ} (hne : h.values ≠ []) {avg : Binary64}
    (hadd : ∀ x ∈ h.items, ∀ s, Ends (fun _ => True) E (addDeviation binary64 avg s x))
    (hnbr : Ends (fun x => 1 ≤ (h.nbrValues : ℤ) → x ≠ .finite 0) E (Binary64.ofInt h.nbrValues)) :
    Ends (fun _ => True) E (varianceAround binary64 h avg) := by
  have hfold : Ends (fun _ => True) E (sumSquareDeviations binary64 h avg) :=
    Ends.foldlM trivial (fun x hx s _ => hadd x hx s)
  apply hfold.bind
  intro sumSquare _
  apply hnbr.bind
  intro nbrValues hnbr
  have hpos : 1 ≤ (h.nbrValues : ℤ) := by
    rw [← h.length_values]
    exact_mod_cast List.length_pos_iff.mpr hne
  have hdiv : binary64.div sumSquare nbrValues = .ok (Binary64.quotient sumSquare nbrValues) :=
    if_neg (hnbr hpos)
  rw [hdiv]
  trivial

end Stage

theorem pairStatistics_of_empty {h : Histogram ℤ} (he : h.values = []) :
    pairStatistics h = .error .zeroDivisionError := by
  have havg : average binary64 h = .error .zeroDivisionError := average_of_empty he rfl
  rw [pairStatistics, havg]
  rfl

theorem addDeviation_ends (avg s : Binary64) (x : ℤ × ℕ) :
    Ends (fun _ => True) (· = .overflowError) (addDeviation binary64 avg s x) := by
  apply (Binary64.ofInt_ends x.1).bind
  intro key _
  apply (Binary64.square_ends (Binary64.sub key avg)).bind
  intro squared _
  apply (Binary64.ofInt_ends x.2).bind
  intro value _
  trivial

theorem pairStatistics_ends {h : Histogram ℤ} (hne : h.values ≠ []) :
    Ends (fun _ => True) (· = .overflowError) (pairStatistics h) := by
  have hlen : (h.values.length : ℤ) ≠ 0 := by exact_mod_cast length_ne_zero hne
  rw [pairStatistics, average_eq]
  apply (Binary64.truedivInt_ends _ hlen).bind
  intro avg _
  apply (varianceAround_ends hne (fun x _ s => addDeviation_ends avg s x) (Binary64.ofInt_ends _)).bind
  intro deviation _
  trivial

theorem title_ends (m : ℤ × ℤ) : Ends (fun _ => True) (· = .overflowError) (title m) := by
  apply (Binary64.truedivInt_ends m.1 (by norm_num : (1000 : ℤ) ≠ 0)).bind
  intro median _
  apply (Binary64.truedivInt_ends m.2 (by norm_num : (1000 : ℤ) ≠ 0)).bind
  intro procent99 _
  trivial

theorem statisticsStage_of_nonempty {c : Collected 4} (hne : ∀ th, (c.countDiffs th).values ≠ []) :
    Ends (fun _ => True) (· = .overflowError) (statisticsStage c) :=
  statisticsStage_ends (raising_ends _) (fun th => pairStatistics_ends (hne th))
    (fun _ => raising_ends _) (fun th => maxMin_ends (hne th))
    (fun _ => latencyBars_ends fun x _ => Binary64.truedivInt_ends x.1 one_ne_zero)
    (fun m _ => title_ends m)

/-- Without a difference for some pair an error is raised, by the average of a
pair without differences or earlier. -/
theorem statisticsStage_of_empty {c : Collected 4} {th : Fin 4} (he : (c.countDiffs th).values = []) :
    statisticsStage c = .error .zeroDivisionError ∨ statisticsStage c = .error .overflowError := by
  rw [statisticsStage]
  cases halved c.logsZeroed with
  | none => exact .inr rfl
  | some logsZeroed =>
      obtain ⟨th', _, e, hth', hmap⟩ := mapM_error (List.mem_finRange th)
        (f := fun th => pairStatistics (c.countDiffs th)) (pairStatistics_of_empty he)
      have hstage : e = .zeroDivisionError ∨ e = .overflowError := by
        by_cases hne : (c.countDiffs th').values = []
        · left
          rw [pairStatistics_of_empty hne] at hth'
          exact (Except.error.inj hth').symm
        · right
          exact (pairStatistics_ends hne).error hth'
      simp only [hmap, raising, bind, Except.bind, Except.error.injEq]
      exact hstage

theorem values_ne_nil {its : List Iteration} (th : Fin 4) :
    ((collect suitePairs its).countDiffs th).values ≠ [] ↔
      ∃ it ∈ its, ∃ i, it.logs (suitePairs th).1 i ≠ 0 ∧ it.logs (suitePairs th).2 i ≠ 0 := by
  have hperm := values_countDiffs suitePairs its th
  constructor
  · intro hne
    obtain ⟨d, hd⟩ := List.exists_mem_of_ne_nil _ hne
    obtain ⟨it, hit, i, ha, hb, -⟩ := mem_rawDiffs.mp (hperm.mem_iff.mp hd)
    exact ⟨it, hit, i, ha, hb⟩
  · rintro ⟨it, hit, i, ha, hb⟩
    exact List.ne_nil_of_mem (hperm.mem_iff.mpr (mem_rawDiffs.mpr ⟨it, hit, i, ha, hb, rfl⟩))

theorem safe_iff_or (its : List Iteration) :
    Safe its ↔ Measured its ∨ statisticsStage (collect suitePairs its) = .error .overflowError := by
  constructor
  · intro hsafe
    by_cases hm : Measured its
    · exact .inl hm
    · right
      obtain ⟨th, hth⟩ := not_forall.mp hm
      have hempty := not_not.mp ((values_ne_nil th).not.mpr hth)
      exact (statisticsStage_of_empty hempty).resolve_left hsafe.1
  · rintro (hm | hover)
    · have hends := statisticsStage_of_nonempty (fun th => (values_ne_nil th).mpr (hm th))
      constructor
      · intro he
        cases hends.error he
      · intro he
        cases hends.error he
    · rw [Safe, hover]
      exact ⟨by simp, by simp⟩

/-- The stage reports just when it neither fails for want of a difference nor overflows. -/
theorem completes_iff (its : List Iteration) :
    (∃ r, statisticsStage (collect suitePairs its) = .ok r) ↔
      Measured its ∧ statisticsStage (collect suitePairs its) ≠ .error .overflowError := by
  constructor
  · rintro ⟨r, hr⟩
    have hover : statisticsStage (collect suitePairs its) ≠ .error .overflowError := by
      rw [hr]
      exact fun he => by cases he
    have hsafe : Safe its := by
      rw [Safe, hr]
      constructor
      · intro he
        cases he
      · intro he
        cases he
    exact ⟨((safe_iff_or its).mp hsafe).resolve_right hover, hover⟩
  · rintro ⟨hm, hover⟩
    have hends := statisticsStage_of_nonempty (fun th => (values_ne_nil th).mpr (hm th))
    cases hstage : statisticsStage (collect suitePairs its) with
    | ok r => exact ⟨r, rfl⟩
    | error e => exact absurd (hends.error hstage ▸ hstage) hover

theorem halved_of_completes {c : Collected 4} {r : Report} (h : statisticsStage c = .ok r) :
    halved c.logsZeroed = some r.logsZeroed := by
  obtain ⟨logsZeroed, hz, h⟩ := ok_of_bind h
  obtain ⟨statistics, -, h⟩ := ok_of_bind h
  obtain ⟨medians, -, h⟩ := ok_of_bind h
  obtain ⟨ranges, -, h⟩ := ok_of_bind h
  obtain ⟨bars, -, h⟩ := ok_of_bind h
  obtain ⟨titles, -, h⟩ := ok_of_bind h
  have hr : logsZeroed = r.logsZeroed := congrArg Report.logsZeroed (Except.ok.inj h)
  rw [← hr]
  cases hhalved : halved c.logsZeroed with
  | none =>
      rw [hhalved] at hz
      cases hz
  | some z =>
      rw [hhalved] at hz
      exact congrArg some (Except.ok.inj hz)

structure Small (h : Histogram ℤ) : Prop where
  values_le : ∀ d ∈ h.values, |d| ≤ 2 ^ 64
  length_le : h.values.length ≤ 2 ^ 64

theorem Small.key_le {h : Histogram ℤ} (hs : Small h) {x : ℤ × ℕ} (hx : x ∈ h.items) : |x.1| ≤ 2 ^ 64 :=
  hs.values_le x.1 ((h.mem_values x.1).mpr (List.mem_map_of_mem hx))

theorem Small.count_le {h : Histogram ℤ} (hs : Small h) {x : ℤ × ℕ} (hx : x ∈ h.items) : x.2 ≤ 2 ^ 64 := by
  have hsum : x.2 ≤ h.nbrValues := List.single_le_sum (fun _ _ => Nat.zero_le _) _ (List.mem_map_of_mem hx)
  rw [← h.length_values] at hsum
  exact hsum.trans hs.length_le

theorem Small.addDeviation_ends {h : Histogram ℤ} (hs : Small h) {avg : Binary64} (havg : avg.Within 66)
    {x : ℤ × ℕ} (hx : x ∈ h.items) (s : Binary64) :
    Ends (fun _ => True) (· ≠ .overflowError) (addDeviation binary64 avg s x) := by
  apply (Binary64.ofInt_within (by norm_num) (hs.key_le hx)).bind
  intro key hkey
  apply (Binary64.square_within (by norm_num) (Binary64.sub_within (by norm_num) hkey havg)).bind
  intro squared _
  have hcount : |(x.2 : ℤ)| ≤ 2 ^ 64 := by
    rw [Nat.abs_cast]
    exact_mod_cast hs.count_le hx
  apply (Binary64.ofInt_within (by norm_num) hcount).bind
  intro value _
  trivial

theorem Small.pairStatistics_ends {h : Histogram ℤ} (hs : Small h) :
    Ends (fun _ => True) (· ≠ .overflowError) (pairStatistics h) := by
  by_cases hne : h.values = []
  · rw [pairStatistics_of_empty hne]
    exact PythonError.noConfusion
  · have hlen : (h.values.length : ℤ) ≠ 0 := by exact_mod_cast length_ne_zero hne
    have hsum : |h.values.sum| ≤ 2 ^ 64 * |(h.values.length : ℤ)| := by
      rw [Nat.abs_cast]
      exact abs_sum_le hs.values_le
    have hnbr : |(h.nbrValues : ℤ)| ≤ 2 ^ 64 := by
      rw [Nat.abs_cast, ← h.length_values]
      exact_mod_cast hs.length_le
    rw [pairStatistics, average_eq]
    apply (Binary64.truedivInt_within (by norm_num) hlen hsum).bind
    intro avg havg
    have hcount : Ends (fun x => 1 ≤ (h.nbrValues : ℤ) → x ≠ .finite 0) (· ≠ .overflowError)
        (Binary64.ofInt h.nbrValues) :=
      ((Binary64.ofInt_ends h.nbrValues).and (Binary64.ofInt_within (E := fun _ => False) (by norm_num) hnbr)).mono
        (fun _ hx => hx.1) (fun _ he => he.2.elim)
    apply (varianceAround_ends hne (fun x hx s => hs.addDeviation_ends havg hx s) hcount).bind
    intro deviation _
    trivial

theorem intDiv_isSome {n m : ℕ} (hn : n ≤ 2 ^ 80) (hm : 0 < m) : ∃ k, intDiv n m = some k := by
  have hends : Ends (Binary64.Within 82) (fun _ => False) (Binary64.truedivInt n m) := by
    apply Binary64.truedivInt_within (by norm_num) (by omega)
    rw [Nat.abs_cast, Nat.abs_cast]
    exact_mod_cast hn.trans (Nat.le_mul_of_pos_right _ hm)
  rw [Binary64.truedivInt, if_neg (by omega)] at hends
  cases hdiv : truediv n m with
  | none => simp [hdiv, Ends] at hends
  | some q => exact ⟨_, by rw [intDiv, hdiv, Option.map_some]⟩

theorem medianLoop_mem (get : ℤ → ℕ) (m t : ℕ) (keys : List ℤ) (current : ℕ) (median : ℤ) :
    (medianLoop get m t keys current median).1 ∈ median :: keys ∧
      (medianLoop get m t keys current median).2 ∈ 0 :: keys := by
  induction keys generalizing current median with
  | nil => simp [medianLoop]
  | cons key keys ih =>
      let median' := if median = 0 ∧ m ≤ current + get key then key else median
      have hin : median' ∈ median :: key :: keys := by
        rcases ite_eq_or_eq (median = 0 ∧ m ≤ current + get key) key median with h | h <;> simp [median', h]
      have hloop : medianLoop get m t (key :: keys) current median =
          if t ≤ current + get key then (median', key) else medianLoop get m t keys (current + get key) median' := rfl
      rw [hloop]
      split
      next => exact ⟨hin, by simp⟩
      next =>
        obtain ⟨hmedian, hprocent⟩ := ih (current + get key) median'
        constructor
        · rcases List.mem_cons.mp hmedian with he | hmem
          · rwa [he]
          · simp [hmem]
        · rcases List.mem_cons.mp hprocent with he | hmem
          · simp [he]
          · simp [hmem]

theorem Small.medians_ends {h : Histogram ℤ} (hs : Small h) :
    Ends (fun m => |m.1| ≤ 2 ^ 64 ∧ |m.2| ≤ 2 ^ 64) (· ≠ .overflowError) (raising (medianAnd99 h)) := by
  have hnbr : h.nbrValues ≤ 2 ^ 64 := by
    rw [← h.length_values]
    exact hs.length_le
  obtain ⟨middle, hmiddle⟩ := intDiv_isSome (n := h.nbrValues) (m := 2) (by omega) (by norm_num)
  obtain ⟨ninenine, hninenine⟩ := intDiv_isSome (n := h.nbrValues * 99) (m := 100) (by omega) (by norm_num)
  have hkey {k : ℤ} (hk : k ∈ 0 :: h.sortedKeys) : |k| ≤ 2 ^ 64 := by
    rcases List.mem_cons.mp hk with rfl | hk
    · norm_num
    · exact hs.values_le k ((h.mem_values k).mpr ((h.mem_sortedKeys k).mp hk))
  have hmem := medianLoop_mem (fun key => (h.get key).getD 0) middle ninenine h.sortedKeys 0 0
  rw [medianAnd99, hmiddle, hninenine]
  exact ⟨hkey hmem.1, hkey hmem.2⟩

theorem title_ends_small {m : ℤ × ℤ} (hm : |m.1| ≤ 2 ^ 64 ∧ |m.2| ≤ 2 ^ 64) :
    Ends (fun _ => True) (· ≠ .overflowError) (title m) := by
  have hbound {n : ℤ} (hn : |n| ≤ 2 ^ 64) : |n| ≤ 2 ^ 64 * |(1000 : ℤ)| := by
    rw [abs_of_pos (by norm_num : (0 : ℤ) < 1000)]
    linarith
  apply (Binary64.truedivInt_within (by norm_num) (by norm_num) (hbound hm.1)).bind
  intro median _
  apply (Binary64.truedivInt_within (by norm_num) (by norm_num) (hbound hm.2)).bind
  intro procent99 _
  trivial

theorem Small.latencyBars_ends {h : Histogram ℤ} (hs : Small h) :
    Ends (fun _ => True) (· ≠ .overflowError) (latencyBars h) := by
  apply StatisticsStage.latencyBars_ends
  intro x hx
  have hkey : |x.1| ≤ 2 ^ 64 * |toUsec| := by
    rw [toUsec, abs_one, mul_one]
    exact hs.key_le hx
  apply (Binary64.truedivInt_within (by norm_num) one_ne_zero hkey).mono
  · rintro y ⟨q, hy, -⟩
    exact ⟨q, hy⟩
  · exact fun e he => he

theorem Small.maxMin_ends (h : Histogram ℤ) : Ends (fun _ => True) (· ≠ .overflowError) (maxMin h) := by
  rw [maxMin]
  split
  · trivial
  · exact PythonError.noConfusion

theorem length_rawDiffs_le (pair : Fin 6 × Fin 6) (its : List Iteration) :
    (rawDiffs pair its).length ≤ positions its := by
  induction its with
  | nil => rfl
  | cons it its ih =>
      have hit : (iterationDiffs pair it).length ≤ it.len := by
        calc (iterationDiffs pair it).length
            = ((List.finRange it.len).map fun i => (diffAt pair it i).toList.length).sum :=
              List.length_flatMap
          _ ≤ ((List.finRange it.len).map fun _ => 1).sum := by
              apply List.sum_le_sum
              intro i _
              cases diffAt pair it i <;> simp
          _ = it.len := by simp
      rw [rawDiffs, List.flatMap_cons, List.length_append, positions, List.map_cons, List.sum_cons]
      exact Nat.add_le_add hit ih

theorem Recorded.small {its : List Iteration} (hr : Recorded its) (th : Fin 4) :
    Small ((collect suitePairs its).countDiffs th) := by
  have hperm := values_countDiffs suitePairs its th
  constructor
  · intro d hd
    obtain ⟨it, hit, i, -, -, rfl⟩ := mem_rawDiffs.mp (hperm.mem_iff.mp hd)
    obtain ⟨ha, ha'⟩ := hr.entries it hit (suitePairs th).1 i
    obtain ⟨hb, hb'⟩ := hr.entries it hit (suitePairs th).2 i
    rw [abs_le]
    omega
  · rw [hperm.length_eq]
    exact (length_rawDiffs_le _ its).trans hr.positions.le

theorem Recorded.halved {its : List Iteration} (hr : Recorded its) :
    Ends (fun _ => True) (· ≠ .overflowError) (raising (halved (collect suitePairs its).logsZeroed)) := by
  have hplaces : ∀ log, placesOf suitePairs log ≤ 2 := by decide
  have hsome (log : Fin 6) : ∃ k, intDiv ((collect suitePairs its).logsZeroed log) 2 = some k := by
    apply intDiv_isSome ?_ (by norm_num)
    have hzeros := zeros_le_positions its log
    have hmul := Nat.mul_le_mul (hplaces log) (hzeros.trans hr.positions.le)
    rw [collect_logsZeroed]
    omega
  choose y hy using hsome
  rw [(halved_eq_some_iff _ y).mpr hy]
  trivial

theorem Recorded.no_overflow {its : List Iteration} (hr : Recorded its) :
    statisticsStage (collect suitePairs its) ≠ .error .overflowError := by
  have hends : Ends (fun _ => True) (· ≠ .overflowError) (statisticsStage (collect suitePairs its)) :=
    statisticsStage_ends hr.halved (fun th => (hr.small th).pairStatistics_ends)
      (fun th => (hr.small th).medians_ends) (fun th => Small.maxMin_ends _)
      (fun th => (hr.small th).latencyBars_ends) (fun m hm => title_ends_small hm)
  intro he
  exact hends.error he rfl

/-- For logs as the programs write them, the stages run through exactly when
every pair has a packet that both of its points saw; for larger integers an
OverflowError can come first. -/
theorem safe_iff (its : List Iteration) :
    (Safe its ↔ Measured its ∨ statisticsStage (collect suitePairs its) = .error .overflowError) ∧
      (Recorded its → (Safe its ↔ Measured its)) := by
  refine ⟨safe_iff_or its, ?_⟩
  intro hr
  rw [safe_iff_or, or_iff_left hr.no_overflow]

def onePacket (lost : Option (Fin 6)) : Iteration := ⟨1, fun log _ => if some log = lost then 0 else 1⟩

theorem positions_onePacket (losts : List (Option (Fin 6))) :
    positions (losts.map onePacket) = losts.length := by
  simp [positions, onePacket, Function.comp_def]

theorem recorded_onePacket (losts : List (Option (Fin 6))) (h : losts.length < 2 ^ 64) :
    Recorded (losts.map onePacket) := by
  constructor
  · intro it hit
    obtain ⟨lost, -, rfl⟩ := List.mem_map.mp hit
    intro log i
    simp only [onePacket]
    split <;> norm_num
  · rwa [positions_onePacket]

def twoLosses : List Iteration := [some upLog, some ebpfLog].map onePacket

/-- In each of the two iterations some pairs have no packet that both points saw, in
the two together every pair has one. -/
theorem twoLosses_safe : Recorded twoLosses ∧ Safe twoLosses := by
  have hrec : Recorded twoLosses := recorded_onePacket _ (by decide)
  have hmeasured : Measured twoLosses := by
    intro th
    by_cases hth : th.val = 0 ∨ th.val = 1
    · refine ⟨onePacket (some ebpfLog), by simp [twoLosses], ⟨0, Nat.one_pos⟩, ?_⟩
      revert th
      decide
    · refine ⟨onePacket (some upLog), by simp [twoLosses], ⟨0, Nat.one_pos⟩, ?_⟩
      revert th
      decide
  exact ⟨hrec, ((safe_iff twoLosses).2 hrec).mpr hmeasured⟩

/-- Every entry of up_log is 0. -/
theorem upLog_lost_not_safe : Recorded [onePacket (some upLog)] ∧ ¬ Safe [onePacket (some upLog)] := by
  have hrec : Recorded [onePacket (some upLog)] := recorded_onePacket [some upLog] (by decide)
  refine ⟨hrec, ?_⟩
  intro hsafe
  have hempty : ((collect suitePairs [onePacket (some upLog)]).countDiffs ⟨0, by norm_num⟩).values = [] := by
    decide
  rcases statisticsStage_of_empty hempty with he | he
  · exact hsafe.1 he
  · exact hrec.no_overflow he

end PacketIntercept.StatisticsStage
