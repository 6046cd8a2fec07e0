import Mathlib.Data.Fintype.Basic
import Mathlib.Tactic.FinCases
import PacketIntercept.DiffCollection
import PacketIntercept.TrueDivision

namespace PacketIntercept.ZeroCounts

open DiffCollection TrueDivision

def logsLabel : Fin 6 → String :=
  ![ "km_log", "up_log", "km_s_log", "ebpf_log", "usebpf_log", "ebpf_s_log"]

/-- list(map(lambda v: int(v/2), logs_zeroed)); none is an OverflowError. -/
def halved (logsZeroed : Fin 6 → ℕ) : Option (Fin 6 → ℕ) :=
  if h : ∀ log, (intDiv (logsZeroed log) 2).isSome then
    some fun log => (intDiv (logsZeroed log) 2).get (h log)
  else none

def printed (n : ℕ) (logsZeroed : Fin 6 → ℕ) : List (String × ℕ) :=
  (((List.finRange 6).take n).filter fun log => logsZeroed log ≠ 0).map fun log =>
    (logsLabel log, logsZeroed log)

/-- The lines under "Zeroed: ". The loop's range is len(diffs_label), which
in every script is the number of pairs. -/
def zeroedReport {p : ℕ} (toSubtract : Fin p → Fin 6 × Fin 6) (its : List Iteration) :
    Option (List (String × ℕ)) :=
  (halved (collect toSubtract its).logsZeroed).map (printed p)

/-- The report has each log that has a zero, with the number of its zeros. -/
def ReportsZeros {p : ℕ} (toSubtract : Fin p → Fin 6 × Fin 6) (its : List Iteration) : Prop :=
  zeroedReport toSubtract its = some (printed 6 (zeros its))

theorem halved_eq_some_iff (z y : Fin 6 → ℕ) :
    halved z = some y ↔ ∀ log, intDiv (z log) 2 = some (y log) := by
  rw [halved]
  constructor
  · intro h log
    split at h
    · rw [← Option.some.inj h, Option.some_get]
    · exact absurd h (by simp)
  · intro h
    have hsome : ∀ log, (intDiv (z log) 2).isSome := by
      intro log
      rw [h log]
      rfl
    rw [dif_pos hsome]
    congr 1
    funext log
    apply Option.some.inj
    rw [Option.some_get, h log]

def positions (its : List Iteration) : ℕ := (its.map Iteration.len).sum

theorem zeros_le_positions (its : List Iteration) (log : Fin 6) : zeros its log ≤ positions its := by
  induction its with
  | nil => rfl
  | cons it its ih =>
      have hit : it.zeros log ≤ it.len := by
        calc it.zeros log ≤ (List.finRange it.len).length := List.countP_le_length
          _ = it.len := List.length_finRange
      simp only [zeros, positions, List.map_cons, List.sum_cons] at ih ⊢
      omega

theorem logsLabel_injective : Function.Injective logsLabel := by
  decide

theorem val_lt_of_mem_take {n : ℕ} {log : Fin 6} (h : log ∈ (List.finRange 6).take n) : log.val < n := by
  obtain ⟨i, hi, rfl⟩ := List.mem_take_iff_getElem.mp h
  rw [List.getElem_finRange]
  exact lt_of_lt_of_le hi (min_le_left n _)

theorem le_val_of_mem_drop {n : ℕ} {log : Fin 6} (h : log ∈ (List.finRange 6).drop n) : n ≤ log.val := by
  obtain ⟨i, hi, rfl⟩ := List.mem_drop_iff_getElem.mp h
  rw [List.getElem_finRange]
  exact Nat.le_add_right n i

theorem mem_take_finRange (n : ℕ) (log : Fin 6) : log ∈ (List.finRange 6).take n ↔ log.val < n := by
  constructor
  · exact val_lt_of_mem_take
  · intro h
    have hmem : log ∈ (List.finRange 6).take n ++ (List.finRange 6).drop n := by
      rw [List.take_append_drop]
      exact List.mem_finRange log
    rcases List.mem_append.mp hmem with hmem | hmem
    · exact hmem
    · exact absurd (le_val_of_mem_drop hmem) (not_le_of_gt h)

theorem mem_printed (n : ℕ) (z : Fin 6 → ℕ) (log : Fin 6) (v : ℕ) :
    (logsLabel log, v) ∈ printed n z ↔ log.val < n ∧ z log = v ∧ v ≠ 0 := by
  simp only [printed, List.mem_map, List.mem_filter, mem_take_finRange, Prod.mk.injEq,
    logsLabel_injective.eq_iff, decide_eq_true_eq]
  constructor
  · rintro ⟨l, ⟨hl, hz⟩, rfl, rfl⟩
    exact ⟨hl, rfl, hz⟩
  · rintro ⟨hl, rfl, hz⟩
    exact ⟨log, ⟨hl, hz⟩, rfl, rfl⟩

theorem printed_of_hidden {n : ℕ} {y z : Fin 6 → ℕ} (hshown : ∀ log : Fin 6, log.val < n → z log = y log)
    (hhidden : ∀ log : Fin 6, n ≤ log.val → z log = 0) : printed n y = printed 6 z := by
  have hfull : (List.finRange 6).take 6 = (List.finRange 6).take n ++ (List.finRange 6).drop n := by
    rw [List.take_append_drop]
    rfl
  have hrest : ((List.finRange 6).drop n).filter (fun log => decide (z log ≠ 0)) = [] := by
    apply List.filter_eq_nil_iff.mpr
    intro log hlog
    simp [hhidden log (le_val_of_mem_drop hlog)]
  have hfirst : ((List.finRange 6).take n).filter (fun log => decide (z log ≠ 0)) =
      ((List.finRange 6).take n).filter fun log => decide (y log ≠ 0) := by
    apply List.filter_congr
    intro log hlog
    rw [hshown log (val_lt_of_mem_take hlog)]
  rw [printed, printed, hfull, List.filter_append, hrest, List.append_nil, hfirst]
  apply List.map_congr_left
  intro log hlog
  rw [hshown log (val_lt_of_mem_take (List.mem_of_mem_filter hlog))]

/-- A report of the first n logs is the full report of z when it has z's
counts and z has no zero behind them. -/
theorem printed_eq_iff (n : ℕ) (y z : Fin 6 → ℕ) :
    printed n y = printed 6 z ↔ ∀ log : Fin 6, z log = if log.val < n then y log else 0 := by
  constructor
  · intro h log
    have hmem (v : ℕ) : log.val < n ∧ y log = v ∧ v ≠ 0 ↔ z log = v ∧ v ≠ 0 := by
      rw [← mem_printed, h, mem_printed]
      simp [log.isLt]
    by_cases hz : z log = 0
    · rw [hz]
      by_contra hne
      by_cases hl : log.val < n
      · rw [if_pos hl] at hne
        exact hne (((hmem (y log)).mp ⟨hl, rfl, Ne.symm hne⟩).1 ▸ hz.symm)
      · exact hne (if_neg hl).symm
    · obtain ⟨hl, hy, -⟩ := (hmem (z log)).mpr ⟨rfl, hz⟩
      rw [if_pos hl, hy]
  · intro h
    apply printed_of_hidden
    · intro log hlog
      rw [h, if_pos hlog]
    · intro log hlog
      rw [h, if_neg (not_lt_of_ge hlog)]

theorem placesOf_suite : ∀ log, placesOf suitePairs log = ![2, 1, 1, 2, 1, 1] log := by
  decide

theorem placesOf_improved : ∀ log, placesOf improvedPairs log = 2 := by
  decide

/-- The report is exact just when halving gives back the zeros of every log
the loop prints and the other logs have none. -/
theorem reportsZeros_iff {p : ℕ} (toSubtract : Fin p → Fin 6 × Fin 6) (its : List Iteration) :
    ReportsZeros toSubtract its ↔
      ∃ y : Fin 6 → ℕ, ∀ log, intDiv (placesOf toSubtract log * zeros its log) 2 = some (y log) ∧
        zeros its log = if log.val < p then y log else 0 := by
  have hhalved (y : Fin 6 → ℕ) : halved (collect toSubtract its).logsZeroed = some y ↔
      ∀ log, intDiv (placesOf toSubtract log * zeros its log) 2 = some (y log) := by
    rw [halved_eq_some_iff]
    simp only [collect_logsZeroed]
  rw [ReportsZeros, zeroedReport, Option.map_eq_some_iff]
  constructor
  · rintro ⟨y, hy, hp⟩
    exact ⟨y, fun log => ⟨(hhalved y).mp hy log, (printed_eq_iff p y _).mp hp log⟩⟩
  · rintro ⟨y, hy⟩
    exact ⟨y, (hhalved y).mpr fun log => (hy log).1, (printed_eq_iff p y _).mpr fun log => (hy log).2⟩

theorem half_eq_self_iff (n : ℕ) : intDiv n 2 = some n ↔ n = 0 := by
  constructor
  · intro h
    by_contra hn
    exact absurd (intDiv_half_lt (Nat.pos_of_ne_zero hn) h) (lt_irrefl n)
  · rintro rfl
    exact intDiv_of_lt (by norm_num) (by norm_num) (by norm_num)

theorem suite_reportsZeros_iff (its : List Iteration) :
    ReportsZeros suitePairs its ↔
      (zeros its upLog = 0 ∧ zeros its kmSLog = 0 ∧ zeros its usebpfLog = 0 ∧ zeros its ebpfSLog = 0) ∧
        Representable (zeros its kmLog) ∧ Representable (zeros its ebpfLog) := by
  have hdouble (n : ℕ) : intDiv (2 * n) 2 = some n ↔ Representable n := intDiv_double_iff n
  have hsingle (n : ℕ) : intDiv (1 * n) 2 = some n ↔ n = 0 := by rw [Nat.one_mul, half_eq_self_iff]
  rw [reportsZeros_iff]
  simp only [placesOf_suite]
  constructor
  · rintro ⟨y, hy⟩
    have hprinted (log : Fin 6) (hlog : log.val < 4) : zeros its log = y log := by
      rw [(hy log).2, if_pos hlog]
    have hhidden (log : Fin 6) (hlog : ¬ log.val < 4) : zeros its log = 0 := by
      rw [(hy log).2, if_neg hlog]
    refine ⟨⟨(hsingle _).mp ?_, (hsingle _).mp ?_, hhidden usebpfLog (by decide), hhidden ebpfSLog (by decide)⟩,
      (hdouble _).mp ?_, (hdouble _).mp ?_⟩
    · exact (hy upLog).1.trans (congrArg some (hprinted upLog (by decide)).symm)
    · exact (hy kmSLog).1.trans (congrArg some (hprinted kmSLog (by decide)).symm)
    · exact (hy kmLog).1.trans (congrArg some (hprinted kmLog (by decide)).symm)
    · exact (hy ebpfLog).1.trans (congrArg some (hprinted ebpfLog (by decide)).symm)
  · rintro ⟨⟨h1, h2, h4, h5⟩, h0, h3⟩
    refine ⟨zeros its, ?_⟩
    intro log
    fin_cases log
    · exact ⟨(hdouble _).mpr h0, rfl⟩
    · exact ⟨(hsingle _).mpr h1, rfl⟩
    · exact ⟨(hsingle _).mpr h2, rfl⟩
    · exact ⟨(hdouble _).mpr h3, rfl⟩
    · exact ⟨(hsingle _).mpr h4, h4⟩
    · exact ⟨(hsingle _).mpr h5, h5⟩

theorem improved_reportsZeros_iff (its : List Iteration) :
    ReportsZeros improvedPairs its ↔ ∀ log, Representable (zeros its log) := by
  rw [reportsZeros_iff]
  simp only [placesOf_improved, Fin.is_lt, if_true, ← intDiv_double_iff]
  constructor
  · rintro ⟨y, hy⟩ log
    rw [(hy log).1, (hy log).2]
  · intro h
    exact ⟨zeros its, fun log => ⟨h log, rfl⟩⟩

/-- The suite scripts halve what they counted once for four of the logs, and
do not print the last two; check_improved_plot.py counts each log twice. -/
theorem zeroed_report_iff (its : List Iteration) (it : Iteration) :
    (ReportsZeros suitePairs its ↔
      (zeros its upLog = 0 ∧ zeros its kmSLog = 0 ∧ zeros its usebpfLog = 0 ∧ zeros its ebpfSLog = 0) ∧
        Representable (zeros its kmLog) ∧ Representable (zeros its ebpfLog)) ∧
    (ReportsZeros improvedPairs [it] ↔ ∀ log, Representable (zeros [it] log)) :=
  ⟨suite_reportsZeros_iff its, improved_reportsZeros_iff [it]⟩

theorem lost_packet_not_reported :
    ¬ ReportsZeros suitePairs [⟨1, fun log _ => if log = upLog then 0 else 5⟩] := by
  rw [suite_reportsZeros_iff]
  rintro ⟨⟨h1, -⟩, -⟩
  exact absurd h1 (by decide)

end PacketIntercept.ZeroCounts
