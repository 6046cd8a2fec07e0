import PacketIntercept.DiffStatistics

namespace PacketIntercept.CombinedAnalysis

open DiffCollection DiffStatistics FloatArithmetic Histograms HistogramStatistics MedianLoop Runs

abbrev Name := List Char

/-- dir.split("#")[0]. -/
def caseOf (dir : Name) : Name := dir.takeWhile (· != '#')

def nonstress : Name := ['n', 'o', 'n', 's', 't', 'r', 'e', 's', 's']

inductive Condition
  | systemStress
  | nonStress
deriving DecidableEq

def Condition.Has : Condition → Name → Prop
  | .systemStress, case => ¬ nonstress <:+: case
  | .nonStress, case => nonstress <:+: case

instance (c : Condition) (case : Name) : Decidable (c.Has case) :=
  match c with
  | .systemStress => inferInstanceAs (Decidable (¬ nonstress <:+: case))
  | .nonStress => inferInstanceAs (Decidable (nonstress <:+: case))

def addCase (cases : List Name) (case : Name) : List Name :=
  if case ∈ cases then cases else cases ++ [case]

def testCases (listing : List Name) : List Name :=
  run (fun cases dir => addCase cases (caseOf dir)) [] listing

def conditionCases (c : Condition) (listing : List Name) : List Name :=
  run (fun cases dir => if c.Has (caseOf dir) then addCase cases (caseOf dir) else cases) [] listing

abbrev Suite := Name → Fin 5 → Iteration

def caseIterations (suite : Suite) (case : Name) : List Iteration := (List.finRange 5).map (suite case)

/-- What ps_combi_2_stress_non.py collects: it starts afresh with every case. -/
def perCase (suite : Suite) (case : Name) : Collected 4 :=
  collect suitePairs (caseIterations suite case)

/-- What process_suit_combi_4.py collects: it starts afresh with every condition. -/
def combined (suite : Suite) (c : Condition) (listing : List Name) : Collected 4 :=
  run (fun counters case => run (collectIteration suitePairs) counters (caseIterations suite case))
    Collected.start (conditionCases c listing)

structure SumOf (c : Collected 4) (parts : List (Collected 4)) : Prop where
  countDiffs : ∀ th d, ((c.countDiffs th).get d).getD 0 =
    (parts.map fun x => ((x.countDiffs th).get d).getD 0).sum
  keys : ∀ th d, d ∈ (c.countDiffs th).keys ↔ ∃ x ∈ parts, d ∈ (x.countDiffs th).keys
  diffsNeg : ∀ th, c.diffsNeg th = (parts.map fun x => x.diffsNeg th).sum
  logsZeroed : ∀ log, c.logsZeroed log = (parts.map fun x => x.logsZeroed log).sum

/-- The combined analysis against the analysis of the single cases, when
os.listdir gives listing to one script and listings c to the other. -/
structure Combines (suite : Suite) (listing : List Name) (listings : Condition → List Name) : Prop where
  counted_once : (testCases listing).Nodup
  counted : ∀ case, case ∈ testCases listing ↔ ∃ dir ∈ listing, caseOf dir = case
  one_condition : ∀ case ∈ testCases listing, ∃! c, case ∈ conditionCases c (listings c)
  sums : ∀ c, SumOf (combined suite c (listings c))
    (((testCases listing).filter fun case => c.Has case).map (perCase suite))

/-- Two histograms have the same statistics; the variance is taken without rounding. -/
structure SameStatistics (h h' : Histogram ℤ) : Prop where
  average_eq : average binary64 h = average binary64 h'
  variance_eq : variance exact h = variance exact h'
  median_eq : medianAnd99 h = medianAnd99 h'

theorem mem_addCase {cases : List Name} {case case' : Name} :
    case' ∈ addCase cases case ↔ case' ∈ cases ∨ case' = case := by
  rw [addCase]
  split
  next h =>
    constructor
    · exact .inl
    · rintro (h' | rfl)
      · exact h'
      · exact h
  next => simp

theorem addCase_nodup {cases : List Name} (h : cases.Nodup) (case : Name) :
    (addCase cases case).Nodup := by
  rw [addCase]
  split
  next => exact h
  next hnot =>
    rw [List.nodup_append_comm]
    exact List.nodup_cons.mpr ⟨hnot, h⟩

theorem testCases_nodup (listing : List Name) : (testCases listing).Nodup :=
  run_invariant List.nodup_nil (fun _ _ h => addCase_nodup h _) listing

theorem mem_testCases {listing : List Name} {case : Name} :
    case ∈ testCases listing ↔ ∃ dir ∈ listing, caseOf dir = case := by
  induction listing using List.reverseRecOn with
  | nil => simp [testCases]
  | append_singleton listing dir ih =>
      rw [testCases, run_snoc, mem_addCase, ← testCases, ih]
      simp [or_and_right, exists_or, eq_comm]

theorem filter_addCase (cases : List Name) (case : Name) (q : Name → Prop) [DecidablePred q] :
    (addCase cases case).filter (fun x => q x) =
      if q case then addCase (cases.filter fun x => q x) case else cases.filter fun x => q x := by
  by_cases hmem : case ∈ cases <;> by_cases hq : q case <;> simp [addCase, hmem, hq]

theorem conditionCases_eq (c : Condition) (listing : List Name) :
    conditionCases c listing = (testCases listing).filter fun case => c.Has case := by
  induction listing using List.reverseRecOn with
  | nil => rfl
  | append_singleton listing dir ih =>
      have hsnoc : testCases (listing ++ [dir]) = addCase (testCases listing) (caseOf dir) := run_snoc _ _ _ _
      rw [hsnoc, filter_addCase, ← ih]
      exact run_snoc _ _ _ _

theorem combined_eq (suite : Suite) (c : Condition) (listing : List Name) :
    combined suite c listing =
      collect suitePairs ((conditionCases c listing).flatMap (caseIterations suite)) :=
  run_refines id (fun _ _ => rfl) _ _

theorem values_perCase (suite : Suite) (case : Name) (th : Fin 4) :
    ((perCase suite case).countDiffs th).values.Perm
      (rawDiffs (suitePairs th) (caseIterations suite case)) :=
  values_countDiffs suitePairs _ th

theorem rawDiffs_flatMap (suite : Suite) (pair : Fin 6 × Fin 6) (cases : List Name) :
    rawDiffs pair (cases.flatMap (caseIterations suite)) =
      cases.flatMap fun case => rawDiffs pair (caseIterations suite case) :=
  List.flatMap_assoc

theorem zeros_flatMap (suite : Suite) (log : Fin 6) (cases : List Name) :
    zeros (cases.flatMap (caseIterations suite)) log =
      (cases.map fun case => zeros (caseIterations suite case) log).sum := by
  rw [zeros, List.map_flatMap]
  induction cases with
  | nil => rfl
  | cons case cases ih => rw [List.flatMap_cons, List.sum_append, ih, List.map_cons, List.sum_cons, zeros]

theorem sum_perCase (suite : Suite) (cases : List Name) {f : Name → ℕ} {g : Collected 4 → ℕ}
    (h : ∀ case, f case = g (perCase suite case)) :
    (cases.map f).sum = ((cases.map (perCase suite)).map g).sum := by
  rw [List.map_map]
  congr 1
  exact List.map_congr_left fun case _ => h case

theorem collect_flatMap (suite : Suite) (cases : List Name) :
    SumOf (collect suitePairs (cases.flatMap (caseIterations suite))) (cases.map (perCase suite)) := by
  constructor
  · intro th d
    rw [← Histogram.count_values, (values_countDiffs suitePairs _ th).count_eq, rawDiffs_flatMap,
      List.count_flatMap]
    apply sum_perCase
    intro case
    rw [← Histogram.count_values, (values_perCase suite case th).count_eq, Function.comp_apply]
  · intro th d
    rw [← Histogram.mem_values, (values_countDiffs suitePairs _ th).mem_iff, rawDiffs_flatMap,
      List.mem_flatMap]
    constructor
    · rintro ⟨case, hcase, hd⟩
      refine ⟨perCase suite case, List.mem_map_of_mem hcase, ?_⟩
      rwa [← Histogram.mem_values, (values_perCase suite case th).mem_iff]
    · rintro ⟨x, hx, hd⟩
      obtain ⟨case, hcase, rfl⟩ := List.mem_map.mp hx
      refine ⟨case, hcase, ?_⟩
      rwa [← Histogram.mem_values, (values_perCase suite case th).mem_iff] at hd
  · intro th
    rw [diffsNeg_collect, rawDiffs_flatMap, List.countP_flatMap]
    apply sum_perCase
    intro case
    rw [perCase, diffsNeg_collect, Function.comp_apply]
  · intro log
    rw [collect_logsZeroed, zeros_flatMap, ← List.sum_map_mul_left]
    apply sum_perCase
    intro case
    rw [perCase, collect_logsZeroed]

theorem sameStatistics_of_perm {h h' : Histogram ℤ} (hv : h.values.Perm h'.values) :
    SameStatistics h h' := by
  constructor
  · rw [average_eq, average_eq, hv.sum_eq, hv.length_eq]
  · exact variance_exact_congr hv
  · exact medianAnd99_congr hv

theorem testCases_perm {listing listing' : List Name} (h : listing.Perm listing') :
    (testCases listing).Perm (testCases listing') := by
  apply (List.perm_ext_iff_of_nodup (testCases_nodup _) (testCases_nodup _)).mpr
  intro case
  rw [mem_testCases, mem_testCases]
  simp only [h.mem_iff]

theorem conditionCases_perm (c : Condition) {listing listing' : List Name} (h : listing.Perm listing') :
    (conditionCases c listing).Perm (conditionCases c listing') := by
  rw [conditionCases_eq, conditionCases_eq]
  exact (testCases_perm h).filter _

theorem values_combined_perm (suite : Suite) (c : Condition) {listing listing' : List Name}
    (h : listing.Perm listing') (th : Fin 4) :
    ((combined suite c listing).countDiffs th).values.Perm
      ((combined suite c listing').countDiffs th).values := by
  have hraw (l : List Name) : ((combined suite c l).countDiffs th).values.Perm
      ((conditionCases c l).flatMap fun case => rawDiffs (suitePairs th) (caseIterations suite case)) := by
    rw [combined_eq, ← rawDiffs_flatMap]
    exact values_countDiffs suitePairs _ th
  exact (hraw listing).trans (((conditionCases_perm c h).flatMap_right _).trans (hraw listing').symm)

theorem sumOf_perm {c : Collected 4} {parts parts' : List (Collected 4)} (hp : parts.Perm parts')
    (h : SumOf c parts) : SumOf c parts' := by
  constructor
  · intro th d
    rw [h.countDiffs, (hp.map _).sum_eq]
  · intro th d
    rw [h.keys]
    simp only [hp.mem_iff]
  · intro th
    rw [h.diffsNeg, (hp.map _).sum_eq]
  · intro log
    rw [h.logsZeroed, (hp.map _).sum_eq]

theorem one_condition_of_mem {listing : List Name} {listings : Condition → List Name}
    (h : ∀ c, listing.Perm (listings c)) {case : Name} (hcase : case ∈ testCases listing) :
    ∃! c, case ∈ conditionCases c (listings c) := by
  have hmem (c : Condition) : case ∈ conditionCases c (listings c) ↔ c.Has case := by
    rw [conditionCases_eq, List.mem_filter, decide_eq_true_eq, ← (testCases_perm (h c)).mem_iff]
    exact and_iff_right hcase
  simp only [hmem]
  by_cases hn : nonstress <:+: case
  · refine ⟨.nonStress, hn, ?_⟩
    rintro (_ | _) hc
    · exact absurd hn hc
    · rfl
  · refine ⟨.systemStress, hn, ?_⟩
    rintro (_ | _) hc
    · rfl
    · exact absurd hc hn

/-- The combined analysis is the sum of the analyses of the cases of its
condition, and the order of the directories does not show in its statistics. -/
theorem combines_of_perm (suite : Suite) (listing : List Name) (listings listings' : Condition → List Name)
    (h : ∀ c, listing.Perm (listings c)) (h' : ∀ c, listing.Perm (listings' c)) :
    Combines suite listing listings ∧
      ∀ c th, SameStatistics ((combined suite c (listings c)).countDiffs th)
        ((combined suite c (listings' c)).countDiffs th) := by
  refine ⟨⟨testCases_nodup listing, fun case => mem_testCases, fun case => one_condition_of_mem h, ?_⟩, ?_⟩
  · intro c
    have hcases : (conditionCases c (listings c)).Perm ((testCases listing).filter fun case => c.Has case) := by
      rw [← conditionCases_eq]
      exact conditionCases_perm c (h c).symm
    rw [combined_eq]
    exact sumOf_perm (hcases.map _) (collect_flatMap suite _)
  · intro c th
    exact sameStatistics_of_perm (values_combined_perm suite c ((h c).symm.trans (h' c)) th)

/-- Two cases of two packets each. In the first iteration of a the module's
times are 2^27 off, in four iterations of b they are 1 off; other packets are lost. -/
def unevenSuite : Suite := fun case i =>
  let far := case = ['a'] ∧ i.val = 0
  let near := case = ['b'] ∧ i.val < 4
  let d : ℤ := if far then 2 ^ 27 else 1
  ⟨2, fun log j =>
    if far ∨ near then
      if log = upLog then 2 ^ 28 + (if j.val = 0 then d else -d) else 2 ^ 28
    else 0⟩

def unevenListing (cases : Name) : List Name :=
  cases.flatMap fun c => ['1', '2', '3', '4', '5'].map fun i => [c, '#', i]

/-- The sum of the squares is rounded after every key, in the order of the keys. -/
theorem uneven_variance_order :
    (unevenListing ['a', 'b']).Perm (unevenListing ['b', 'a']) ∧ ∃ th,
      variance binary64 ((combined unevenSuite .systemStress (unevenListing ['a', 'b'])).countDiffs th) ≠
        variance binary64 ((combined unevenSuite .systemStress (unevenListing ['b', 'a'])).countDiffs th) := by
  refine ⟨by decide, ⟨0, by decide⟩, ?_⟩
  intro h
  have hopt := congrArg Except.toOption h
  revert hopt
  decide +kernel

/-- Two cases of system stress and one without, which os.listdir gives to the second
script by cases in another order, and once more last first. -/
theorem uneven_combines :
    Combines unevenSuite (unevenListing ['a', 'b'] ++ [nonstress, nonstress ++ ['#', '2']])
        (fun _ => unevenListing ['b'] ++ [nonstress ++ ['#', '2'], nonstress] ++ unevenListing ['a']) ∧
      ∀ c th, SameStatistics
        ((combined unevenSuite c (unevenListing ['b'] ++ [nonstress ++ ['#', '2'], nonstress] ++
          unevenListing ['a'])).countDiffs th)
        ((combined unevenSuite c (unevenListing ['a', 'b'] ++
          [nonstress, nonstress ++ ['#', '2']]).reverse).countDiffs th) :=
  combines_of_perm unevenSuite _ (fun _ => _) (fun _ => _) (fun _ => by decide)
    (fun _ => (List.reverse_perm _).symm)

end PacketIntercept.CombinedAnalysis
