import Mathlib.Algebra.BigOperators.Group.List.Basic
import Mathlib.Algebra.Ring.Int.Defs
import PacketIntercept.FloatArithmetic
import PacketIntercept.MedianLoop

namespace PacketIntercept.HistogramStatistics

open FloatArithmetic Histograms MedianLoop TrueDivision

def sumary (h : Histogram ℤ) : ℤ := h.items.foldl (fun s x => s + x.1 * x.2) 0

variable {ν : Type} (A : Arithmetic ν)

def average (h : Histogram ℤ) : Except PythonError ν := A.truedivInt (sumary h) h.nbrValues

/-- sum_square_deviations += ((key-avg)**2) * value. -/
def addDeviation (avg s : ν) (x : ℤ × ℕ) : Except PythonError ν := do
  let key ← A.ofInt x.1
  let squared ← A.square (A.sub key avg)
  let value ← A.ofInt x.2
  pure (A.add s (A.mul squared value))

def sumSquareDeviations (h : Histogram ℤ) (avg : ν) : Except PythonError ν :=
  h.items.foldlM (addDeviation A avg) A.zero

/-- The quantity under the square root, once the average is known. -/
def varianceAround (h : Histogram ℤ) (avg : ν) : Except PythonError ν := do
  let sumSquare ← sumSquareDeviations A h avg
  let nbrValues ← A.ofInt h.nbrValues
  A.div sumSquare nbrValues

def variance (h : Histogram ℤ) : Except PythonError ν := do
  let avg ← average A h
  varianceAround A h avg

def mean (ds : List ℤ) : ℚ := ds.sum / ds.length

def populationVariance (ds : List ℤ) : ℚ := (ds.map fun d : ℤ => ((d : ℚ) - mean ds) ^ 2).sum / ds.length

/-- A sum over the keys, weighted by their counts, is a sum over the values. -/
theorem sum_values {R : Type} [CommSemiring R] (h : Histogram ℤ) (f : ℤ → R) :
    (h.values.map f).sum = (h.items.map fun x => f x.1 * x.2).sum := by
  rw [Histogram.values]
  induction h.items with
  | nil => rfl
  | cons x items ih =>
      rw [List.flatMap_cons, List.map_append, List.sum_append, ih, List.map_replicate,
        List.sum_replicate, nsmul_eq_mul, List.map_cons, List.sum_cons, mul_comm]

theorem sumary_eq (h : Histogram ℤ) : sumary h = h.values.sum := by
  have hfold : sumary h = (h.items.map fun x => x.1 * (x.2 : ℤ)).sum := by
    rw [sumary, List.sum_eq_foldl, List.foldl_map]
  rw [hfold, ← List.map_id h.values]
  exact (sum_values h id).symm

theorem average_eq (h : Histogram ℤ) : average A h = A.truedivInt h.values.sum h.values.length := by
  rw [average, sumary_eq, h.length_values]

theorem length_ne_zero {ds : List ℤ} (hne : ds ≠ []) : (ds.length : ℚ) ≠ 0 := by
  rw [Nat.cast_ne_zero, ne_eq, List.length_eq_zero_iff]
  exact hne

theorem average_exact {h : Histogram ℤ} (hne : h.values ≠ []) :
    average exact h = .ok (mean h.values) := by
  have hlen : (h.values.length : ℤ) ≠ 0 := by exact_mod_cast length_ne_zero hne
  rw [average_eq]
  exact if_neg hlen

theorem abs_sum_le {ds : List ℤ} {b : ℤ} (h : ∀ d ∈ ds, |d| ≤ b) : |ds.sum| ≤ b * ds.length := by
  induction ds with
  | nil => simp
  | cons d ds ih =>
      have hd := h d (by simp)
      have hds := ih (fun d' hd' => h d' (by simp [hd']))
      have htri := abs_add_le d ds.sum
      rw [List.sum_cons, List.length_cons]
      push_cast
      linarith

theorem average_of_empty {ν : Type} {A : Arithmetic ν} {h : Histogram ℤ} (he : h.values = [])
    (hdiv : A.truedivInt 0 0 = .error .zeroDivisionError) :
    average A h = .error .zeroDivisionError := by
  rw [average_eq, he]
  exact hdiv

theorem foldlM_addDeviation_exact (items : List (ℤ × ℕ)) (avg s : ℚ) :
    items.foldlM (addDeviation exact avg) s =
      .ok (s + (items.map fun x => ((x.1 : ℚ) - avg) ^ 2 * (x.2 : ℚ)).sum) := by
  induction items generalizing s with
  | nil =>
      rw [List.foldlM_nil, List.map_nil, List.sum_nil, add_zero]
      rfl
  | cons x items ih =>
      have hstep : addDeviation exact avg s x = .ok (s + ((x.1 : ℚ) - avg) ^ 2 * (x.2 : ℚ)) := by
        rw [sq]
        rfl
      rw [List.foldlM_cons, hstep, List.map_cons, List.sum_cons, ← add_assoc]
      exact ih _

theorem sumSquareDeviations_exact (h : Histogram ℤ) (avg : ℚ) :
    sumSquareDeviations exact h avg = .ok (h.values.map fun d : ℤ => ((d : ℚ) - avg) ^ 2).sum := by
  rw [sum_values]
  refine (foldlM_addDeviation_exact h.items avg 0).trans ?_
  rw [zero_add]

theorem variance_exact {h : Histogram ℤ} (hne : h.values ≠ []) :
    variance exact h = .ok (populationVariance h.values) := by
  have hnbr : (h.nbrValues : ℚ) ≠ 0 := by
    rw [← h.length_values]
    exact length_ne_zero hne
  have haround : varianceAround exact h (mean h.values) = .ok (populationVariance h.values) := by
    rw [varianceAround, sumSquareDeviations_exact, populationVariance, h.length_values]
    exact if_neg hnbr
  rw [variance, average_exact hne]
  exact haround

theorem mean_perm {ds ds' : List ℤ} (h : ds.Perm ds') : mean ds = mean ds' := by
  rw [mean, mean, h.sum_eq, h.length_eq]

theorem populationVariance_perm {ds ds' : List ℤ} (h : ds.Perm ds') :
    populationVariance ds = populationVariance ds' := by
  rw [populationVariance, populationVariance, mean_perm h, (h.map _).sum_eq, h.length_eq]

theorem variance_exact_congr {h h' : Histogram ℤ} (hv : h.values.Perm h'.values) :
    variance exact h = variance exact h' := by
  by_cases hne : h.values = []
  · have hlen : (h'.values.length : ℤ) = 0 := by rw [← hv.length_eq, hne, List.length_nil]; rfl
    have havg : average exact h' = .error .zeroDivisionError := by
      rw [average_eq]
      exact if_pos hlen
    have havg' : average exact h = .error .zeroDivisionError := by
      rw [average_eq, hv.sum_eq, hv.length_eq, ← average_eq, havg]
    rw [variance, variance, havg, havg']
    rfl
  · have hne' : h'.values ≠ [] := fun he => hne (by rw [he] at hv; exact hv.eq_nil)
    rw [variance_exact hne, variance_exact hne', populationVariance_perm hv]

theorem sortedKeys_congr {h h' : Histogram ℤ} (hv : h.values.Perm h'.values) :
    h.sortedKeys = h'.sortedKeys := by
  have hperm : h.sortedKeys.Perm h'.sortedKeys := by
    apply (List.perm_ext_iff_of_nodup ?_ ?_).mpr
    · intro k
      rw [h.mem_sortedKeys, h'.mem_sortedKeys, ← h.mem_values, ← h'.mem_values, hv.mem_iff]
    · exact h.sortedKeys_pairwise.imp (fun hlt => hlt.ne)
    · exact h'.sortedKeys_pairwise.imp (fun hlt => hlt.ne)
  apply hperm.eq_of_pairwise ?_ h.sortedKeys_pairwise h'.sortedKeys_pairwise
  intro a b _ _ hab hba
  exact absurd hab hba.asymm

theorem medianAnd99_congr {h h' : Histogram ℤ} (hv : h.values.Perm h'.values) :
    medianAnd99 h = medianAnd99 h' := by
  have hnbr : h.nbrValues = h'.nbrValues := by rw [← h.length_values, ← h'.length_values, hv.length_eq]
  have hget : (fun key => (h.get key).getD 0) = fun key => (h'.get key).getD 0 := by
    funext key
    rw [← h.count_values, ← h'.count_values, hv.count_eq]
  rw [medianAnd99, medianAnd99, hnbr, hget, sortedKeys_congr hv]

end PacketIntercept.HistogramStatistics
