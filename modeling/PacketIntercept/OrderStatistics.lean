import Mathlib.Data.Finset.Max
import Mathlib.Data.List.Count
import Mathlib.Order.Bounds.Basic

namespace PacketIntercept.OrderStatistics

variable {α : Type} [LinearOrder α]

def upTo (values : List α) (k : α) : ℕ := values.countP (· ≤ k)
def below (values : List α) (k : α) : ℕ := values.countP (· < k)
def atLeast (values : List α) (k : α) : ℕ := values.countP (k ≤ ·)

/-- At least half of the values lie on each side of the key. -/
def IsMedian (values : List α) (k : α) : Prop :=
  k ∈ values ∧ values.length ≤ 2 * upTo values k ∧ values.length ≤ 2 * atLeast values k

theorem below_add_count (values : List α) (k : α) :
    below values k + values.count k = upTo values k := by
  induction values with
  | nil => rfl
  | cons v values ih =>
      rw [below, upTo, List.countP_cons, List.countP_cons, List.count_cons, ← upTo, ← below, ← ih]
      rcases lt_trichotomy v k with h | h | h
      · simp [h, h.le, h.ne]
        omega
      · simp [h]
        omega
      · simp [h.not_gt, h.not_ge, h.ne']

theorem below_add_atLeast (values : List α) (k : α) :
    below values k + atLeast values k = values.length := by
  have h := List.length_eq_countP_add_countP (fun v => decide (v < k)) (l := values)
  simp only [decide_eq_true_eq, not_lt] at h
  rw [below, atLeast, h]

theorem upTo_mono (values : List α) {j k : α} (h : j ≤ k) : upTo values j ≤ upTo values k := by
  apply List.countP_mono_left
  intro v _ hv
  simp only [decide_eq_true_eq] at hv ⊢
  exact le_trans hv h

theorem upTo_le_below (values : List α) {j k : α} (h : j < k) : upTo values j ≤ below values k := by
  apply List.countP_mono_left
  intro v _ hv
  simp only [decide_eq_true_eq] at hv ⊢
  exact lt_of_le_of_lt hv h

theorem upTo_pos {values : List α} {k : α} (hk : k ∈ values) : 0 < upTo values k :=
  List.countP_pos_iff.mpr ⟨k, hk, by simp⟩

/-- Where no value lies between two keys, the values below the second are
those up to the first. -/
theorem below_eq_upTo {values : List α} {j k : α} (h : ∀ v ∈ values, v < k ↔ v ≤ j) :
    below values k = upTo values j := by
  apply List.countP_congr
  intro v hv
  simpa using h v hv

theorem exists_pred {values : List α} {k : α} (h : 0 < below values k) :
    ∃ j ∈ values, j < k ∧ upTo values j = below values k := by
  obtain ⟨v, hv, hvk⟩ := List.countP_pos_iff.mp h
  have hne : (values.toFinset.filter (· < k)).Nonempty :=
    ⟨v, Finset.mem_filter.mpr ⟨List.mem_toFinset.mpr hv, by simpa using hvk⟩⟩
  obtain ⟨j, hj, hmax⟩ := Finset.exists_max_image _ id hne
  obtain ⟨hjv, hjk⟩ := Finset.mem_filter.mp hj
  refine ⟨j, List.mem_toFinset.mp hjv, hjk, ?_⟩
  refine (below_eq_upTo ?_).symm
  intro w hw
  constructor
  · intro hwk
    exact hmax w (Finset.mem_filter.mpr ⟨List.mem_toFinset.mpr hw, hwk⟩)
  · intro hwj
    exact lt_of_le_of_lt hwj hjk

theorem exists_upTo_eq_length {values : List α} (hne : values ≠ []) :
    ∃ k ∈ values, upTo values k = values.length := by
  have hfin : values.toFinset.Nonempty := List.toFinset_nonempty_iff values |>.mpr hne
  obtain ⟨k, hk, hmax⟩ := Finset.exists_max_image _ id hfin
  refine ⟨k, List.mem_toFinset.mp hk, ?_⟩
  apply List.countP_eq_length.mpr
  intro v hv
  exact decide_eq_true (hmax v (List.mem_toFinset.mpr hv))

theorem isLeast_of_find? {keys : List α} (hs : keys.Pairwise (· < ·)) {p : α → Bool} {k : α}
    (h : keys.find? p = some k) : IsLeast {j | j ∈ keys ∧ p j = true} k := by
  obtain ⟨hk, pre, post, rfl, hpre⟩ := List.find?_eq_some_iff_append.mp h
  refine ⟨⟨by simp, hk⟩, ?_⟩
  rintro j ⟨hj, hpj⟩
  rcases List.mem_append.mp hj with hj | hj
  · have := hpre j hj
    simp [hpj] at this
  · rcases List.mem_cons.mp hj with rfl | hj
    · exact le_rfl
    · have htail := (List.pairwise_append.mp hs).2.1
      exact ((List.pairwise_cons.mp htail).1 j hj).le

/-- Two upward closed conditions have the same least key just when they
agree on the keys. -/
theorem isLeast_iff_agree {keys : List α} {p q : α → Prop} {k : α}
    (hp : ∀ i j, i ≤ j → p i → p j) (hq : ∀ i j, i ≤ j → q i → q j)
    (hk : IsLeast {j | j ∈ keys ∧ p j} k) :
    IsLeast {j | j ∈ keys ∧ q j} k ↔ ∀ j ∈ keys, p j ↔ q j := by
  constructor
  · intro hk' j hj
    constructor
    · intro hpj
      exact hq k j (hk.2 ⟨hj, hpj⟩) hk'.1.2
    · intro hqj
      exact hp k j (hk'.2 ⟨hj, hqj⟩) hk.1.2
  · intro h
    have hset : {j | j ∈ keys ∧ q j} = {j | j ∈ keys ∧ p j} := by
      ext j
      constructor
      · rintro ⟨hj, hqj⟩
        exact ⟨hj, (h j hj).mpr hqj⟩
      · rintro ⟨hj, hpj⟩
        exact ⟨hj, (h j hj).mp hpj⟩
    rw [hset]
    exact hk

/-- The least key with a mark is a median just when no mark stands too low
and none is missing up to where half of the values are passed. -/
theorem isMedian_iff_marks {values : List α} {marks : α → Prop} {k : α}
    (hk : IsLeast {j | j ∈ values ∧ marks j} k) :
    IsMedian values k ↔
      (∀ j ∈ values, marks j → values.length ≤ 2 * upTo values j) ∧
        ∀ j ∈ values, values.length < 2 * upTo values j → ∃ i ∈ values, i ≤ j ∧ marks i := by
  have hsplit := below_add_atLeast values k
  constructor
  · rintro ⟨_, hup, hat⟩
    constructor
    · intro j hj hm
      have hle := upTo_mono values (hk.2 ⟨hj, hm⟩)
      omega
    · intro j hj hlt
      refine ⟨k, hk.1.1, ?_, hk.1.2⟩
      by_contra hjk
      have hle := upTo_le_below values (lt_of_not_ge hjk)
      omega
  · rintro ⟨hlow, hmiss⟩
    refine ⟨hk.1.1, hlow k hk.1.1 hk.1.2, ?_⟩
    by_contra hat
    have hpos : 0 < below values k := by omega
    obtain ⟨j, hj, hjk, hbelow⟩ := exists_pred hpos
    obtain ⟨i, hi, hij, hm⟩ := hmiss j hj (by omega)
    exact absurd (le_trans (hk.2 ⟨hi, hm⟩) hij) (not_le_of_gt hjk)

end PacketIntercept.OrderStatistics
