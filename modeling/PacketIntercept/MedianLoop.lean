import PacketIntercept.Histograms
import PacketIntercept.TrueDivision

namespace PacketIntercept.MedianLoop

open Histograms OrderStatistics TrueDivision

/-- The loop over sorted_keys, from the values of current_nbr_values and
diffs_median[i] on. Its results are diffs_median[i] and diffs_99_procent[i]. -/
def medianLoop (get : ℤ → ℕ) (middleNbr ninenineNbr : ℕ) : List ℤ → ℕ → ℤ → ℤ × ℤ
  -- without a break diffs_99_procent[i] keeps its first value
  | [], _, median => (median, 0)
  | key :: keys, current, median =>
      let current := current + get key
      let median := if median = 0 ∧ middleNbr ≤ current then key else median
      if ninenineNbr ≤ current then (median, key)
      else medianLoop get middleNbr ninenineNbr keys current median

/-- diffs_median[i] and diffs_99_procent[i] of a histogram; none is an
OverflowError of one of the divisions. -/
def medianAnd99 (h : Histogram ℤ) : Option (ℤ × ℤ) := do
  let middleNbr ← intDiv h.nbrValues 2
  let ninenineNbr ← intDiv (h.nbrValues * 99) 100
  pure (medianLoop (fun key => (h.get key).getD 0) middleNbr ninenineNbr h.sortedKeys 0 0)

structure Remaining (values keys : List ℤ) (current : ℕ) : Prop where
  sorted : keys.Pairwise (· < ·)
  passed : ∀ v ∈ values, v ∈ keys ∨ ∀ k ∈ keys, v < k
  counted : ∀ key ∈ keys.head?, current = below values key

/-- The keys that the loop can leave in diffs_median[i]: 0 is the marker for
"not found", and stays only where the loop stops. -/
def Marks (values : List ℤ) (m t : ℕ) (k : ℤ) : Prop :=
  m ≤ upTo values k ∧ (k = 0 → t ≤ upTo values k)

instance (values : List ℤ) (m t : ℕ) : DecidablePred (Marks values m t) :=
  fun k => inferInstanceAs (Decidable (m ≤ upTo values k ∧ (k = 0 → t ≤ upTo values k)))

theorem remaining_sortedKeys (h : Histogram ℤ) : Remaining h.values h.sortedKeys 0 := by
  refine ⟨h.sortedKeys_pairwise, ?_, ?_⟩
  · intro v hv
    left
    exact (h.mem_sortedKeys v).mpr ((h.mem_values v).mp hv)
  · intro key hkey
    symm
    apply List.countP_eq_zero.mpr
    intro v hv
    have hmem := (h.mem_sortedKeys v).mpr ((h.mem_values v).mp hv)
    have hs := h.sortedKeys_pairwise
    obtain ⟨keys, hkeys⟩ := List.head?_eq_some_iff.mp hkey
    rw [hkeys] at hmem hs
    rcases List.mem_cons.mp hmem with rfl | hmem
    · simp
    · have hlt := (List.pairwise_cons.mp hs).1 v hmem
      simpa using hlt.le

theorem Remaining.current_add {values keys : List ℤ} {key : ℤ} {current : ℕ}
    (h : Remaining values (key :: keys) current) :
    current + values.count key = upTo values key := by
  rw [h.counted key rfl, below_add_count]

theorem Remaining.tail {values keys : List ℤ} {key : ℤ} {current : ℕ}
    (h : Remaining values (key :: keys) current) : Remaining values keys (upTo values key) := by
  obtain ⟨hlt, hs⟩ := List.pairwise_cons.mp h.sorted
  refine ⟨hs, ?_, ?_⟩
  · intro v hv
    rcases h.passed v hv with hmem | hbelow
    · rcases List.mem_cons.mp hmem with rfl | hmem
      · exact Or.inr hlt
      · exact Or.inl hmem
    · exact Or.inr fun k hk => hbelow k (List.mem_cons_of_mem key hk)
  · intro key' hkey'
    obtain ⟨rest, rfl⟩ := List.head?_eq_some_iff.mp hkey'
    have hkk : key < key' := hlt key' List.mem_cons_self
    refine (below_eq_upTo ?_).symm
    intro v hv
    rcases h.passed v hv with hmem | hbelow
    · rcases List.mem_cons.mp hmem with rfl | hmem
      · exact ⟨fun _ => le_rfl, fun _ => hkk⟩
      · have hle : key' ≤ v := by
          rcases List.mem_cons.mp hmem with rfl | hmem
          · exact le_rfl
          · exact ((List.pairwise_cons.mp hs).1 v hmem).le
        omega
    · have hv' := hbelow key List.mem_cons_self
      omega

section Loop

variable {values : List ℤ} {get : ℤ → ℕ} (hget : ∀ k, get k = values.count k) {m t : ℕ}

include hget

theorem medianLoop_cons {key : ℤ} {keys : List ℤ} {current : ℕ}
    (h : Remaining values (key :: keys) current) (median : ℤ) :
    medianLoop get m t (key :: keys) current median =
      if t ≤ upTo values key then (if median = 0 ∧ m ≤ upTo values key then key else median, key)
      else medianLoop get m t keys (upTo values key)
        (if median = 0 ∧ m ≤ upTo values key then key else median) := by
  rw [medianLoop, hget, h.current_add]

theorem medianLoop_found {keys : List ℤ} {current : ℕ} (h : Remaining values keys current) {median : ℤ}
    (hne : median ≠ 0) :
    medianLoop get m t keys current median =
      (median, (keys.find? fun k => decide (t ≤ upTo values k)).getD 0) := by
  induction keys generalizing current with
  | nil => rfl
  | cons key keys ih =>
      have hkeep : (if median = 0 ∧ m ≤ upTo values key then key else median) = median :=
        if_neg fun hm => hne hm.1
      rw [medianLoop_cons hget h, hkeep]
      by_cases ht : t ≤ upTo values key
      · simp [ht]
      · simp [ht, ih h.tail]

/-- The loop takes the first key with a mark and stops at the 99% rank, which
always has one. -/
theorem medianLoop_eq (hmt : m ≤ t) {keys : List ℤ} {current : ℕ} (h : Remaining values keys current) :
    medianLoop get m t keys current 0 =
      ((keys.find? fun k => decide (Marks values m t k)).getD 0,
        (keys.find? fun k => decide (t ≤ upTo values k)).getD 0) := by
  induction keys generalizing current with
  | nil => rfl
  | cons key keys ih =>
      rw [medianLoop_cons hget h]
      by_cases hm : m ≤ upTo values key
      · by_cases hzero : key = 0
        · subst key
          -- the marker is written over the marker
          by_cases ht : t ≤ upTo values 0
          · have hmark : Marks values m t 0 := ⟨hm, fun _ => ht⟩
            simp [ht, hmark]
          · have hmark : ¬ Marks values m t 0 := fun hk => ht (hk.2 rfl)
            simp [ht, hmark, ih h.tail]
        · have hmark : Marks values m t key := ⟨hm, fun hk => absurd hk hzero⟩
          have htake : (if (0 : ℤ) = 0 ∧ m ≤ upTo values key then key else 0) = key := if_pos ⟨rfl, hm⟩
          rw [htake]
          by_cases ht : t ≤ upTo values key
          · simp [ht, hmark]
          · simp [ht, hmark, medianLoop_found hget h.tail hzero]
      · have ht : ¬ t ≤ upTo values key := fun ht => hm (le_trans hmt ht)
        have hmark : ¬ Marks values m t key := fun hk => hm hk.1
        simp [hm, ht, hmark, ih h.tail]

end Loop

theorem medianAnd99_isLeast {h : Histogram ℤ} (hne : h.items ≠ []) {t : ℕ}
    (ht : intDiv (h.nbrValues * 99) 100 = some t) :
    ∃ m r, intDiv h.nbrValues 2 = some m ∧ medianAnd99 h = some r ∧
      IsLeast {k | k ∈ h.values ∧ Marks h.values m t k} r.1 ∧
      IsLeast {k | k ∈ h.values ∧ t ≤ upTo h.values k} r.2 := by
  obtain ⟨m, hm, hmt, htn⟩ := intDiv_ranks ht
  have hvalues : h.values ≠ [] := by
    obtain ⟨x, hx⟩ := List.exists_mem_of_ne_nil _ hne
    exact List.ne_nil_of_mem ((h.mem_values x.1).mpr (List.mem_map_of_mem hx))
  obtain ⟨k, hk, hlast⟩ := exists_upTo_eq_length hvalues
  rw [h.length_values] at hlast
  have hmark : Marks h.values m t k := by
    rw [Marks, hlast]
    exact ⟨le_trans hmt htn, fun _ => htn⟩
  have hreach : t ≤ upTo h.values k := by
    rw [hlast]
    exact htn
  refine ⟨m, (_, _), hm, ?_, h.isLeast_find? _ hk hmark 0,
    h.isLeast_find? (t ≤ upTo h.values ·) hk hreach 0⟩
  rw [medianAnd99, hm, ht]
  exact congrArg some
    (medianLoop_eq (fun k => (h.count_values k).symm) hmt (remaining_sortedKeys h))

def MedianReported (h : Histogram ℤ) : Prop := ∃ r, medianAnd99 h = some r ∧ IsMedian h.values r.1

/-- diffs_99_procent[i] is the least key with 99% of the values up to it. -/
def Bound99Reported (h : Histogram ℤ) : Prop :=
  ∃ r, medianAnd99 h = some r ∧
    IsLeast {k | k ∈ h.keys ∧ 99 * h.nbrValues ≤ 100 * upTo h.values k} r.2

/-- No key with a mark has less than half of the values up to it, and every
key with more than half has a key with a mark at or below it. -/
def MarksMiddle (h : Histogram ℤ) (m t : ℕ) : Prop :=
  (∀ k ∈ h.values, Marks h.values m t k → h.nbrValues ≤ 2 * upTo h.values k) ∧
    ∀ k ∈ h.values, h.nbrValues < 2 * upTo h.values k → ∃ j ∈ h.values, j ≤ k ∧ Marks h.values m t j

theorem medianReported_iff {h : Histogram ℤ} (hne : h.items ≠ []) {m t : ℕ}
    (hm : intDiv h.nbrValues 2 = some m) (ht : intDiv (h.nbrValues * 99) 100 = some t) :
    MedianReported h ↔ MarksMiddle h m t := by
  obtain ⟨m', r, hm', hr, hmark, -⟩ := medianAnd99_isLeast hne ht
  obtain rfl : m' = m := Option.some.inj (hm'.symm.trans hm)
  have hmedian := isMedian_iff_marks hmark
  rw [h.length_values] at hmedian
  rw [MarksMiddle, ← hmedian, MedianReported, hr]
  simp

theorem bound99Reported_iff {h : Histogram ℤ} (hne : h.items ≠ []) {t : ℕ}
    (ht : intDiv (h.nbrValues * 99) 100 = some t) :
    Bound99Reported h ↔
      ∀ k ∈ h.keys, t ≤ upTo h.values k ↔ 99 * h.nbrValues ≤ 100 * upTo h.values k := by
  obtain ⟨m, r, -, hr, -, hreach⟩ := medianAnd99_isLeast hne ht
  have hup (n c : ℕ) : ∀ i j, i ≤ j → n ≤ c * upTo h.values i → n ≤ c * upTo h.values j := by
    intro i j hij hi
    exact le_trans hi (Nat.mul_le_mul_left c (upTo_mono h.values hij))
  simp only [h.mem_values] at hreach
  have hagree := isLeast_iff_agree (fun i j hij hi => le_trans hi (upTo_mono h.values hij))
    (hup (99 * h.nbrValues) 100) hreach
  rw [← hagree, Bound99Reported, hr]
  simp

theorem exists_ranks {h : Histogram ℤ} {r : ℤ × ℤ} (hr : medianAnd99 h = some r) :
    ∃ m t, intDiv h.nbrValues 2 = some m ∧ intDiv (h.nbrValues * 99) 100 = some t := by
  obtain ⟨m, hm, hrest⟩ := Option.bind_eq_some_iff.mp hr
  obtain ⟨t, ht, -⟩ := Option.bind_eq_some_iff.mp hrest
  exact ⟨m, t, hm, ht⟩

theorem ranks_of_lt {n : ℕ} (hn : 99 * n < 2 ^ 53) :
    intDiv n 2 = some (n / 2) ∧ intDiv (n * 99) 100 = some (n * 99 / 100) :=
  ⟨intDiv_of_lt (by omega) (by norm_num) (by norm_num),
    intDiv_of_lt (by omega) (by norm_num) (by norm_num)⟩

/-- No key other than 0 has (n - 1) / 2 of the n values up to it; and where 0
holds the middle rank and more than half of the values, it reaches the 99%
rank, so that the loop stops there. -/
structure MiddleClear (h : Histogram ℤ) : Prop where
  odd : ∀ k ∈ h.keys, k ≠ 0 → 2 * upTo h.values k + 1 ≠ h.nbrValues
  zero : 0 ∈ h.keys → below h.values 0 < h.nbrValues / 2 → h.nbrValues < 2 * upTo h.values 0 →
    h.nbrValues * 99 / 100 ≤ upTo h.values 0

theorem marksMiddle_iff_clear (h : Histogram ℤ) :
    MarksMiddle h (h.nbrValues / 2) (h.nbrValues * 99 / 100) ↔ MiddleClear h := by
  constructor
  · rintro ⟨hlow, hmiss⟩
    constructor
    · intro k hk hzero hodd
      have hk' := (h.mem_values k).mpr hk
      have hle := hlow k hk' ⟨by omega, fun he => absurd he hzero⟩
      omega
    · intro hz hbelow hlt
      obtain ⟨j, hj, hj0, hmark⟩ := hmiss 0 ((h.mem_values 0).mpr hz) hlt
      rcases lt_or_eq_of_le hj0 with hneg | rfl
      · have hle := upTo_le_below h.values hneg
        have hm := hmark.1
        omega
      · exact hmark.2 rfl
  · rintro ⟨hodd, hzero⟩
    constructor
    · intro k hk hmark
      have hkey := (h.mem_values k).mp hk
      have hm := hmark.1
      by_cases hk0 : k = 0
      · have ht := hmark.2 hk0
        have hpos := upTo_pos hk
        omega
      · have hne := hodd k hkey hk0
        omega
    · intro k hk hlt
      by_cases hk0 : k = 0
      · subst k
        by_cases hbelow : below h.values 0 < h.nbrValues / 2
        · have ht := hzero ((h.mem_values 0).mp hk) hbelow hlt
          exact ⟨0, hk, le_rfl, by omega, fun _ => ht⟩
        · by_cases hone : h.nbrValues / 2 = 0
          · exact ⟨0, hk, le_rfl, by omega, fun _ => by omega⟩
          · -- the keys below 0 already hold the middle rank
            have hpos : 0 < below h.values 0 := by omega
            obtain ⟨j, hj, hj0, hup⟩ := exists_pred hpos
            exact ⟨j, hj, hj0.le, by omega, fun he => absurd he hj0.ne⟩
      · exact ⟨k, hk, le_rfl, by omega, fun he => absurd he hk0⟩

theorem medianReported_iff_clear {h : Histogram ℤ} (hne : h.items ≠ [])
    (hn : 99 * h.nbrValues < 2 ^ 53) : MedianReported h ↔ MiddleClear h := by
  obtain ⟨hm, ht⟩ := ranks_of_lt hn
  rw [medianReported_iff hne hm ht, marksMiddle_iff_clear]

theorem bound99Reported_iff_rank {h : Histogram ℤ} (hne : h.items ≠ [])
    (hn : 99 * h.nbrValues < 2 ^ 53) :
    Bound99Reported h ↔ ∀ k ∈ h.keys, upTo h.values k = h.nbrValues * 99 / 100 → 100 ∣ h.nbrValues := by
  rw [bound99Reported_iff hne (ranks_of_lt hn).2]
  constructor
  · intro hagree k hk hup
    have hle := (hagree k hk).mp hup.ge
    omega
  · intro hdvd k hk
    constructor
    · intro hle
      rcases lt_or_eq_of_le hle with hlt | heq
      · omega
      · have hmod := hdvd k hk heq.symm
        omega
    · intro hle
      omega

theorem median_reported_iff (h : Histogram ℤ) (hne : h.items ≠ []) :
    (MedianReported h ↔
      ∃ m t, intDiv h.nbrValues 2 = some m ∧ intDiv (h.nbrValues * 99) 100 = some t ∧ MarksMiddle h m t) ∧
    (99 * h.nbrValues < 2 ^ 53 → (MedianReported h ↔ MiddleClear h)) := by
  refine ⟨?_, medianReported_iff_clear hne⟩
  constructor
  · intro hr
    obtain ⟨m, t, hm, ht⟩ := exists_ranks hr.choose_spec.1
    exact ⟨m, t, hm, ht, (medianReported_iff hne hm ht).mp hr⟩
  · rintro ⟨m, t, hm, ht, hmiddle⟩
    exact (medianReported_iff hne hm ht).mpr hmiddle

def fourOfFive : Histogram ℤ := ⟨[(8000, 4), (3000, 1)], by decide, by decide⟩

theorem median_reported_fourOfFive :
    fourOfFive.items ≠ [] ∧ MedianReported fourOfFive :=
  ⟨by decide, ((median_reported_iff fourOfFive (by decide)).2 (by decide)).mpr
    ⟨by decide, by decide⟩⟩

/-- Of 1000, 2000 and 2000 the loop reports 1000. -/
theorem rank_too_low_reported :
    ¬ MedianReported ⟨[(1000, 1), (2000, 2)], by decide, by decide⟩ := by
  rw [medianReported_iff_clear (by decide) (by decide)]
  intro h
  exact h.odd 1000 (by decide) (by decide) (by decide)

theorem bound99_reported_iff (h : Histogram ℤ) (hne : h.items ≠ []) :
    (Bound99Reported h ↔
      ∃ t, intDiv (h.nbrValues * 99) 100 = some t ∧
        ∀ k ∈ h.keys, t ≤ upTo h.values k ↔ 99 * h.nbrValues ≤ 100 * upTo h.values k) ∧
    (99 * h.nbrValues < 2 ^ 53 →
      (Bound99Reported h ↔
        ∀ k ∈ h.keys, upTo h.values k = h.nbrValues * 99 / 100 → 100 ∣ h.nbrValues)) := by
  refine ⟨?_, bound99Reported_iff_rank hne⟩
  constructor
  · intro hr
    obtain ⟨m, t, hm, ht⟩ := exists_ranks hr.choose_spec.1
    exact ⟨t, ht, (bound99Reported_iff hne ht).mp hr⟩
  · rintro ⟨t, ht, hagree⟩
    exact (bound99Reported_iff hne ht).mpr hagree

theorem bound99_reported_fourOfFive :
    fourOfFive.items ≠ [] ∧ Bound99Reported fourOfFive :=
  ⟨by decide, ((bound99_reported_iff fourOfFive (by decide)).2 (by decide)).mpr (by decide)⟩

/-- Of 1000 and 5000 the loop reports 1000 as the 99% bound. -/
theorem half_reported_as_bound99 :
    ¬ Bound99Reported ⟨[(1000, 1), (5000, 1)], by decide, by decide⟩ := by
  rw [bound99Reported_iff_rank (by decide) (by decide)]
  intro h
  exact absurd (h 1000 (by decide) (by decide)) (by decide)

end PacketIntercept.MedianLoop
