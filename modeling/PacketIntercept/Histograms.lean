import Mathlib.Algebra.Ring.Nat
import Mathlib.Data.List.Sort
import PacketIntercept.OrderStatistics

namespace PacketIntercept.Histograms

open OrderStatistics

/-- A dict from keys to counts, in the order the keys were inserted. -/
structure Histogram (α : Type) where
  items : List (α × ℕ)
  keys_nodup : (items.map Prod.fst).Nodup
  count_pos : ∀ x ∈ items, 0 < x.2

/-- d[k] = n: the entry is changed in its place, or is put at the end. -/
def assign {α : Type} [DecidableEq α] (items : List (α × ℕ)) (k : α) (n : ℕ) : List (α × ℕ) :=
  if k ∈ items.map Prod.fst then items.map fun x => if x.1 = k then (k, n) else x
  else items ++ [(k, n)]

theorem assign_keys_nodup {α : Type} [DecidableEq α] {items : List (α × ℕ)}
    (h : (items.map Prod.fst).Nodup) (k : α) (n : ℕ) : ((assign items k n).map Prod.fst).Nodup := by
  rw [assign]
  split
  · have hmap : (items.map fun x => if x.1 = k then (k, n) else x).map Prod.fst = items.map Prod.fst := by
      rw [List.map_map]
      apply List.map_congr_left
      intro x _
      by_cases hx : x.1 = k
      · simp [hx]
      · simp [hx]
    rw [hmap]
    exact h
  · rename_i hk
    rw [List.map_append, List.nodup_append_comm]
    exact List.nodup_cons.mpr ⟨hk, h⟩

theorem assign_count_pos {α : Type} [DecidableEq α] {items : List (α × ℕ)}
    (h : ∀ x ∈ items, 0 < x.2) (k : α) {n : ℕ} (hn : 0 < n) : ∀ x ∈ assign items k n, 0 < x.2 := by
  intro x hx
  rw [assign] at hx
  split at hx
  · obtain ⟨y, hy, rfl⟩ := List.mem_map.mp hx
    split
    · exact hn
    · exact h y hy
  · rcases List.mem_append.mp hx with hx | hx
    · exact h x hx
    · rw [List.mem_singleton.mp hx]
      exact hn

namespace Histogram

variable {α : Type}

def empty : Histogram α := ⟨[], by simp, by simp⟩

def keys (h : Histogram α) : List α := h.items.map Prod.fst

def nbrValues (h : Histogram α) : ℕ := (h.items.map Prod.snd).sum

def values (h : Histogram α) : List α := h.items.flatMap fun x => List.replicate x.2 x.1

theorem length_values (h : Histogram α) : h.values.length = h.nbrValues := by
  rw [values, List.length_flatMap, nbrValues]
  simp

theorem mem_values (h : Histogram α) (k : α) : k ∈ h.values ↔ k ∈ h.keys := by
  simp only [values, keys, List.mem_flatMap, List.mem_map, List.mem_replicate]
  constructor
  · rintro ⟨x, hx, _, rfl⟩
    exact ⟨x, hx, rfl⟩
  · rintro ⟨x, hx, rfl⟩
    exact ⟨x, hx, (h.count_pos x hx).ne', rfl⟩

section Lookup

variable [DecidableEq α]

def get (h : Histogram α) (k : α) : Option ℕ := h.items.lookup k

/-- The counter's new value from `g = d.get(k)`, by whether g is truthy. -/
def incremented : Option ℕ → ℕ
  | some g => if g ≠ 0 then g + 1 else 1
  | none => 1

theorem incremented_pos (g : Option ℕ) : 0 < incremented g := by
  fun_cases incremented g <;> omega

def increment (h : Histogram α) (k : α) : Histogram α :=
  ⟨assign h.items k (incremented (h.get k)), assign_keys_nodup h.keys_nodup k _,
    assign_count_pos h.count_pos k (incremented_pos _)⟩

theorem lookup_eq_none {items : List (α × ℕ)} {k : α} :
    items.lookup k = none ↔ k ∉ items.map Prod.fst := by
  rw [List.lookup_eq_none_iff, List.mem_map]
  constructor
  · rintro h ⟨x, hx, rfl⟩
    simpa using h x hx
  · intro h x hx
    have hne : k ≠ x.1 := fun he => h ⟨x, hx, he.symm⟩
    simpa using hne

theorem count_flatMap {items : List (α × ℕ)} (hn : (items.map Prod.fst).Nodup) (k : α) :
    (items.flatMap fun x => List.replicate x.2 x.1).count k = (items.lookup k).getD 0 := by
  induction items with
  | nil => rfl
  | cons x items ih =>
      rw [List.map_cons, List.nodup_cons] at hn
      rw [List.flatMap_cons, List.count_append, List.count_replicate, ih hn.2, List.lookup_cons]
      by_cases hx : x.1 = k
      · have hnone : items.lookup k = none := lookup_eq_none.mpr (hx ▸ hn.1)
        simp [hx, hnone]
      · have hbeq : (k == x.1) = false := by simpa using Ne.symm hx
        simp [hx, hbeq]

theorem count_values (h : Histogram α) (k : α) : h.values.count k = (h.get k).getD 0 :=
  count_flatMap h.keys_nodup k

theorem lookup_map_other {k k' : α} (hk : k' ≠ k) (items : List (α × ℕ)) (n : ℕ) :
    (items.map fun x => if x.1 = k then (k, n) else x).lookup k' = items.lookup k' := by
  induction items with
  | nil => rfl
  | cons x items ih =>
      rw [List.map_cons, List.lookup_cons, List.lookup_cons, ih]
      have hbeq : (k' == k) = false := by simpa using hk
      by_cases hx : x.1 = k
      · simp [hx, hbeq]
      · simp [hx]

theorem lookup_map_self {k : α} {items : List (α × ℕ)} (hk : k ∈ items.map Prod.fst) (n : ℕ) :
    (items.map fun x => if x.1 = k then (k, n) else x).lookup k = some n := by
  induction items with
  | nil => cases hk
  | cons x items ih =>
      rw [List.map_cons, List.lookup_cons]
      by_cases hx : x.1 = k
      · simp [hx]
      · rw [List.map_cons, List.mem_cons] at hk
        have hbeq : (k == x.1) = false := by simpa using Ne.symm hx
        simp [hx, hbeq, ih (hk.resolve_left (Ne.symm hx))]

theorem lookup_assign (items : List (α × ℕ)) (k k' : α) (n : ℕ) :
    (assign items k n).lookup k' = if k' = k then some n else items.lookup k' := by
  rw [assign]
  by_cases hmem : k ∈ items.map Prod.fst
  · rw [if_pos hmem]
    by_cases hk : k' = k
    · rw [hk, if_pos rfl, lookup_map_self hmem]
    · rw [if_neg hk, lookup_map_other hk]
  · rw [if_neg hmem, List.lookup_append, List.lookup_cons]
    by_cases hk : k' = k
    · rw [hk, lookup_eq_none.mpr hmem]
      simp
    · have hbeq : (k' == k) = false := by simpa using hk
      simp [hk, hbeq]

theorem incremented_eq (g : Option ℕ) : incremented g = g.getD 0 + 1 := by
  cases g with
  | none => rfl
  | some n =>
      rw [incremented]
      split <;> simp_all

theorem get_increment (h : Histogram α) (k k' : α) :
    (h.increment k).get k' = if k' = k then some ((h.get k).getD 0 + 1) else h.get k' := by
  rw [← incremented_eq]
  exact lookup_assign h.items k k' _

theorem values_increment (h : Histogram α) (k : α) : (h.increment k).values.Perm (k :: h.values) := by
  apply List.perm_iff_count.mpr
  intro k'
  rw [count_values, get_increment, List.count_cons, count_values]
  by_cases hk : k' = k
  · simp [hk]
  · simp [hk, Ne.symm hk]

/-- An entry is the count of its key among the values, where that is not zero. -/
theorem get_eq_count (h : Histogram α) (k : α) :
    h.get k = if h.values.count k = 0 then none else some (h.values.count k) := by
  have hcount := h.count_values k
  cases hget : h.get k with
  | none =>
      rw [hget, Option.getD_none] at hcount
      rw [if_pos hcount]
  | some n =>
      have hmem : k ∈ h.values := by
        rw [mem_values]
        by_contra hnot
        rw [get, lookup_eq_none.mpr hnot] at hget
        cases hget
      rw [hget] at hcount
      rw [if_neg (List.count_pos_iff.mpr hmem).ne', hcount, Option.getD_some]

def tally (h : Histogram α) (ds : List α) : Histogram α := ds.foldl increment h

theorem values_tally (h : Histogram α) (ds : List α) : (h.tally ds).values.Perm (h.values ++ ds) := by
  induction ds generalizing h with
  | nil => simp [tally]
  | cons d ds ih =>
      refine (ih (h.increment d)).trans ?_
      refine ((values_increment h d).append_right ds).trans ?_
      exact List.perm_middle.symm

end Lookup

section Order

variable [LinearOrder α]

def sortedKeys (h : Histogram α) : List α := h.keys.insertionSort (· ≤ ·)

theorem mem_sortedKeys (h : Histogram α) (k : α) : k ∈ h.sortedKeys ↔ k ∈ h.keys :=
  List.mem_insertionSort _

theorem sortedKeys_pairwise (h : Histogram α) : h.sortedKeys.Pairwise (· < ·) := by
  have hle : h.sortedKeys.Pairwise (· ≤ ·) := List.pairwise_insertionSort _ _
  have hne : h.sortedKeys.Nodup := (List.perm_insertionSort _ _).nodup_iff.mpr h.keys_nodup
  exact (hle.and hne).imp fun hjk => lt_of_le_of_ne hjk.1 hjk.2

/-- The search through the sorted keys ends at the least value that passes,
where one does. -/
theorem isLeast_find? (h : Histogram α) (p : α → Prop) [DecidablePred p] {k : α} (hk : k ∈ h.values)
    (hp : p k) (d : α) :
    IsLeast {j | j ∈ h.values ∧ p j} ((h.sortedKeys.find? fun j => decide (p j)).getD d) := by
  have hkey : k ∈ h.sortedKeys := (h.mem_sortedKeys k).mpr ((h.mem_values k).mp hk)
  have hsome : (h.sortedKeys.find? fun j => decide (p j)).isSome = true :=
    List.find?_isSome.mpr ⟨k, hkey, decide_eq_true hp⟩
  obtain ⟨j, hj⟩ := Option.isSome_iff_exists.mp hsome
  have hleast := isLeast_of_find? h.sortedKeys_pairwise hj
  rw [hj]
  simpa only [h.mem_values, h.mem_sortedKeys, decide_eq_true_eq, Option.getD_some] using hleast

end Order

end Histogram

end PacketIntercept.Histograms
