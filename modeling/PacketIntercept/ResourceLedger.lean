import Mathlib.Data.List.Nodup
import Mathlib.Data.Set.Insert

namespace PacketIntercept.ResourceLedger

variable {ρ : Type}

/-- Which resources are held, and whether one was released that was not held
or acquired while it still was. -/
structure Ledger (ρ : Type) where
  held : ρ → Bool
  misused : Bool

def Ledger.empty : Ledger ρ := ⟨fun _ => false, false⟩

/-- Exactly the resources of S are held, and every one was used properly so far. -/
structure Ledger.Holds (l : Ledger ρ) (S : Set ρ) : Prop where
  proper : l.misused = false
  held_iff : ∀ r, l.held r = true ↔ r ∈ S

theorem Ledger.holds_empty : (Ledger.empty : Ledger ρ).Holds ∅ := ⟨rfl, fun r => by simp [Ledger.empty]⟩

theorem Ledger.Holds.set_eq {l : Ledger ρ} {S T : Set ρ} (h : l.Holds S) (h' : l.Holds T) : S = T := by
  ext r
  rw [← h.held_iff, h'.held_iff]

variable [DecidableEq ρ]

def Ledger.acquire (l : Ledger ρ) (r : ρ) : Ledger ρ :=
  ⟨Function.update l.held r true, l.misused || l.held r⟩

def Ledger.release (l : Ledger ρ) (r : ρ) : Ledger ρ :=
  ⟨Function.update l.held r false, l.misused || !l.held r⟩

def Ledger.releaseAll (l : Ledger ρ) (rs : List ρ) : Ledger ρ := rs.foldl Ledger.release l

theorem Ledger.Holds.acquire {l : Ledger ρ} {S : Set ρ} (h : l.Holds S) {r : ρ} (hr : r ∉ S) :
    (l.acquire r).Holds (insert r S) := by
  have hfree : l.held r = false := Bool.eq_false_iff.mpr (fun ht => hr ((h.held_iff r).mp ht))
  constructor
  · rw [Ledger.acquire, h.proper, hfree]
    rfl
  · intro r'
    rw [Set.mem_insert_iff, ← h.held_iff r', Ledger.acquire]
    by_cases he : r' = r
    · simp [he]
    · simp [he]

theorem Ledger.Holds.release {l : Ledger ρ} {S : Set ρ} (h : l.Holds S) {r : ρ} (hr : r ∈ S) :
    (l.release r).Holds (S \ {r}) := by
  constructor
  · rw [Ledger.release, h.proper, (h.held_iff r).mpr hr]
    rfl
  · intro r'
    rw [Set.mem_sdiff, Set.mem_singleton_iff, ← h.held_iff r', Ledger.release]
    by_cases he : r' = r
    · simp [he]
    · simp [he]

theorem Ledger.Holds.releaseAll {l : Ledger ρ} {S : Set ρ} (h : l.Holds S) {rs : List ρ}
    (hnd : rs.Nodup) (hrs : ∀ r ∈ rs, r ∈ S) : (l.releaseAll rs).Holds (S \ {r | r ∈ rs}) := by
  induction rs generalizing l S with
  | nil =>
      have hset : S \ {r | r ∈ ([] : List ρ)} = S := by
        ext r
        simp
      rwa [hset]
  | cons r rs ih =>
      obtain ⟨hnotin, hnd⟩ := List.nodup_cons.mp hnd
      have hrest : ∀ r' ∈ rs, r' ∈ S \ {r} := by
        intro r' hr'
        refine ⟨hrs r' (by simp [hr']), ?_⟩
        rintro rfl
        exact hnotin hr'
      have hall := ih (h.release (hrs r (by simp))) hnd hrest
      have hset : (S \ {r}) \ {r' | r' ∈ rs} = S \ {r' | r' ∈ r :: rs} := by
        ext r'
        simp only [Set.mem_sdiff, Set.mem_singleton_iff, Set.mem_ofPred_eq, List.mem_cons, not_or,
          and_assoc]
      rwa [hset] at hall

section Row

variable (slot : Nat → ρ)

def row (n : Nat) : List ρ := (List.range n).map slot

/-- Acquires a row of resources one after the other; the first one that is not
to be had has those before it released again. -/
def Ledger.acquireEach (granted : Nat → Bool) : List Nat → Ledger ρ → Bool × Ledger ρ
  | [], l => (true, l)
  | i :: is, l =>
      if granted i then acquireEach granted is (l.acquire (slot i)) else (false, l.releaseAll (row slot i))

variable {slot}

omit [DecidableEq ρ] in
theorem mem_row {n : Nat} {r : ρ} : r ∈ row slot n ↔ ∃ i, i < n ∧ r = slot i := by
  simp [row, eq_comm]

variable (hslot : Function.Injective slot) {S : Set ρ} (hS : ∀ i, slot i ∉ S)
include hslot hS

theorem Ledger.Holds.acquire_slot {i : Nat} {l : Ledger ρ} (h : l.Holds (S ∪ {r | r ∈ row slot i})) :
    (l.acquire (slot i)).Holds (S ∪ {r | r ∈ row slot (i + 1)}) := by
  have hnew : slot i ∉ S ∪ {r | r ∈ row slot i} := by
    rintro (hr | hr)
    · exact hS i hr
    · obtain ⟨j, hj, he⟩ := mem_row.mp hr
      exact absurd (hslot he) (by omega)
  have hset : insert (slot i) (S ∪ {r | r ∈ row slot i}) = S ∪ {r | r ∈ row slot (i + 1)} := by
    ext r
    simp only [row, List.range_succ, List.map_append, List.map_cons, List.map_nil, List.mem_append,
      List.mem_singleton, Set.mem_insert_iff, Set.mem_union, Set.mem_ofPred_eq]
    tauto
  exact hset ▸ h.acquire hnew

theorem Ledger.Holds.release_row {n : Nat} {l : Ledger ρ} (h : l.Holds (S ∪ {r | r ∈ row slot n})) :
    (l.releaseAll (row slot n)).Holds S := by
  have hnd : (row slot n).Nodup := List.nodup_range.map hslot
  have hfreed := h.releaseAll hnd (fun r hr => .inr hr)
  have hset : (S ∪ {r | r ∈ row slot n}) \ {r | r ∈ row slot n} = S := by
    ext r
    constructor
    · rintro ⟨hr | hr, hno⟩
      · exact hr
      · exact absurd hr hno
    · intro hr
      refine ⟨.inl hr, ?_⟩
      intro hmem
      obtain ⟨i, _, rfl⟩ := mem_row.mp hmem
      exact hS i hr
  rwa [hset] at hfreed

theorem Ledger.acquireEach_from (granted : Nat → Bool) (k i : Nat) {l : Ledger ρ}
    (hl : l.Holds (S ∪ {r | r ∈ row slot i})) :
    ((∀ j, i ≤ j → j < i + k → granted j = true) ∧
        ∃ l', l.acquireEach slot granted (List.range' i k) = (true, l') ∧
          l'.Holds (S ∪ {r | r ∈ row slot (i + k)})) ∨
      ((∃ j, i ≤ j ∧ j < i + k ∧ granted j = false) ∧
        ∃ l', l.acquireEach slot granted (List.range' i k) = (false, l') ∧ l'.Holds S) := by
  induction k generalizing i l with
  | zero => exact .inl ⟨fun j hj hj' => absurd hj' (Nat.not_lt.mpr hj), l, rfl, hl⟩
  | succ k ih =>
      rw [List.range'_succ, Ledger.acquireEach]
      cases hi : granted i with
      | false =>
          exact .inr ⟨⟨i, Nat.le_refl i, by omega, hi⟩, _, rfl, hl.release_row hslot hS⟩
      | true =>
          have hik : i + 1 + k = i + (k + 1) := by omega
          rcases ih (i + 1) (hl.acquire_slot hslot hS) with ⟨hall, l', hres, hholds⟩ |
            ⟨⟨j, hj, hjk, hfail⟩, l', hres, hholds⟩
          · refine .inl ⟨?_, l', hres, hik ▸ hholds⟩
            intro j hj hjk
            rcases Nat.eq_or_lt_of_le hj with rfl | hlt
            · exact hi
            · exact hall j hlt (by omega)
          · exact .inr ⟨⟨j, by omega, by omega, hfail⟩, l', hres, hholds⟩

/-- Either the whole row is held at the end, or nothing of it. -/
theorem Ledger.acquireEach_cases (granted : Nat → Bool) (n : Nat) {l : Ledger ρ} (hl : l.Holds S) :
    ((∀ i, i < n → granted i = true) ∧
        ∃ l', l.acquireEach slot granted (List.range n) = (true, l') ∧ l'.Holds (S ∪ {r | r ∈ row slot n})) ∨
      ((∃ i, i < n ∧ granted i = false) ∧
        ∃ l', l.acquireEach slot granted (List.range n) = (false, l') ∧ l'.Holds S) := by
  have hstart : S ∪ {r | r ∈ row slot 0} = S := by
    ext r
    simp [row]
  have hloop := Ledger.acquireEach_from hslot hS granted n 0 (by rwa [hstart])
  rw [← List.range_eq_range', Nat.zero_add] at hloop
  rcases hloop with ⟨hall, hheld⟩ | ⟨⟨i, _, hi, hfail⟩, hheld⟩
  · exact .inl ⟨fun i hi => hall i (Nat.zero_le i) hi, hheld⟩
  · exact .inr ⟨⟨i, hi, hfail⟩, hheld⟩

end Row

end PacketIntercept.ResourceLedger
