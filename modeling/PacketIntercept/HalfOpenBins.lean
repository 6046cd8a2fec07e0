import Mathlib.Algebra.Order.Ring.Nat
import Mathlib.Order.Defs.LinearOrder

namespace PacketIntercept.HalfOpenBins

section Bins

variable {α : Type} [LinearOrder α] {lo hi : α} {bins : List (α × α)}

def Inside (x : α) (bin : α × α) : Prop := bin.1 ≤ x ∧ x < bin.2

instance (x : α) : DecidablePred (Inside x) := fun bin =>
  inferInstanceAs (Decidable (bin.1 ≤ x ∧ x < bin.2))

/-- The bins lead from lo to hi without a gap and without an overlap. -/
def Chained (hi : α) : α → List (α × α) → Prop
  | lo, [] => lo = hi
  | lo, bin :: bins => bin.1 = lo ∧ lo < bin.2 ∧ Chained hi bin.2 bins

def binOf (bins : List (α × α)) (x : α) : Option ℕ := bins.findIdx? fun bin => Inside x bin

theorem Chained.le (h : Chained hi lo bins) : lo ≤ hi := by
  induction bins generalizing lo with
  | nil => exact le_of_eq h
  | cons bin bins ih => exact h.2.1.le.trans (ih h.2.2)

theorem binOf_cons (bin : α × α) (bins : List (α × α)) (x : α) :
    binOf (bin :: bins) x = if Inside x bin then some 0 else (binOf bins x).map (· + 1) := by
  rw [binOf, List.findIdx?_cons]
  by_cases h : Inside x bin <;> simp [h, binOf]

theorem Chained.binOf_eq_none (h : Chained hi lo bins) {x : α} :
    binOf bins x = none ↔ x < lo ∨ hi ≤ x := by
  induction bins generalizing lo with
  | nil =>
      rw [show lo = hi from h]
      simpa [binOf] using lt_or_ge x hi
  | cons bin bins ih =>
      obtain ⟨rfl, hlt, hrest⟩ := h
      rw [binOf_cons]
      by_cases hin : Inside x bin
      · have hhi : x < hi := hin.2.trans_le hrest.le
        simp [hin, hin.1, hhi]
      · rw [if_neg hin, Option.map_eq_none_iff, ih hrest]
        rcases lt_or_ge x bin.1 with hx | hx
        · exact iff_of_true (.inl (hx.trans hlt)) (.inl hx)
        · have hge : bin.2 ≤ x := not_lt.mp (fun hx' => hin ⟨hx, hx'⟩)
          simp [hx.not_gt, hge.not_gt]

/-- A chain has one bin at most for every x, and the search finds it. -/
theorem Chained.binOf_eq_some (h : Chained hi lo bins) {x : α} {j : ℕ} :
    binOf bins x = some j ↔ ∃ bin, bins[j]? = some bin ∧ Inside x bin := by
  induction bins generalizing lo j with
  | nil => simp [binOf]
  | cons bin bins ih =>
      obtain ⟨rfl, hlt, hrest⟩ := h
      rw [binOf_cons]
      by_cases hin : Inside x bin
      · have hnone : binOf bins x = none := hrest.binOf_eq_none.mpr (.inl hin.2)
        rw [if_pos hin]
        cases j with
        | zero => simp [hin]
        | succ j =>
            have hiff := ih hrest (j := j)
            rw [hnone] at hiff
            simpa using hiff
      · rw [if_neg hin]
        cases j with
        | zero => simp [hin]
        | succ j => simpa using ih hrest

theorem Chained.existsUnique (h : Chained hi lo bins) {x : α} (hlo : lo ≤ x) (hhi : x < hi) :
    ∃! j : ℕ, ∃ bin, bins[j]? = some bin ∧ Inside x bin := by
  simp only [← h.binOf_eq_some]
  cases hx : binOf bins x with
  | none =>
      rcases h.binOf_eq_none.mp hx with hlt | hge
      · exact absurd hlo hlt.not_ge
      · exact absurd hhi hge.not_gt
  | some j => exact ⟨j, rfl, fun k hk => (Option.some.inj hk).symm⟩

end Bins

def deposit (bars : List ℕ) (n : ℕ) : Option ℕ → List ℕ
  | none => bars
  | some j => bars.modify j (· + n)

theorem length_deposit (bars : List ℕ) (n : ℕ) (bin : Option ℕ) :
    (deposit bars n bin).length = bars.length := by
  cases bin <;> simp [deposit]

theorem getElem?_deposit (bars : List ℕ) (n : ℕ) (bin : Option ℕ) (j : ℕ) :
    (deposit bars n bin)[j]? = bars[j]?.map (· + if bin = some j then n else 0) := by
  cases bin with
  | none => simp [deposit]
  | some k =>
      rw [deposit, List.getElem?_modify]
      by_cases hk : k = j
      · simp [hk]
      · simp [hk]

theorem sum_modify_add (bars : List ℕ) (n j : ℕ) (hj : j < bars.length) :
    (bars.modify j (· + n)).sum = bars.sum + n := by
  induction bars generalizing j with
  | nil => simp at hj
  | cons b bars ih =>
      cases j with
      | zero => simp [Nat.add_right_comm]
      | succ j =>
          rw [List.modify_succ_cons, List.sum_cons, List.sum_cons,
            ih j (Nat.lt_of_succ_lt_succ hj), Nat.add_assoc]

theorem sum_deposit (bars : List ℕ) (n : ℕ) (bin : Option ℕ) (hbin : ∀ j, bin = some j → j < bars.length) :
    (deposit bars n bin).sum = bars.sum + if bin = none then 0 else n := by
  cases bin with
  | none => rfl
  | some j => rw [deposit, sum_modify_add bars n j (hbin j rfl), if_neg (Option.some_ne_none j)]

end PacketIntercept.HalfOpenBins
