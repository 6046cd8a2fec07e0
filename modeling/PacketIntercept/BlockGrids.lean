import Mathlib.Logic.Function.Basic

namespace PacketIntercept.BlockGrids

variable {α : Type} {m n : Nat}

abbrev Grid (m n : Nat) (α : Type) := Fin m → Fin n → α

/-- A read that has no result outside the grid. -/
def fetch (g : Grid m n α) (i j : Nat) : Option α :=
  if h : i < m ∧ j < n then some (g ⟨i, h.1⟩ ⟨j, h.2⟩) else none

def store (g : Grid m n α) (i j : Nat) (x : α) : Option (Grid m n α) :=
  if h : i < m ∧ j < n then
    some (Function.update g ⟨i, h.1⟩ (Function.update (g ⟨i, h.1⟩) ⟨j, h.2⟩ x))
  else none

theorem store_isSome (g : Grid m n α) (i j : Nat) (x : α) :
    (store g i j x).isSome = true ↔ i < m ∧ j < n := by
  rw [store]
  split <;> simp_all

theorem fetch_isSome (g : Grid m n α) (i j : Nat) :
    (fetch g i j).isSome = true ↔ i < m ∧ j < n := by
  rw [fetch]
  split <;> simp_all

theorem fetch_store {g g' : Grid m n α} {i j : Nat} {x : α} (h : store g i j x = some g')
    (i' j' : Nat) : fetch g' i' j' = if i' = i ∧ j' = j then some x else fetch g i' j' := by
  have hin : i < m ∧ j < n := (store_isSome g i j x).mp (by rw [h]; rfl)
  rw [store, dif_pos hin, Option.some.injEq] at h
  by_cases hin' : i' < m ∧ j' < n
  · rw [fetch, fetch, dif_pos hin', dif_pos hin', ← h]
    by_cases hi : i' = i
    · subst i'
      rw [Function.update_self]
      by_cases hj : j' = j
      · subst j'
        simp
      · rw [Function.update_of_ne (fun he => hj (Fin.mk.inj he)), if_neg (fun hc => hj hc.2)]
    · rw [Function.update_of_ne (fun he => hi (Fin.mk.inj he)), if_neg (fun hc => hi hc.1)]
  · rw [fetch, fetch, dif_neg hin', dif_neg hin', if_neg]
    rintro ⟨hi, hj⟩
    exact hin' ⟨hi ▸ hin.1, hj ▸ hin.2⟩

theorem cell_lt {k : Nat} (hk : k < m * n) : k / n < m ∧ k % n < n := by
  have hn : 0 < n := Nat.pos_of_ne_zero (fun h => by simp [h] at hk)
  exact ⟨Nat.div_lt_of_lt_mul (by rwa [Nat.mul_comm]), Nat.mod_lt k hn⟩

theorem cell_injective {k l : Nat} (hd : k / n = l / n) (hm : k % n = l % n) : k = l := by
  rw [← Nat.div_add_mod k n, hd, hm, Nat.div_add_mod]

end PacketIntercept.BlockGrids
