import Mathlib.Logic.Function.Basic

namespace PacketIntercept.ArrayMaps

variable {n : Nat} {α : Type}

/-- An array map with n entries: a key from n on is never found. -/
abbrev ArrayMap (n : Nat) (α : Type) := Fin n → α

def lookup (m : ArrayMap n α) (k : Nat) : Option α := if h : k < n then some (m ⟨k, h⟩) else none

def update (m : ArrayMap n α) (k : Nat) (v : α) : ArrayMap n α :=
  if h : k < n then Function.update m ⟨k, h⟩ v else m

theorem update_apply (m : ArrayMap n α) (k : Nat) (v : α) (i : Fin n) :
    update m k v i = if i.val = k then v else m i := by
  rw [update]
  split
  next h =>
    by_cases hi : i.val = k
    · subst hi
      simp
    · have hne : i ≠ ⟨k, h⟩ := fun he => hi (congrArg Fin.val he)
      rw [Function.update_of_ne hne, if_neg hi]
  next h =>
    have hi : i.val ≠ k := by have := i.isLt; omega
    rw [if_neg hi]

theorem lookup_eq (m : ArrayMap n α) (i : Fin n) : lookup m i.val = some (m i) := by
  simp [lookup]

theorem lookup_none (m : ArrayMap n α) {k : Nat} (hk : ¬ k < n) : lookup m k = none := dif_neg hk

theorem update_lookup_isSome (m : ArrayMap n α) (k : Nat) (v : α) :
    (if (lookup m k).isSome then update m k v else m) = update m k v := by
  by_cases h : k < n
  · simp [lookup, h]
  · simp [lookup, update, h]

end PacketIntercept.ArrayMaps
