import Mathlib.Algebra.BigOperators.Group.List.Basic
import Mathlib.Data.Nat.ModEq

namespace PacketIntercept.EndAroundCarry

variable {m : ℕ}

/-- Addition of numbers up to m with end-around carry, for m + 1 a power of two
the ones' complement sum of words. -/
def add (m a b : ℕ) : ℕ := if a + b ≤ m then a + b else a + b - m

def total (m : ℕ) (ws : List ℕ) : ℕ := ws.foldl (add m) 0

theorem add_le {a b : ℕ} (ha : a ≤ m) (hb : b ≤ m) : add m a b ≤ m := by
  rw [add]
  split <;> omega

theorem add_modEq (m a b : ℕ) : add m a b ≡ a + b [MOD m] := by
  rw [add]
  split
  · exact Nat.ModEq.rfl
  · next h =>
      have hle : m ≤ a + b := by omega
      exact (Nat.mod_eq_sub_mod hle).symm

theorem add_eq_zero {a b : ℕ} : add m a b = 0 ↔ a = 0 ∧ b = 0 := by
  rw [add]
  split <;> omega

/-- Two sums that are not zero are equal when they agree modulo m: m stands for
the other zero. -/
theorem eq_of_modEq {a b : ℕ} (ha : a ≤ m) (hb : b ≤ m) (ha0 : a ≠ 0) (hb0 : b ≠ 0)
    (h : a ≡ b [MOD m]) : a = b := by
  rcases Nat.lt_or_ge a m with ha' | ha'
  · rcases Nat.lt_or_ge b m with hb' | hb'
    · exact Nat.ModEq.eq_of_lt_of_lt h ha' hb'
    · obtain rfl : b = m := by omega
      have hz : a % b = 0 := by simpa [Nat.ModEq] using h
      rw [Nat.mod_eq_of_lt ha'] at hz
      omega
  · obtain rfl : a = m := by omega
    rcases Nat.lt_or_ge b a with hb' | hb'
    · have hz : b % a = 0 := by simpa [Nat.ModEq] using h.symm
      rw [Nat.mod_eq_of_lt hb'] at hz
      omega
    · omega

section Total

theorem foldl_le {ws : List ℕ} (h : ∀ w ∈ ws, w ≤ m) {a : ℕ} (ha : a ≤ m) :
    ws.foldl (add m) a ≤ m := by
  induction ws generalizing a with
  | nil => exact ha
  | cons w ws ih =>
      exact ih (fun v hv => h v (by simp [hv])) (add_le ha (h w (by simp)))

theorem foldl_modEq (ws : List ℕ) (a : ℕ) : ws.foldl (add m) a ≡ a + ws.sum [MOD m] := by
  induction ws generalizing a with
  | nil => exact Nat.ModEq.rfl
  | cons w ws ih =>
      rw [List.foldl_cons, List.sum_cons, ← Nat.add_assoc]
      exact (ih _).trans (Nat.ModEq.add_right _ (add_modEq m a w))

theorem foldl_eq_zero (ws : List ℕ) (a : ℕ) :
    ws.foldl (add m) a = 0 ↔ a = 0 ∧ ∀ w ∈ ws, w = 0 := by
  induction ws generalizing a with
  | nil => simp
  | cons w ws ih =>
      rw [List.foldl_cons, ih, add_eq_zero, List.forall_mem_cons, and_assoc]

theorem total_le {ws : List ℕ} (h : ∀ w ∈ ws, w ≤ m) : total m ws ≤ m := foldl_le h (Nat.zero_le m)

theorem total_modEq (m : ℕ) (ws : List ℕ) : total m ws ≡ ws.sum [MOD m] := by
  have h := foldl_modEq (m := m) ws 0
  rwa [Nat.zero_add] at h

theorem total_eq_zero (ws : List ℕ) : total m ws = 0 ↔ ∀ w ∈ ws, w = 0 := by
  rw [total, foldl_eq_zero]
  exact and_iff_right rfl

end Total

end PacketIntercept.EndAroundCarry
