import PacketIntercept.EndAroundCarry
import PacketIntercept.Runs

namespace PacketIntercept.Csum

open EndAroundCarry Runs

def csum16Add (csum addend : UInt16) : UInt16 :=
  let res := csum + addend
  res + if res < addend then 1 else 0

def csum16Sub (csum addend : UInt16) : UInt16 := csum16Add csum (~~~addend)

def csumReplace2 (sum old new : UInt16) : UInt16 := ~~~csum16Add (csum16Sub (~~~sum) old) new

/-- The checksum of some words computed from all of them. -/
def checksum (ws : List UInt16) : UInt16 := ~~~ws.foldl csum16Add 0

variable {n : ℕ}

/-- Words with the checksum that stands beside them. -/
structure Checked (n : ℕ) where
  words : Fin n → UInt16
  sum : UInt16

def summed (words : Fin n → UInt16) : Checked n := ⟨words, checksum (List.ofFn words)⟩

/-- A word is overwritten and the checksum updated for it. -/
def replace (c : Checked n) (r : Fin n × UInt16) : Checked n where
  words := Function.update c.words r.1 r.2
  sum := csumReplace2 c.sum (c.words r.1) r.2

theorem toNat_csum16Add (a b : UInt16) : (csum16Add a b).toNat = add 65535 a.toNat b.toNat := by
  have ha : a.toNat < 65536 := a.toNat_lt
  have hb : b.toNat < 65536 := b.toNat_lt
  simp only [csum16Add, add, UInt16.lt_iff_toNat_lt, UInt16.toNat_add]
  split
  · next h =>
      rw [if_neg (by omega), show (1 : UInt16).toNat = 1 from rfl]
      omega
  · next h =>
      rw [show (0 : UInt16).toNat = 0 from rfl]
      split <;> omega

theorem toNat_not (a : UInt16) : (~~~a).toNat = 65535 - a.toNat := by
  rw [UInt16.toNat_not]
  rfl

theorem toNat_foldl (ws : List UInt16) (a : UInt16) :
    (ws.foldl csum16Add a).toNat = (ws.map UInt16.toNat).foldl (add 65535) a.toNat := by
  induction ws generalizing a with
  | nil => rfl
  | cons w ws ih => rw [List.foldl_cons, ih, toNat_csum16Add, List.map_cons, List.foldl_cons]

theorem toNat_checksum (ws : List UInt16) :
    (checksum ws).toNat = 65535 - total 65535 (ws.map UInt16.toNat) := by
  rw [checksum, toNat_not, toNat_foldl]
  rfl

def wordSum (words : Fin n → UInt16) : ℕ := ∑ i, (words i).toNat

def recomputed (words : Fin n → UInt16) : ℕ := total 65535 ((List.ofFn words).map UInt16.toNat)

theorem recomputed_modEq (words : Fin n → UInt16) : recomputed words ≡ wordSum words [MOD 65535] := by
  have h := total_modEq 65535 ((List.ofFn words).map UInt16.toNat)
  rwa [List.map_ofFn, List.sum_ofFn, ← List.map_ofFn] at h

theorem recomputed_le (words : Fin n → UInt16) : recomputed words ≤ 65535 := by
  apply total_le
  intro w hw
  obtain ⟨x, -, rfl⟩ := List.mem_map.mp hw
  exact Nat.le_of_lt_succ x.toNat_lt

theorem recomputed_eq_zero (words : Fin n → UInt16) : recomputed words = 0 ↔ ∀ i, words i = 0 := by
  rw [recomputed, total_eq_zero, List.map_ofFn, List.forall_mem_ofFn_iff]
  apply forall_congr'
  intro i
  exact UInt16.toNat_inj (b := 0)

theorem wordSum_update (words : Fin n → UInt16) (i : Fin n) (new : UInt16) :
    wordSum (Function.update words i new) + (words i).toNat = wordSum words + new.toNat :=
  sum_update UInt16.toNat words i new

def carried (c : Checked n) : ℕ := 65535 - c.sum.toNat

theorem carried_replace (c : Checked n) (r : Fin n × UInt16) :
    carried (replace c r) =
      add 65535 (add 65535 (carried c) (65535 - (c.words r.1).toNat)) r.2.toNat := by
  have hle : (csum16Add (csum16Sub (~~~c.sum) (c.words r.1)) r.2).toNat ≤ 65535 :=
    Nat.le_of_lt_succ (UInt16.toNat_lt _)
  rw [carried, replace, csumReplace2, toNat_not, Nat.sub_sub_self hle, toNat_csum16Add, csum16Sub,
    toNat_csum16Add, toNat_not, toNat_not, carried]

/-- The carried sum is right up to the two zeros, and the zero of the empty sum
only stands beside zero words. -/
structure Sound (c : Checked n) : Prop where
  modEq : carried c ≡ wordSum c.words [MOD 65535]
  zero : carried c = 0 → ∀ i, c.words i = 0

theorem sound_summed (words : Fin n → UInt16) : Sound (summed words) := by
  have hc : carried (summed words) = recomputed words := by
    rw [carried, summed, toNat_checksum]
    exact Nat.sub_sub_self (recomputed_le words)
  refine ⟨?_, ?_⟩
  · rw [hc]
    exact recomputed_modEq words
  · rw [hc]
    exact (recomputed_eq_zero words).mp

theorem carried_replace_ne_zero {c : Checked n} (hc : Sound c) (r : Fin n × UInt16) :
    carried (replace c r) ≠ 0 := by
  rw [carried_replace]
  intro h
  obtain ⟨h, -⟩ := add_eq_zero.mp h
  obtain ⟨hz, hold⟩ := add_eq_zero.mp h
  rw [hc.zero hz r.1] at hold
  exact absurd hold (by decide)

theorem sound_replace {c : Checked n} (hc : Sound c) (r : Fin n × UInt16) : Sound (replace c r) := by
  refine ⟨?_, fun h => absurd h (carried_replace_ne_zero hc r)⟩
  have hold : (c.words r.1).toNat ≤ 65535 := Nat.le_of_lt_succ (UInt16.toNat_lt _)
  have hsum : carried (replace c r) ≡
      carried c + (65535 - (c.words r.1).toNat) + r.2.toNat [MOD 65535] := by
    rw [carried_replace]
    exact (add_modEq _ _ _).trans (Nat.ModEq.add_right _ (add_modEq _ _ _))
  apply Nat.ModEq.add_right_cancel' (c.words r.1).toNat
  calc carried (replace c r) + (c.words r.1).toNat
      ≡ carried c + (65535 - (c.words r.1).toNat) + r.2.toNat + (c.words r.1).toNat [MOD 65535] :=
        Nat.ModEq.add_right _ hsum
    _ = carried c + r.2.toNat + 65535 := by omega
    _ ≡ carried c + r.2.toNat [MOD 65535] := Nat.add_modEq_right
    _ ≡ wordSum c.words + r.2.toNat [MOD 65535] := Nat.ModEq.add_right _ hc.modEq
    _ = wordSum (replace c r).words + (c.words r.1).toNat :=
        (wordSum_update c.words r.1 r.2).symm

theorem sum_eq_checksum_iff (c : Checked n) :
    c.sum = checksum (List.ofFn c.words) ↔ carried c = recomputed c.words := by
  have hle := recomputed_le c.words
  have hs : c.sum.toNat ≤ 65535 := Nat.le_of_lt_succ (UInt16.toNat_lt _)
  rw [← UInt16.toNat_inj, toNat_checksum, ← recomputed, carried]
  omega

/-- However the words are overwritten one after the other, the checksum updated
for each is the checksum of the words, except once something was overwritten
and all words are zero. -/
theorem updates_recompute_iff (words : Fin n → UInt16) (rs : List (Fin n × UInt16)) :
    (run replace (summed words) rs).sum = checksum (List.ofFn (run replace (summed words) rs).words) ↔
      rs = [] ∨ ∃ i, (run replace (summed words) rs).words i ≠ 0 := by
  rcases List.eq_nil_or_concat' rs with rfl | ⟨past, r, rfl⟩
  · simp [summed]
  · have hpast : Sound (run replace (summed words) past) :=
      run_invariant (sound_summed words) (fun c r hc => sound_replace hc r) past
    rw [run_snoc, sum_eq_checksum_iff]
    have hne := carried_replace_ne_zero hpast r
    have hmod := (sound_replace hpast r).modEq.trans (recomputed_modEq _).symm
    constructor
    · intro he
      right
      by_contra hno
      rw [not_exists] at hno
      apply hne
      rw [he, recomputed_eq_zero]
      exact fun i => not_not.mp (hno i)
    · rintro (hnil | ⟨i, hi⟩)
      · simp at hnil
      · apply eq_of_modEq (Nat.sub_le _ _) (recomputed_le _) hne _ hmod
        intro hz
        exact hi ((recomputed_eq_zero _).mp hz i)

end PacketIntercept.Csum
