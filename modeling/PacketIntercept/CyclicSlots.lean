import Mathlib.Data.List.Nodup
import Mathlib.Data.Nat.ModEq
import Mathlib.Logic.Function.Iterate

namespace PacketIntercept.CyclicSlots

variable {n : Nat} {α : Type}

def shift (i : Fin n) (k : Nat) : Fin n := ⟨(i.val + k) % n, Nat.mod_lt _ i.pos⟩

/-- The k slots met when walking round the ring from slot i. -/
def arc (i : Fin n) : Nat → List (Fin n)
  | 0 => []
  | k + 1 => i :: arc (shift i 1) k

@[simp] theorem shift_zero (i : Fin n) : shift i 0 = i := by
  apply Fin.ext
  simp [shift, Nat.mod_eq_of_lt i.isLt]

@[simp] theorem shift_shift (i : Fin n) (a b : Nat) : shift (shift i a) b = shift i (a + b) := by
  apply Fin.ext
  simp [shift, Nat.add_assoc]

theorem shift_full (i : Fin n) : shift i n = i := by
  apply Fin.ext
  simp [shift, Nat.mod_eq_of_lt i.isLt]

theorem shift_inj (i : Fin n) {a b : Nat} (ha : a < n) (hb : b < n) (h : shift i a = shift i b) :
    a = b := by
  have hv : (i.val + a) % n = (i.val + b) % n := congrArg Fin.val h
  have hm : a ≡ b [MOD n] := Nat.ModEq.add_left_cancel' i.val hv
  rwa [Nat.ModEq, Nat.mod_eq_of_lt ha, Nat.mod_eq_of_lt hb] at hm

theorem exists_shift (i s : Fin n) : ∃ j, j < n ∧ shift i j = s := by
  by_cases h : i.val ≤ s.val
  · refine ⟨s.val - i.val, by omega, Fin.ext ?_⟩
    simp [shift, Nat.add_sub_cancel' h, Nat.mod_eq_of_lt s.isLt]
  · refine ⟨n - i.val + s.val, by omega, Fin.ext ?_⟩
    have he : i.val + (n - i.val + s.val) = s.val + n := by omega
    simp [shift, he, Nat.mod_eq_of_lt s.isLt]

theorem arc_eq_map (i : Fin n) (k : Nat) : arc i k = (List.range k).map (shift i) := by
  induction k generalizing i with
  | zero => rfl
  | succ k ih =>
      rw [arc, ih, List.range_succ_eq_map]
      simp [List.map_map, Function.comp_def, Nat.add_comm]

theorem arc_append (i : Fin n) (a b : Nat) : arc i (a + b) = arc i a ++ arc (shift i a) b := by
  induction a generalizing i with
  | zero => simp [arc]
  | succ a ih =>
      rw [show a + 1 + b = a + b + 1 by omega, arc, ih, arc, shift_shift, Nat.add_comm 1 a]
      rfl

theorem arc_succ (i : Fin n) (k : Nat) : arc i (k + 1) = arc i k ++ [shift i k] := by
  rw [arc_append]
  rfl

@[simp] theorem length_arc (i : Fin n) (k : Nat) : (arc i k).length = k := by
  simp [arc_eq_map]

theorem mem_arc {i s : Fin n} {k : Nat} : s ∈ arc i k ↔ ∃ j, j < k ∧ shift i j = s := by
  simp [arc_eq_map]

theorem mem_arc_full (i s : Fin n) : s ∈ arc i n := mem_arc.mpr (exists_shift i s)

theorem arc_nodup (i : Fin n) {k : Nat} (hk : k ≤ n) : (arc i k).Nodup := by
  rw [arc_eq_map]
  apply List.Nodup.map_on _ List.nodup_range
  intro a ha b hb h
  rw [List.mem_range] at ha hb
  exact shift_inj i (Nat.lt_of_lt_of_le ha hk) (Nat.lt_of_lt_of_le hb hk) h

theorem shift_notMem_arc (i : Fin n) {k : Nat} (hk : k < n) : shift i k ∉ arc i k := by
  have h := arc_nodup i (Nat.succ_le_of_lt hk)
  rw [Nat.succ_eq_add_one, arc_succ] at h
  exact fun hm => (List.nodup_append.mp h).2.2 _ hm _ (by simp) rfl

/-- The slots marked in occ, in the order a walk round the ring from i meets them. -/
def occupied (occ : Fin n → Bool) (i : Fin n) : List (Fin n) := (arc i n).filter occ

theorem mem_occupied {occ : Fin n → Bool} {i s : Fin n} : s ∈ occupied occ i ↔ occ s = true := by
  simp [occupied, mem_arc_full]

/-- The occupied slots are the len slots directly before i, so a walk from i
meets all free slots first and then the occupied ones. -/
structure Backlog (occ : Fin n → Bool) (i : Fin n) (len : Nat) : Prop where
  len_le : len ≤ n
  occ_shift : ∀ j, j < n → occ (shift i j) = decide (n - len ≤ j)

theorem Backlog.occupied_eq {occ : Fin n → Bool} {i : Fin n} {len : Nat} (h : Backlog occ i len) :
    occupied occ i = arc (shift i (n - len)) len := by
  have hn : arc i n = arc i (n - len) ++ arc (shift i (n - len)) len := by
    rw [← arc_append, Nat.sub_add_cancel h.len_le]
  have hfree : (arc i (n - len)).filter occ = [] := by
    rw [List.filter_eq_nil_iff]
    intro s hs
    obtain ⟨j, hj, rfl⟩ := mem_arc.mp hs
    rw [h.occ_shift j (by omega), decide_eq_true_iff]
    omega
  have hocc : (arc (shift i (n - len)) len).filter occ = arc (shift i (n - len)) len := by
    rw [List.filter_eq_self]
    intro s hs
    obtain ⟨j, hj, rfl⟩ := mem_arc.mp hs
    have hl := h.len_le
    rw [shift_shift, h.occ_shift _ (by omega)]
    simp
  rw [occupied, hn, List.filter_append, hfree, hocc, List.nil_append]

theorem Backlog.length_occupied {occ : Fin n → Bool} {i : Fin n} {len : Nat}
    (h : Backlog occ i len) : (occupied occ i).length = len := by
  rw [h.occupied_eq, length_arc]

theorem backlog_empty (i : Fin n) : Backlog (fun _ => false) i 0 :=
  ⟨Nat.zero_le n, fun j hj => by simp [hj]⟩

theorem Backlog.free {occ : Fin n → Bool} {i : Fin n} {len : Nat} (h : Backlog occ i len)
    (hlen : len < n) : occ i = false := by
  have h0 := h.occ_shift 0 i.pos
  rw [shift_zero] at h0
  rw [h0, decide_eq_false_iff_not]
  omega

theorem Backlog.full_iff {occ : Fin n → Bool} {i : Fin n} {len : Nat} (h : Backlog occ i len) :
    len = n ↔ ∀ s, occ s = true := by
  constructor
  · intro hl s
    obtain ⟨j, hj, rfl⟩ := exists_shift i s
    rw [h.occ_shift j hj, hl]
    simp
  · intro hall
    by_contra hne
    have hl := h.len_le
    have hf := h.free (by omega)
    rw [hall i] at hf
    exact Bool.noConfusion hf

theorem Backlog.push {occ : Fin n → Bool} {i : Fin n} {len : Nat} (h : Backlog occ i len)
    (hlen : len < n) : Backlog (Function.update occ i true) (shift i 1) (len + 1) := by
  refine ⟨hlen, fun j hj => ?_⟩
  rw [shift_shift]
  by_cases hl : 1 + j = n
  · rw [hl, shift_full, Function.update_self, eq_comm, decide_eq_true_iff]
    omega
  · have hne : shift i (1 + j) ≠ i := by
      intro he
      have h0 : 1 + j = 0 := shift_inj i (by omega) i.pos (he.trans (shift_zero i).symm)
      omega
    rw [Function.update_of_ne hne, h.occ_shift _ (by omega), decide_eq_decide]
    omega

theorem Backlog.occupied_push {occ : Fin n → Bool} {i : Fin n} {len : Nat}
    (h : Backlog occ i len) (hlen : len < n) :
    occupied (Function.update occ i true) (shift i 1) = occupied occ i ++ [i] := by
  have hr : shift (shift i (n - len)) len = i := by
    rw [shift_shift, Nat.sub_add_cancel h.len_le, shift_full]
  rw [(h.push hlen).occupied_eq, h.occupied_eq, shift_shift,
    show 1 + (n - (len + 1)) = n - len by omega, arc_succ, hr]

def clear (occ : Fin n → Bool) (l : List (Fin n)) : Fin n → Bool :=
  fun s => if s ∈ l then false else occ s

@[simp] theorem clear_nil (occ : Fin n → Bool) : clear occ [] = occ := by
  funext s
  simp [clear]

/-- Freeing the first k slots of the walk shortens the backlog at its old end. -/
theorem Backlog.clear {occ : Fin n → Bool} {i : Fin n} {len : Nat} (h : Backlog occ i len)
    (k : Nat) (hk : k ≤ len) : Backlog (clear occ ((occupied occ i).take k)) i (len - k) := by
  have hl := h.len_le
  refine ⟨by omega, fun j hj => ?_⟩
  have ht : (occupied occ i).take k = arc (shift i (n - len)) k := by
    rw [h.occupied_eq, show len = k + (len - k) by omega, arc_append,
      List.take_left' (length_arc _ _)]
  rw [CyclicSlots.clear, ht]
  by_cases hm : shift i j ∈ arc (shift i (n - len)) k
  · rw [if_pos hm, eq_comm, decide_eq_false_iff_not]
    obtain ⟨a, ha, he⟩ := mem_arc.mp hm
    rw [shift_shift] at he
    have hj' := shift_inj i (by omega) hj he
    omega
  · rw [if_neg hm, h.occ_shift j hj, decide_eq_decide]
    constructor
    · intro hge
      by_contra hlt
      apply hm
      refine mem_arc.mpr ⟨j - (n - len), by omega, ?_⟩
      rw [shift_shift, Nat.add_sub_cancel' hge]
    · intro hge
      omega

theorem Backlog.occupied_clear {occ : Fin n → Bool} {i : Fin n} {len : Nat}
    (h : Backlog occ i len) (k : Nat) (hk : k ≤ len) :
    occupied (CyclicSlots.clear occ ((occupied occ i).take k)) i = (occupied occ i).drop k := by
  have hl := h.len_le
  rw [(h.clear k hk).occupied_eq, h.occupied_eq, show n - (len - k) = n - len + k by omega,
    ← shift_shift, show len = k + (len - k) by omega, arc_append, Nat.add_sub_cancel_left]
  rw [show k + (len - k) = len by omega, List.drop_left' (length_arc _ _)]

section Queue

/-- A full queue drops what arrives. -/
def push (cap : Nat) (x : α) (q : List α) : List α := if q.length < cap then q ++ [x] else q

def pop (k : Nat) (q : List α) : List α := q.drop k

theorem push_of_lt {cap : Nat} {q : List α} (h : q.length < cap) (x : α) :
    push cap x q = q ++ [x] := if_pos h

theorem push_of_full {cap : Nat} {q : List α} (h : q.length = cap) (x : α) : push cap x q = q :=
  if_neg (by omega)

theorem pop_min (k : Nat) (q : List α) : pop (min k q.length) q = pop k q := by
  rw [pop, pop]
  rcases Nat.le_total k q.length with hle | hle
  · rw [Nat.min_eq_left hle]
  · rw [Nat.min_eq_right hle, List.drop_length, List.drop_eq_nil_of_le hle]

theorem pop_iterate (k n : Nat) (q : List α) : (pop k)^[n] q = q.drop (n * k) := by
  induction n with
  | zero => simp
  | succ n ih => rw [Function.iterate_succ_apply', ih, pop, List.drop_drop, Nat.succ_mul]

/-- Taking k at a time empties a queue in as many rounds as its length over k,
rounded up. -/
theorem pop_iterate_drains (k : Nat) (hk : 0 < k) (q : List α) :
    (pop k)^[(q.length + k - 1) / k] q = [] := by
  rw [pop_iterate]
  apply List.drop_eq_nil_of_le
  have h := Nat.lt_div_mul_add (a := q.length + k - 1) hk
  omega

end Queue

end PacketIntercept.CyclicSlots
