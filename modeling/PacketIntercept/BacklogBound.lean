import PacketIntercept.CacheQueue
import PacketIntercept.Delivery

namespace PacketIntercept.BacklogBound

open ByteMemory CyclicSlots Common LogBuffs RxHandler ReadProc TrackedCache HandOver CacheContents
open CacheQueue Client Delivery Runs

def IsValidOp : Op → Prop
  | .packet _ pkt => IsValidPacket pkt
  | .read _ _ _ => True

/-- Behind the slot at current_index a client payload needs seven more, or as
many as there are up to the end of the cache. A full cache drops the frame. -/
def Room (c : Cache) : Op → Prop
  | .packet _ _ => (queue c).length = maxPkt ∨
      (queue c).length + min 7 (maxPkt - 1 - c.module.currentIndex.val) < maxPkt
  | .read _ _ _ => True

/-- A read hands over the beginnings of the oldest packets. -/
def DeliversIntact (c : Cache) : Op → Prop
  | .packet _ _ => True
  | .read len off ok => ∀ buf, (read len off ok c.module).copied = some buf →
      ∀ j p, ((queue c).take pktsPerBuffer)[j]? = some p →
        ∃ pkt, c.stored[p]? = some pkt ∧ PrefixAt pkt buf (j * pktBufferSize)

/-- The cache between two calls, as the interleaved system sees it. -/
def atRest (c : Cache) : System := ⟨c, .idle, [], []⟩

structure Sound (c : Cache) : Prop where
  inv : CacheQueue.Inv c
  valid : ∀ pkt ∈ c.stored, IsValidPacket pkt
  contents : Contents (atRest c)
  unharmed : Unharmed (atRest c)

theorem Sound.keeps {c : Cache} (h : Sound c) : KeepsPackets c :=
  (keepsPackets_iff (s := atRest c) h.contents h.valid).mpr h.unharmed.slots

theorem sound_empty (log : Log) (outside : Mem) : Sound (Cache.empty log outside) where
  inv := inv_empty log outside
  valid := fun _ h => absurd h List.not_mem_nil
  contents := contents_start log outside
  unharmed := unharmed_start log outside

theorem sound_arrive {c : Cache} {pkt : Skb} (h : Sound c) (now : Nat) (hv : IsValidPacket pkt)
    (hsp : Spaced pkt c.module) : Sound (c.arrive now pkt) where
  inv := inv_arrive h.inv now pkt
  valid := by
    intro pkt' hm
    obtain ⟨p, hp⟩ := List.getElem?_of_mem hm
    rcases stored_arrive hp with hold | ⟨rfl, _⟩
    · exact h.valid pkt' (List.mem_of_getElem? hold)
    · exact hv
  contents := by
    obtain ⟨uid, created, hc, _⟩ := hv
    exact contents_packet h.contents now hc
  unharmed := unharmed_packet h.unharmed now hv hsp

/-- Slots that stay occupied through a read keep their bytes. -/
theorem read_keeps_slots (len : Nat) (off : BitVec 64) (ok : Bool) (m : Module) {i : Slot}
    (hi : (read len off ok m).module.status i = true) :
    m.status i = true ∧ ∀ b, b < pktBufferSize →
      (read len off ok m).module.buffFromHere (i.val * pktBufferSize + b) =
        m.buffFromHere (i.val * pktBufferSize + b) := by
  rcases read_cases len off ok m with ⟨_, hm, _⟩ | ⟨_, _, _, temp, hm⟩ |
    ⟨_, _, temp, cache, _, hm, _, hcache⟩
  · rw [hm] at hi ⊢
    exact ⟨hi, fun _ _ => rfl⟩
  · rw [hm] at hi ⊢
    exact ⟨hi, fun _ _ => rfl⟩
  · rw [hm] at hi ⊢
    simp only [clear] at hi ⊢
    split at hi
    next => cases hi
    next hnot => exact ⟨hi, fun b hb => (hcache i b hb).2 hnot⟩

theorem sound_read {c : Cache} (h : Sound c) (len : Nat) (off : BitVec 64) (ok : Bool) :
    Sound (stepOp c (.read len off ok)) where
  inv := inv_stepOp c (.read len off ok) h.inv
  valid := h.valid
  contents := by
    refine ⟨fun i hi => ?_, fun l hl => by cases hl⟩
    obtain ⟨hs, hb⟩ := read_keeps_slots len off ok c.module hi
    exact (h.contents.slots i hs).congr hb
  unharmed := by
    refine ⟨fun i hi => ?_, fun l hl => by cases hl⟩
    obtain ⟨hs, hb⟩ := read_keeps_slots len off ok c.module hi
    have h0 := hb 0 (by decide)
    rw [Nat.add_zero] at h0
    exact fun hz => h.unharmed.slots i hs (h0.symm.trans hz)

theorem spaced_iff_room {c : Cache} (h : CacheQueue.Inv c) (now : Nat) {pkt : Skb}
    (hp : pkt.passesFilter = true) : Spaced pkt c.module ↔ Room c (.packet now pkt) := by
  have hb := h.backlog_length
  have hci := c.module.currentIndex.isLt
  rcases Nat.lt_or_eq_of_le h.length_le with hlt | hfull
  · have hclaim := h.claimedSlot_eq hlt hp
    -- a slot behind current_index is as many shifts away from it
    have hstatus (j : Slot) (hj : c.module.currentIndex.val < j.val) :
        c.module.status j = decide (maxPkt - (queue c).length ≤ j.val - c.module.currentIndex.val) := by
      have hj' : shift c.module.currentIndex (j.val - c.module.currentIndex.val) = j := by
        apply Fin.ext
        simp only [shift]
        rw [Nat.add_sub_cancel' (Nat.le_of_lt hj), Nat.mod_eq_of_lt j.isLt]
      have hocc := hb.occ_shift (j.val - c.module.currentIndex.val) (by omega)
      rwa [hj'] at hocc
    constructor
    · intro hsp
      right
      by_cases hd : min 7 (maxPkt - 1 - c.module.currentIndex.val) = 0
      · rw [hd]
        exact hlt
      · have hpos : c.module.currentIndex.val <
            c.module.currentIndex.val + min 7 (maxPkt - 1 - c.module.currentIndex.val) := by omega
        have hend : c.module.currentIndex.val +
            min 7 (maxPkt - 1 - c.module.currentIndex.val) < maxPkt := by omega
        have hfree := hsp _ hclaim ⟨_, hend⟩ hpos (by
          simp only [pktBufferSize, sizeofPayload]
          omega)
        rw [hstatus _ hpos, decide_eq_false_iff_not, Nat.add_sub_cancel_left] at hfree
        omega
    · rintro (hfull | hroom) i hi j hij hj
      · omega
      · rw [hclaim, Option.some.injEq] at hi
        subst i
        rw [hstatus j hij, decide_eq_false_iff_not]
        have hjlt := j.isLt
        simp only [pktBufferSize, sizeofPayload] at hj
        omega
  · have hnone : claimedSlot pkt c.module = none := by
      rw [claimedSlot, if_pos hp, freeSlot_eq_none]
      exact h.full_iff.mp hfull
    constructor
    · exact fun _ => .inl hfull
    · intro _ i hi
      rw [hnone] at hi
      cases hi

theorem sound_step (c : Cache) (op : Op) (hv : IsValidOp op) (hroom : Room c op) (h : Sound c) :
    Sound (stepOp c op) := by
  cases op with
  | packet now pkt =>
      have hp : pkt.passesFilter = true := by
        obtain ⟨uid, created, hc, _⟩ := id hv
        exact hc.passesFilter
      exact sound_arrive h now hv ((spaced_iff_room h.inv now hp).mpr hroom)
  | read len off ok => exact sound_read h len off ok

theorem room_iff_keeps (c : Cache) (op : Op) (hv : IsValidOp op) (h : Sound c) :
    Room c op ↔ KeepsPackets (stepOp c op) := by
  constructor
  · exact fun hroom => (sound_step c op hv hroom h).keeps
  · intro hk
    cases op with
    | packet now pkt =>
        have hp : pkt.passesFilter = true := by
          obtain ⟨uid, created, hc, _⟩ := id hv
          exact hc.passesFilter
        exact (spaced_iff_room h.inv now hp).mp (spaced_of_keeps hv h.valid hk)
    | read len off ok => trivial

theorem deliversIntact (c : Cache) (op : Op) (h : Sound c) : DeliversIntact c op := by
  cases op with
  | packet now pkt => trivial
  | read len off ok =>
      intro buf hbuf j p hp
      by_cases hno : ok = false ∨ bufferSize ≤ off.toNat
      · rw [(read_keeps len off ok c.module hno).1] at hbuf
        cases hbuf
      · obtain ⟨rfl, ho⟩ := takes_of_not_keeps hno
        obtain ⟨buf', cache, hc, _, hrec, _⟩ := read_takes c len ho
        rw [hc, Option.some.injEq] at hbuf
        subst buf'
        obtain ⟨i, hi, rfl, hb⟩ := hrec j p hp
        obtain ⟨pkt, hst, hpre⟩ := h.keeps i hi
        exact ⟨pkt, hst, fun b hlt => (hb b hlt).trans (hpre b hlt)⟩

/-- In every sequence of client frames and whole reads the waiting packets stay
undamaged exactly if at each arrival the backlog leaves room for the payload,
and then every read hands over undamaged beginnings of the oldest packets. -/
theorem intact_iff_backlog_leaves_room (log : Log) (outside : Mem) (ops : List Op)
    (hvalid : ∀ op ∈ ops, IsValidOp op) :
    (Along stepOp (fun c op => KeepsPackets (stepOp c op)) (Cache.empty log outside) ops ↔
      Along stepOp Room (Cache.empty log outside) ops) ∧
    (Along stepOp Room (Cache.empty log outside) ops →
      Along stepOp DeliversIntact (Cache.empty log outside) ops) := by
  have hempty := sound_empty log outside
  refine ⟨(along_congr sound_step room_iff_keeps hempty ops hvalid).symm, fun hroom => ?_⟩
  exact along_imp sound_step (fun c op _ _ h => deliversIntact c op h) hempty ops hvalid hroom

theorem length_queue_stepOp {c : Cache} (h : CacheQueue.Inv c) {op : Op} (hv : IsValidOp op) :
    (queue (stepOp c op)).length ≤ (queue c).length + 1 := by
  cases op with
  | packet now pkt =>
      obtain ⟨_, _, hc, _⟩ := id hv
      rw [(packet_refines h now hc.passesFilter).1, push]
      split
      · rw [List.length_append, List.length_singleton]
      · exact Nat.le_succ _
  | read len off ok =>
      by_cases hno : ok = false ∨ bufferSize ≤ off.toNat
      · obtain ⟨_, temp, hm⟩ := read_keeps len off ok c.module hno
        have hq : queue (stepOp c (.read len off ok)) = queue c := by
          simp only [queue, stepOp, hm]
        rw [hq]
        exact Nat.le_succ _
      · obtain ⟨rfl, ho⟩ := takes_of_not_keeps hno
        rw [(queue_read h len ho).1, pop, List.length_drop]
        omega

/-- Packets that are few enough all find room, whatever is read between them. -/
theorem room_of_few (ops : List Op) (hvalid : ∀ op ∈ ops, IsValidOp op) {c : Cache} (h : CacheQueue.Inv c)
    (hlen : (queue c).length + ops.length + 7 ≤ maxPkt) : Along stepOp Room c ops := by
  induction ops generalizing c with
  | nil => trivial
  | cons op ops ih =>
      have hstep := length_queue_stepOp h (hvalid op (by simp))
      rw [List.length_cons] at hlen
      refine ⟨?_, ih (fun o ho => hvalid o (by simp [ho])) (inv_stepOp c op h) (by omega)⟩
      cases op with
      | packet now pkt => exact .inr (by omega)
      | read len off ok => trivial

def twoThenOne : List Op :=
  [.packet 4 (clientSkb 7 3), .packet 6 (clientSkb 8 5), .read 4096 0 false, .read 4096 0 true,
    .packet 9 (clientSkb 9 8), .read 4096 4096 true, .read 4096 0 true, .read 4096 0 true]

/-- Two packets that wait together, and a third one after they were read. -/
theorem intact_of_backlog_two :
    Along stepOp DeliversIntact (Cache.empty (fun _ _ => 0) fun _ => 255) twoThenOne := by
  have hvalid : ∀ op ∈ twoThenOne, IsValidOp op := by
    intro op hop
    simp only [twoThenOne, List.mem_cons, List.not_mem_nil, or_false] at hop
    rcases hop with rfl | rfl | rfl | rfl | rfl | rfl | rfl | rfl
    · exact clientSkb_isValidPacket (by decide) (by decide) (by decide)
    · exact clientSkb_isValidPacket (by decide) (by decide) (by decide)
    · trivial
    · trivial
    · exact clientSkb_isValidPacket (by decide) (by decide) (by decide)
    · trivial
    · trivial
    · trivial
  refine (intact_iff_backlog_leaves_room (fun _ _ => 0) (fun _ => 255) twoThenOne hvalid).2 ?_
  have hq : queue (Cache.empty (fun _ _ => 0) fun _ => 255) = [] := by
    simp [queue, Cache.empty, loaded, occupied]
  exact room_of_few twoThenOne hvalid (inv_empty _ _) (by rw [hq]; decide)

end PacketIntercept.BacklogBound
