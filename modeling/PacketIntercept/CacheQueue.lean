import PacketIntercept.TrackedCache

namespace PacketIntercept.CacheQueue

open ByteMemory CyclicSlots Common LogBuffs RxHandler ReadProc TrackedCache Runs

inductive Op
  | packet (now : Nat) (pkt : Skb)
  | read (len : Nat) (off : BitVec 64) (ok : Bool)

def stepOp (c : Cache) : Op → Cache
  | .packet now pkt => c.arrive now pkt
  | .read len off ok => { c with module := (read len off ok c.module).module }

/-- The queue the cache stands for: the packets met when walking round the ring
from current_index. -/
def queue (c : Cache) : List Nat :=
  (occupied c.module.status c.module.currentIndex).map c.owner

/-- The occupied slots end directly before current_index, in order of arrival. -/
structure Inv (c : Cache) : Prop where
  owned : Owned c
  backlog : ∃ len, Backlog c.module.status c.module.currentIndex len
  sorted : (queue c).Pairwise (· < ·)

theorem queue_lt {c : Cache} (h : Owned c) {p : Nat} (hp : p ∈ queue c) : p < c.stored.length := by
  obtain ⟨i, hi, rfl⟩ := List.mem_map.mp hp
  exact h.owner_lt i (mem_occupied.mp hi)

theorem Inv.backlog_length {c : Cache} (h : Inv c) :
    Backlog c.module.status c.module.currentIndex (queue c).length := by
  obtain ⟨len, hb⟩ := h.backlog
  have hl : (queue c).length = len := by rw [queue, List.length_map, hb.length_occupied]
  rwa [hl]

theorem Inv.length_le {c : Cache} (h : Inv c) : (queue c).length ≤ maxPkt := h.backlog_length.len_le

theorem Inv.full_iff {c : Cache} (h : Inv c) :
    (queue c).length = maxPkt ↔ ∀ i, c.module.status i = true := h.backlog_length.full_iff

theorem Inv.claimedSlot_eq {c : Cache} (h : Inv c) (hlen : (queue c).length < maxPkt) {pkt : Skb}
    (hp : pkt.passesFilter = true) :
    claimedSlot pkt c.module = some c.module.currentIndex := by
  rw [claimedSlot, if_pos hp]
  exact freeSlot_of_free (h.backlog_length.free hlen)

theorem Inv.arrive_claims {c : Cache} (h : Inv c) (hlen : (queue c).length < maxPkt) (now : Nat)
    {pkt : Skb} (hp : pkt.passesFilter = true) :
    (c.arrive now pkt).owner = Function.update c.owner c.module.currentIndex c.stored.length ∧
      (c.arrive now pkt).module.status =
        Function.update c.module.status c.module.currentIndex true ∧
      (c.arrive now pkt).module.currentIndex = shift c.module.currentIndex 1 ∧
      (c.arrive now pkt).module.buffFromHere = memcpy c.module.buffFromHere
        (c.module.currentIndex.val * pktBufferSize) (fun b => pkt.data (28 + b)) pkt.copyLen := by
  have hc := h.claimedSlot_eq hlen hp
  rcases arrive_cases now pkt c with ⟨hn, _⟩ | ⟨i, hi, _, _, ho, hs, hci, hb⟩
  · rw [hc] at hn
    cases hn
  · rw [hc, Option.some.injEq] at hi
    subst i
    exact ⟨ho, hs, hci, hb⟩

theorem queue_arrive {c : Cache} (h : Inv c) (hlen : (queue c).length < maxPkt) (now : Nat)
    {pkt : Skb} (hp : pkt.passesFilter = true) :
    queue (c.arrive now pkt) = queue c ++ [c.stored.length] := by
  have hfree := h.backlog_length.free hlen
  obtain ⟨ho, hs, hci, _⟩ := h.arrive_claims hlen now hp
  have hold : (occupied c.module.status c.module.currentIndex).map
      (Function.update c.owner c.module.currentIndex c.stored.length) = queue c := by
    apply List.map_congr_left
    intro j hj
    apply Function.update_of_ne
    rintro rfl
    rw [mem_occupied, hfree] at hj
    exact Bool.noConfusion hj
  rw [queue, hs, hci, ho, h.backlog_length.occupied_push hlen, List.map_append, hold]
  simp

theorem arrive_dropped {c : Cache} {pkt : Skb} (hc : claimedSlot pkt c.module = none) (now : Nat) :
    (c.arrive now pkt).stored = c.stored ∧ (c.arrive now pkt).owner = c.owner ∧
      (c.arrive now pkt).module.status = c.module.status ∧
      (c.arrive now pkt).module.currentIndex = c.module.currentIndex := by
  rcases arrive_cases now pkt c with ⟨_, hst, ho, hs, hci, _⟩ | ⟨i, hi, _⟩
  · exact ⟨hst, ho, hs, hci⟩
  · rw [hc] at hi
    cases hi

theorem inv_empty (log : Log) (outside : Mem) : Inv (Cache.empty log outside) where
  owned := owned_empty log outside
  backlog := ⟨0, backlog_empty _⟩
  sorted := by
    have hq : queue (Cache.empty log outside) = [] := by
      simp [queue, Cache.empty, loaded, occupied]
    rw [hq]
    exact List.Pairwise.nil

theorem inv_arrive {c : Cache} (h : Inv c) (now : Nat) (pkt : Skb) : Inv (c.arrive now pkt) := by
  by_cases hc : claimedSlot pkt c.module = none
  · obtain ⟨_, ho, hs, hci⟩ := arrive_dropped hc now
    refine ⟨owned_arrive h.owned now pkt, ?_, ?_⟩
    · rw [hs, hci]
      exact h.backlog
    · rw [queue, hs, hci, ho]
      exact h.sorted
  · have hp : pkt.passesFilter = true := by
      by_contra hp
      exact hc (by simp [claimedSlot, hp])
    have hlen : (queue c).length < maxPkt := by
      apply Nat.lt_of_le_of_ne h.length_le
      intro hfull
      exact hc (by rw [claimedSlot, if_pos hp, freeSlot_eq_none]; exact h.full_iff.mp hfull)
    refine ⟨owned_arrive h.owned now pkt, ⟨(queue c).length + 1, ?_⟩, ?_⟩
    · obtain ⟨_, hs, hci, _⟩ := h.arrive_claims hlen now hp
      rw [hs, hci]
      exact h.backlog_length.push hlen
    · rw [queue_arrive h hlen now hp, List.pairwise_append]
      refine ⟨h.sorted, List.pairwise_singleton _ _, fun p hp q hq => ?_⟩
      rw [List.mem_singleton.mp hq]
      exact queue_lt h.owned hp

/-- What a successful read takes out of the cache: the oldest packets, in order. -/
theorem read_takes (c : Cache) (len : Nat) {off : BitVec 64}
    (ho : off.toNat < bufferSize) :
    ∃ buf cache, (read len off true c.module).copied = some buf ∧
      (read len off true c.module).module =
        { c.module with
          buffTemp := buf
          status := clear c.module.status
            ((occupied c.module.status c.module.currentIndex).take pktsPerBuffer)
          buffFromHere := cache } ∧
      (∀ j p, ((queue c).take pktsPerBuffer)[j]? = some p → ∃ i, c.module.status i = true ∧
        c.owner i = p ∧ ∀ b, b < pktBufferSize → buf (j * pktBufferSize + b) =
          c.module.buffFromHere (i.val * pktBufferSize + b)) ∧
      Cleared ((occupied c.module.status c.module.currentIndex).take pktsPerBuffer)
        c.module.buffFromHere cache := by
  rcases read_cases len off true c.module with ⟨hge, _⟩ | ⟨_, hf, _⟩ |
    ⟨_, _, buf, cache, hcopied, hm, hrec, hcache⟩
  · omega
  · cases hf
  · refine ⟨buf, cache, hcopied, hm, fun j p hp => ?_, hcache⟩
    rw [queue, ← List.map_take, List.getElem?_map, Option.map_eq_some_iff] at hp
    obtain ⟨i, hi, rfl⟩ := hp
    have hmem := List.mem_of_mem_take (List.mem_of_getElem? hi)
    exact ⟨i, mem_occupied.mp hmem, rfl, hrec j i hi⟩

theorem queue_read {c : Cache} (h : Inv c) (len : Nat) {off : BitVec 64}
    (ho : off.toNat < bufferSize) :
    queue (stepOp c (.read len off true)) = CyclicSlots.pop pktsPerBuffer (queue c) ∧
      Inv (stepOp c (.read len off true)) := by
  obtain ⟨buf, cache, _, hm, _⟩ := read_takes c len ho
  have hb := h.backlog_length
  have hocc := hb.length_occupied
  let k := min pktsPerBuffer (queue c).length
  have htake : (occupied c.module.status c.module.currentIndex).take pktsPerBuffer =
      (occupied c.module.status c.module.currentIndex).take k := by
    rw [List.take_eq_take_iff, hocc]
    omega
  have hclear := hb.occupied_clear k (by omega)
  have hq : queue (stepOp c (.read len off true)) = CyclicSlots.pop pktsPerBuffer (queue c) := by
    rw [← CyclicSlots.pop_min, CyclicSlots.pop]
    simp only [queue, stepOp, hm, htake, hclear, List.map_drop]
    rw [List.length_map, hocc]
  refine ⟨hq, ?_, ⟨(queue c).length - k, ?_⟩, ?_⟩
  · apply owned_of_status_le h.owned
    intro i hi
    simp only [hm, htake, clear] at hi
    split at hi
    · exact Bool.noConfusion hi
    · exact hi
  · simp only [stepOp, hm, htake]
    exact hb.clear k (by omega)
  · rw [hq, CyclicSlots.pop]
    exact h.sorted.drop

theorem read_keeps (len : Nat) (off : BitVec 64) (ok : Bool) (m : Module)
    (h : ok = false ∨ bufferSize ≤ off.toNat) :
    (read len off ok m).copied = none ∧
      ∃ temp, (read len off ok m).module = { m with buffTemp := temp } := by
  rcases read_cases len off ok m with ⟨_, hm, hc⟩ | ⟨_, _, hc, hm⟩ | ⟨hlt, hok, _⟩
  · exact ⟨hc, m.buffTemp, hm⟩
  · exact ⟨hc, hm⟩
  · rcases h with hf | hge
    · rw [hf] at hok
      cases hok
    · omega

theorem takes_of_not_keeps {off : BitVec 64} {ok : Bool}
    (h : ¬ (ok = false ∨ bufferSize ≤ off.toNat)) : ok = true ∧ off.toNat < bufferSize := by
  rw [not_or, Bool.not_eq_false, Nat.not_le] at h
  exact h

theorem inv_stepOp (c : Cache) (op : Op) (h : Inv c) : Inv (stepOp c op) := by
  cases op with
  | packet now pkt => exact inv_arrive h now pkt
  | read len off ok =>
      by_cases hno : ok = false ∨ bufferSize ≤ off.toNat
      · obtain ⟨_, temp, hm⟩ := read_keeps len off ok c.module hno
        simp only [stepOp, hm]
        exact ⟨owned_of_status_le h.owned (fun i hi => hi), h.backlog, h.sorted⟩
      · obtain ⟨rfl, ho⟩ := takes_of_not_keeps hno
        exact (queue_read h len ho).2

theorem inv_run (log : Log) (outside : Mem) (ops : List Op) :
    Inv (run stepOp (Cache.empty log outside) ops) :=
  run_invariant (inv_empty log outside) inv_stepOp ops

theorem queue_reads {c : Cache} (h : Inv c) (reads : List (Nat × BitVec 64))
    (ho : ∀ r ∈ reads, r.2.toNat < bufferSize) :
    queue (run stepOp c (reads.map fun r => .read r.1 r.2 true)) =
      (CyclicSlots.pop pktsPerBuffer)^[reads.length] (queue c) := by
  induction reads generalizing c with
  | nil => rfl
  | cons r reads ih =>
      obtain ⟨hq, hi⟩ := queue_read h r.1 (ho r (by simp))
      rw [List.map_cons, run_cons, ih hi (fun q hm => ho q (by simp [hm])), hq,
        List.length_cons, Function.iterate_succ_apply]

/-- The handler's side of the refinement: with room left a frame goes to the
tail, with none left it is dropped and counted. -/
theorem packet_refines {c : Cache} (h : Inv c) (now : Nat) {pkt : Skb}
    (hp : pkt.passesFilter = true) :
    queue (stepOp c (.packet now pkt)) = CyclicSlots.push maxPkt c.stored.length (queue c) ∧
    ((queue c).length < maxPkt → (stepOp c (.packet now pkt)).stored = c.stored ++ [pkt] ∧
      (stepOp c (.packet now pkt)).module.countPktOverflow = c.module.countPktOverflow) ∧
    ((queue c).length = maxPkt → (stepOp c (.packet now pkt)).stored = c.stored ∧
      (stepOp c (.packet now pkt)).module.status = c.module.status ∧
      (stepOp c (.packet now pkt)).module.currentIndex = c.module.currentIndex ∧
      (stepOp c (.packet now pkt)).module.countPktOverflow = c.module.countPktOverflow + 1) := by
  refine ⟨?_, fun hlt => ?_, fun hfull => ?_⟩
  · rcases Nat.lt_or_eq_of_le h.length_le with hlt | hfull
    · rw [CyclicSlots.push_of_lt hlt, stepOp, queue_arrive h hlt now hp]
    · have hc : claimedSlot pkt c.module = none := by
        rw [claimedSlot, if_pos hp, freeSlot_eq_none]
        exact h.full_iff.mp hfull
      obtain ⟨_, ho, hs, hci⟩ := arrive_dropped hc now
      rw [CyclicSlots.push_of_full hfull, stepOp, queue, ho, hs, hci, queue]
  · have hc := h.claimedSlot_eq hlt hp
    have hf : c.module.freeSlot = some c.module.currentIndex := by
      rwa [claimedSlot, if_pos hp] at hc
    constructor
    · simp only [stepOp, Cache.arrive, hc]
    · rcases rxhPacketIn_cases now pkt c.module with ⟨hp', _⟩ | ⟨_, hn, _⟩ | ⟨_, i, _, he⟩
      · rw [hp] at hp'
        cases hp'
      · rw [hf] at hn
        cases hn
      · simp only [stepOp, arrive_module, he, writeLog]
  · have hf : c.module.freeSlot = none := freeSlot_eq_none.mpr (h.full_iff.mp hfull)
    have hc : claimedSlot pkt c.module = none := by rw [claimedSlot, if_pos hp, hf]
    obtain ⟨hst, _, hs, hci⟩ := arrive_dropped hc now
    refine ⟨hst, hs, hci, ?_⟩
    rcases rxhPacketIn_cases now pkt c.module with ⟨hp', _⟩ | ⟨_, _, he⟩ | ⟨_, i, hi, _⟩
    · rw [hp] at hp'
      cases hp'
    · rw [stepOp, arrive_module, he]
    · rw [hf] at hi
      cases hi

/-- The cache is a bounded FIFO queue of the packets, named by their order of
arrival: arrivals are pushes, successful reads pop the oldest packets into
records 0, 1, and so on, and every other read leaves the queue as it is. -/
theorem cache_refines_fifo (log : Log) (outside : Mem) (ops : List Op) :
    let c := run stepOp (Cache.empty log outside) ops
    ((queue c).length ≤ maxPkt ∧ (queue c).Pairwise (· < ·) ∧
      ∀ p, p ∈ queue c ↔ c.cached p) ∧
    (∀ now pkt, pkt.passesFilter = true →
      queue (stepOp c (.packet now pkt)) = CyclicSlots.push maxPkt c.stored.length (queue c) ∧
      ((queue c).length < maxPkt → (stepOp c (.packet now pkt)).stored = c.stored ++ [pkt] ∧
        (stepOp c (.packet now pkt)).module.countPktOverflow = c.module.countPktOverflow) ∧
      ((queue c).length = maxPkt → (stepOp c (.packet now pkt)).stored = c.stored ∧
        (stepOp c (.packet now pkt)).module.status = c.module.status ∧
        (stepOp c (.packet now pkt)).module.currentIndex = c.module.currentIndex ∧
        (stepOp c (.packet now pkt)).module.countPktOverflow = c.module.countPktOverflow + 1) ∧
      ((stepOp c (.packet now pkt)).stored = c.stored ↔ ∀ i, c.module.status i = true)) ∧
    (∀ len off, off.toNat < bufferSize →
      queue (stepOp c (.read len off true)) =
        CyclicSlots.pop (min pktsPerBuffer (queue c).length) (queue c) ∧
      ∃ buf, (read len off true c.module).copied = some buf ∧
        ∀ j, j < min pktsPerBuffer (queue c).length → ∃ i, c.module.status i = true ∧
          (queue c)[j]? = some (c.owner i) ∧ ∀ b, b < pktBufferSize →
            buf (j * pktBufferSize + b) = c.module.buffFromHere (i.val * pktBufferSize + b)) ∧
    (∀ len off ok, ok = false ∨ bufferSize ≤ off.toNat →
      queue (stepOp c (.read len off ok)) = queue c ∧
      (read len off ok c.module).copied = none ∧
      (stepOp c (.read len off ok)).module.status = c.module.status ∧
      (stepOp c (.read len off ok)).module.currentIndex = c.module.currentIndex ∧
      (stepOp c (.read len off ok)).module.buffFromHere = c.module.buffFromHere) ∧
    (∀ reads : List (Nat × BitVec 64), (∀ r ∈ reads, r.2.toNat < bufferSize) →
      reads.length = ((queue c).length + pktsPerBuffer - 1) / pktsPerBuffer →
      queue (run stepOp c (reads.map fun r => .read r.1 r.2 true)) = []) := by
  intro c
  have h : Inv c := inv_run log outside ops
  refine ⟨⟨h.length_le, h.sorted, fun p => ?_⟩, fun now pkt hp => ?_, fun len off ho => ?_,
    fun len off ok hno => ?_, fun reads ho hlen => ?_⟩
  · simp [queue, Cache.cached, mem_occupied]
  · obtain ⟨hq, hroom, hfull⟩ := packet_refines h now hp
    refine ⟨hq, hroom, hfull, ?_⟩
    rw [← h.full_iff]
    constructor
    · intro hst
      by_contra hne
      have hcons := (hroom (Nat.lt_of_le_of_ne h.length_le hne)).1
      rw [hst] at hcons
      simp at hcons
    · exact fun hf => (hfull hf).1
  · refine ⟨(queue_read h len ho).1.trans (CyclicSlots.pop_min _ _).symm, ?_⟩
    obtain ⟨buf, _, hc, _, hrec, _⟩ := read_takes c len ho
    refine ⟨buf, hc, fun j hj => ?_⟩
    have hget : (queue c)[j]? = some ((queue c).get ⟨j, by omega⟩) := List.getElem?_eq_getElem _
    have htake : ((queue c).take pktsPerBuffer)[j]? = (queue c)[j]? :=
      List.getElem?_take_of_lt (by omega)
    obtain ⟨i, hi, hown, hb⟩ := hrec j _ (htake.trans hget)
    exact ⟨i, hi, by rw [hown]; exact hget, hb⟩
  · obtain ⟨hc, temp, hm⟩ := read_keeps len off ok c.module hno
    refine ⟨?_, hc, ?_, ?_, ?_⟩
    · simp only [queue, stepOp, hm]
    · simp only [stepOp, hm]
    · simp only [stepOp, hm]
    · simp only [stepOp, hm]
  · rw [queue_reads h reads ho, hlen]
    exact CyclicSlots.pop_iterate_drains pktsPerBuffer (by decide) (queue c)

end PacketIntercept.CacheQueue
