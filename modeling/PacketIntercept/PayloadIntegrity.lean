import PacketIntercept.CacheQueue
import PacketIntercept.Client

namespace PacketIntercept.PayloadIntegrity

open ByteMemory CyclicSlots Common LogBuffs RxHandler ReadProc TrackedCache CacheQueue Client Runs

def payloadLen (pkt : Skb) : Nat := pkt.udpLen - 8

/-- The first PKT_BUFFER_SIZE bytes of the payload, padded with zeros. -/
def padded (pkt : Skb) (b : Nat) : UInt8 := if b < payloadLen pkt then pkt.data (28 + b) else 0

/-- A frame with a 20-byte IPv4 header whose UDP length matches the bytes present. -/
structure WellFormed (pkt : Skb) : Prop where
  ihl : pkt.ihl = 5
  transportHeader : pkt.transportHeader = 20
  udpLen_ge : 8 ≤ pkt.udpLen
  len : pkt.len = 20 + pkt.udpLen

def OpWellFormed (_ : Cache) : Op → Prop
  | .packet _ pkt => WellFormed pkt
  | .read _ _ _ => True

def OpFits (c : Cache) : Op → Prop
  | .packet _ pkt => ∀ i, claimedSlot pkt c.module = some i → payloadLen pkt ≤ pktBufferSize
  | .read _ _ _ => True

/-- What an operation must do to the bytes of the cache: an arrival changes
bytes of the slot it claims only, and a read delivers in each record the payload
of the packet that claimed the slot. -/
def StepIntact (c : Cache) : Op → Prop
  | .packet now pkt => ∀ a,
      (stepOp c (.packet now pkt)).module.buffFromHere a ≠ c.module.buffFromHere a →
      ∃ i, claimedSlot pkt c.module = some i ∧ i.val * pktBufferSize ≤ a ∧
        a < i.val * pktBufferSize + pktBufferSize
  | .read len off ok => ∀ buf, (read len off ok c.module).copied = some buf →
      ∀ j p, ((queue c).take pktsPerBuffer)[j]? = some p → ∃ pkt, c.stored[p]? = some pkt ∧
        ∀ b, b < pktBufferSize → buf (j * pktBufferSize + b) = padded pkt b

theorem copyLen_eq {pkt : Skb} (h : WellFormed pkt) : pkt.copyLen = payloadLen pkt := by
  have hlt : pkt.udpLen < 2 ^ 16 := by
    have h1 := (pkt.data (pkt.transportHeader + 4)).toNat_lt
    have h2 := (pkt.data (pkt.transportHeader + 4 + 1)).toNat_lt
    rw [Skb.udpLen, be16]
    omega
  have hge := h.udpLen_ge
  rw [Skb.copyLen, payloadLen, show pkt.udpLen + 2 ^ 32 - 8 = pkt.udpLen - 8 + 2 ^ 32 by omega,
    Nat.add_mod_right, Nat.mod_eq_of_lt (by omega)]

structure Intact (c : Cache) : Prop where
  inv : Inv c
  clear : ∀ i, c.module.status i = false → ∀ b, b < pktBufferSize →
    c.module.buffFromHere (i.val * pktBufferSize + b) = 0
  content : ∀ i, c.module.status i = true → ∃ pkt, c.stored[c.owner i]? = some pkt ∧
    ∀ b, b < pktBufferSize → c.module.buffFromHere (i.val * pktBufferSize + b) = padded pkt b

theorem slot_in_cache (i : Slot) {b : Nat} (hb : b < pktBufferSize) :
    i.val * pktBufferSize + b < pktBufferSize * maxPkt := by
  calc i.val * pktBufferSize + b < i.val * pktBufferSize + pktBufferSize := by omega
    _ = (i.val + 1) * pktBufferSize := by rw [Nat.add_mul, Nat.one_mul]
    _ ≤ maxPkt * pktBufferSize := Nat.mul_le_mul_right _ i.isLt
    _ = pktBufferSize * maxPkt := Nat.mul_comm _ _

theorem intact_empty (log : Log) (outside : Mem) : Intact (Cache.empty log outside) where
  inv := inv_empty log outside
  clear := by
    intro i _ b hb
    have hin := slot_in_cache i hb
    simp only [Cache.empty, loaded, memset_apply, Nat.zero_add, Nat.zero_le, hin, true_and, if_true]
  content := fun i hi => by simp [Cache.empty, loaded] at hi

theorem intact_arrive {c : Cache} (h : Intact c) (now : Nat) {pkt : Skb} (hw : WellFormed pkt)
    (hfits : OpFits c (.packet now pkt)) : Intact (c.arrive now pkt) := by
  rcases arrive_cases now pkt c with ⟨_, hst, ho, hs, _, hb⟩ | ⟨i, hi, hfree, hst, ho, hs, _, hb⟩
  · refine ⟨inv_arrive h.inv now pkt, ?_, ?_⟩
    · rw [hs, hb]
      exact h.clear
    · rw [hs, hb, ho, hst]
      exact h.content
  · have hfit := hfits i hi
    rw [copyLen_eq hw] at hb
    have hother {j : Slot} (hj : j ≠ i) {b : Nat} (hbl : b < pktBufferSize) :
        (c.arrive now pkt).module.buffFromHere (j.val * pktBufferSize + b) =
          c.module.buffFromHere (j.val * pktBufferSize + b) := by
      rw [hb]
      exact memcpy_block_ne _ _ (fun he => hj (Fin.ext he.symm)) hfit hbl
    refine ⟨inv_arrive h.inv now pkt, fun j hj b hbl => ?_, fun j hj => ?_⟩
    · have hji : j ≠ i := by
        rintro rfl
        rw [hs, Function.update_self] at hj
        cases hj
      rw [hs, Function.update_of_ne hji] at hj
      rw [hother hji hbl]
      exact h.clear j hj b hbl
    · by_cases hji : j = i
      · subst j
        refine ⟨pkt, by rw [ho, hst]; simp, fun b hbl => ?_⟩
        rw [hb, padded]
        split
        next hlt => exact memcpy_inside _ _ _ _ _ hlt
        next hge =>
          rw [memcpy_outside _ _ _ _ _ (.inr (by omega))]
          exact h.clear i hfree b hbl
      · rw [hs, Function.update_of_ne hji] at hj
        obtain ⟨p, hp, hc⟩ := h.content j hj
        refine ⟨p, ?_, fun b hbl => by rw [hother hji hbl]; exact hc b hbl⟩
        rw [ho, hst, Function.update_of_ne hji]
        exact List.getElem?_append_left (List.getElem?_eq_some_iff.mp hp).1 ▸ hp

theorem intact_read {c : Cache} (h : Intact c) (len : Nat) (off : BitVec 64) (ok : Bool) :
    Intact (stepOp c (.read len off ok)) := by
  have hinv := inv_stepOp c (.read len off ok) h.inv
  by_cases hno : ok = false ∨ bufferSize ≤ off.toNat
  · obtain ⟨_, temp, hm⟩ := read_keeps len off ok c.module hno
    simp only [stepOp, hm] at hinv ⊢
    exact ⟨hinv, h.clear, h.content⟩
  · obtain ⟨rfl, ho⟩ := takes_of_not_keeps hno
    obtain ⟨buf, cache, _, hm, _, hcache⟩ := read_takes c len ho
    simp only [stepOp, hm] at hinv ⊢
    refine ⟨hinv, fun i hi b hb => ?_, fun i hi => ?_⟩
    · simp only at hi ⊢
      rw [CyclicSlots.clear] at hi
      split at hi
      next hmem => exact (hcache i b hb).1 hmem
      next hmem =>
        rw [(hcache i b hb).2 hmem]
        exact h.clear i hi b hb
    · simp only [CyclicSlots.clear] at hi ⊢
      split at hi
      next => cases hi
      next hmem =>
        obtain ⟨pkt, hp, hc⟩ := h.content i hi
        exact ⟨pkt, hp, fun b hb => ((hcache i b hb).2 hmem).trans (hc b hb)⟩

theorem intact_step (c : Cache) (op : Op) (hop : OpWellFormed c op ∧ OpFits c op) (h : Intact c) :
    Intact (stepOp c op) := by
  cases op with
  | packet now pkt => exact intact_arrive h now hop.1 hop.2
  | read len off ok => exact intact_read h len off ok

theorem stepIntact (c : Cache) (op : Op) (hop : OpWellFormed c op ∧ OpFits c op) (h : Intact c) :
    StepIntact c op := by
  cases op with
  | packet now pkt =>
      intro a hne
      rcases arrive_cases now pkt c with ⟨_, _, _, _, _, hb⟩ | ⟨i, hi, _, _, _, _, _, hb⟩
      · exact absurd (congrFun hb a) hne
      · have hfit := hop.2 i hi
        refine ⟨i, hi, ?_⟩
        by_contra hout
        apply hne
        rw [stepOp, hb, copyLen_eq hop.1]
        exact memcpy_outside _ _ _ _ _ (by omega)
  | read len off ok =>
      intro buf hbuf j p hp
      by_cases hno : ok = false ∨ bufferSize ≤ off.toNat
      · rw [(read_keeps len off ok c.module hno).1] at hbuf
        cases hbuf
      · obtain ⟨rfl, ho⟩ := takes_of_not_keeps hno
        obtain ⟨buf', cache, hc, _, hrec, _⟩ := read_takes c len ho
        rw [hc, Option.some.injEq] at hbuf
        subst buf'
        obtain ⟨i, hi, rfl, hb⟩ := hrec j p hp
        obtain ⟨pkt, hpkt, hcont⟩ := h.content i hi
        exact ⟨pkt, hpkt, fun b hbl => (hb b hbl).trans (hcont b hbl)⟩

/-- Payloads that fit a slot stay apart from each other and reach user space
unchanged: this holds of every operation of a run in which each packet that gets
a slot fits it. -/
theorem payload_intact_of_fits (log : Log) (outside : Mem) (ops : List Op)
    (hops : Along stepOp (fun c op => OpWellFormed c op ∧ OpFits c op)
      (Cache.empty log outside) ops) :
    Along stepOp StepIntact (Cache.empty log outside) ops :=
  along_invariant intact_step stepIntact (intact_empty log outside) ops hops

def smallSkb : Skb where
  data := fun i =>
    if i = 2 ∨ i = 24 then 0 else if i = 3 then 92 else if i = 25 then 72 else (clientSkb 7 1).data i
  len := 92
  transportHeader := 20

def threeSmall : List Op :=
  [.packet 5 smallSkb, .packet 6 smallSkb, .read 4096 0 false, .read 4096 0 true, .packet 8 smallSkb,
    .read 4096 0 true]

theorem payload_intact_small :
    Along stepOp StepIntact (Cache.empty (fun _ _ => 0) (fun _ => 255)) threeSmall := by
  apply payload_intact_of_fits
  apply along_of_forall
  intro op hop c
  have hcases : (∃ now, op = .packet now smallSkb) ∨ ∃ ok, op = .read 4096 0 ok := by
    simp only [threeSmall, List.mem_cons, List.not_mem_nil, or_false] at hop
    rcases hop with rfl | rfl | rfl | rfl | rfl | rfl
    · exact .inl ⟨5, rfl⟩
    · exact .inl ⟨6, rfl⟩
    · exact .inr ⟨false, rfl⟩
    · exact .inr ⟨true, rfl⟩
    · exact .inl ⟨8, rfl⟩
    · exact .inr ⟨true, rfl⟩
  rcases hcases with ⟨now, rfl⟩ | ⟨ok, rfl⟩
  · exact ⟨⟨by decide, rfl, by decide, by decide⟩, fun _ _ => by decide⟩
  · exact ⟨trivial, trivial⟩

/-- After n client packets and no read the next slot is slot n, and the byte
behind the cache is untouched as long as no packet got one of the last seven slots. -/
theorem client_fill (log : Log) (outside : Mem) (n : Nat) (hn : n ≤ 193) :
    let c := run stepOp (Cache.empty log outside)
      ((List.range n).map fun k => .packet k (clientSkb k 1))
    c.module.currentIndex.val = n ∧ (queue c).length = n ∧
      c.module.buffFromHere 25600 = outside 25600 := by
  induction n with
  | zero => exact ⟨rfl, rfl, rfl⟩
  | succ n ih =>
      intro c
      let c' := run stepOp (Cache.empty log outside)
        ((List.range n).map fun k => .packet k (clientSkb k 1))
      obtain ⟨hci, hlen, hbyte⟩ : c'.module.currentIndex.val = n ∧ (queue c').length = n ∧
        c'.module.buffFromHere 25600 = outside 25600 := ih (by omega)
      have hc : c = c'.arrive n (clientSkb n 1) := by
        simp only [c, List.range_succ, List.map_append, List.map_cons, List.map_nil, run_snoc]
        rfl
      have hclient := clientSkb_isClientPacket n 1
      have hinv : Inv c' := inv_run log outside _
      have hroom : (queue c').length < maxPkt := by rw [hlen, maxPkt]; omega
      obtain ⟨_, _, hnext, hb⟩ := hinv.arrive_claims hroom n hclient.passesFilter
      rw [hclient.copyLen] at hb
      have hval : (shift c'.module.currentIndex 1).val = n + 1 := by
        rw [shift]
        simp only [hci, maxPkt]
        omega
      refine ⟨by rw [hc, hnext, hval], ?_, ?_⟩
      · rw [hc, queue_arrive hinv hroom n hclient.passesFilter, List.length_append, hlen,
          List.length_singleton]
      · rw [hc, hb, memcpy_outside, hbyte]
        right
        simp only [hci, pktBufferSize, sizeofPayload]
        omega

theorem clientSkb_wellFormed (uid created : Nat) : WellFormed (clientSkb uid created) where
  ihl := (clientSkb_isClientPacket uid created).ihl
  transportHeader := rfl
  udpLen_ge := by rw [(clientSkb_isClientPacket uid created).udpLen]; omega
  len := by
    rw [(clientSkb_isClientPacket uid created).udpLen, (clientSkb_isClientPacket uid created).len]
    omega

theorem along_wellFormed (c : Cache) (ns : List Nat) :
    Along stepOp OpWellFormed c (ns.map fun k => .packet k (clientSkb k 1)) := by
  apply along_of_forall
  intro op hop c
  obtain ⟨k, _, rfl⟩ := List.mem_map.mp hop
  exact clientSkb_wellFormed k 1

theorem client_overflows {c : Cache} (hinv : Inv c) (hci : c.module.currentIndex.val = 193)
    (hroom : (queue c).length < maxPkt) (hbyte : c.module.buffFromHere 25600 ≠ 0)
    (now uid created : Nat) : ¬ StepIntact c (.packet now (clientSkb uid created)) := by
  intro hstep
  have hclient := clientSkb_isClientPacket uid created
  have hclaim := hinv.claimedSlot_eq hroom hclient.passesFilter
  have hzero : (stepOp c (.packet now (clientSkb uid created))).module.buffFromHere 25600 = 0 := by
    obtain ⟨_, _, _, hb⟩ := hinv.arrive_claims hroom now hclient.passesFilter
    have hpos : 25600 = 193 * pktBufferSize + 896 := by decide
    rw [stepOp, hb, hclient.copyLen, hci, hpos, memcpy_inside _ _ _ _ _ (by decide),
      hclient.payload _ (by decide)]
    simp [clientPayload]
  obtain ⟨i, hi, _, hhi⟩ := hstep 25600 (by rw [hzero]; exact hbyte.symm)
  rw [hclaim, Option.some.injEq] at hi
  rw [← hi, hci] at hhi
  exact absurd hhi (by decide)

/-- The client's own datagrams break the cache: 194 of them without a read in
between are enough. -/
theorem client_breaks_cache :
    ¬ ∀ (log : Log) (outside : Mem) (ops : List Op),
      Along stepOp OpWellFormed (Cache.empty log outside) ops →
      Along stepOp StepIntact (Cache.empty log outside) ops := by
  intro hall
  have hrun := hall (fun _ _ => 0) (fun _ => 255)
    ((List.range 194).map fun k => .packet k (clientSkb k 1)) (along_wellFormed _ _)
  rw [List.range_succ, List.map_append, along_append] at hrun
  obtain ⟨hci, hlen, hbyte⟩ := client_fill (fun _ _ => 0) (fun _ => 255) 193 (Nat.le_refl _)
  refine client_overflows (inv_run _ _ _) hci ?_ ?_ _ _ _ hrun.2.1
  · rw [hlen]
    decide
  · rw [hbyte]
    decide

end PacketIntercept.PayloadIntegrity
