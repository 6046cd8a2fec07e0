import PacketIntercept.CheckedLoads
import PacketIntercept.Client

namespace PacketIntercept.HandlerReads

open ByteMemory CheckedLoads Common LogBuffs RxHandler Client

/-- A load of w bytes that faults, with none, when one of them lies behind the
end of the packet. -/
def loadPkt (pkt : Skb) (pos w : Nat) : Option Nat :=
  if pos + w ≤ pkt.len then some (leNat pkt.data pos w) else none

def loadPktBytes (pkt : Skb) (pos n : Nat) : Option (List UInt8) :=
  if n = 0 ∨ pos + n ≤ pkt.len then some ((List.range n).map fun b => pkt.data (pos + b)) else none

/-- What a call of the handler leaves, the uid it logs under and the bytes it
puts into the cache. -/
structure Handled where
  module : Module
  uid : Option Nat
  cached : Option (List UInt8)

def payloadLen (ntohs : Nat) : Nat := (ntohs + 2 ^ 32 - 8) % 2 ^ 32

def storePkt (pkt : Skb) (uid : Nat) (m : Module) : Option Handled :=
  match m.freeSlot with
  | none => some ⟨{ m with countPktOverflow := m.countPktOverflow + 1 }, some uid, none⟩
  | some i => do
      let len ← loadPkt pkt (pkt.transportHeader + 4) 2
      let src ← loadPktBytes pkt 28 (payloadLen (htons len))
      pure {
        module := { m with
          buffFromHere := memcpy m.buffFromHere (i.val * pktBufferSize) (bytes src)
            (payloadLen (htons len))
          status := Function.update m.status i true
          currentIndex := CyclicSlots.shift i 1 }
        uid := some uid
        cached := some src }

/-- The handler once more, with every access to the packet checked against its
length and made where the code makes it. -/
def rxhPacketInChecked (now : Nat) (pkt : Skb) (m : Module) : Option Handled := do
  let version ← loadPkt pkt 0 1
  if version / 16 ≠ 4 then pure ⟨m, none, none⟩
  else do
    let protocol ← loadPkt pkt 9 1
    if protocol ≠ 17 then pure ⟨m, none, none⟩
    else do
      let dest ← loadPkt pkt (pkt.transportHeader + 2) 2
      if htons dest ≠ 8080 then pure ⟨m, none, none⟩
      else do
        let uid ← loadPkt pkt (28 + 8) 8
        storePkt pkt uid { m with
          countPkt := m.countPkt + 1
          logBuffs := record shipped uid now m.logBuffs }

def payloadPos (pkt : Skb) : Nat := 4 * pkt.ihl + 8

structure Safe (now : Nat) (pkt : Skb) (m : Module) : Prop where
  inside : (rxhPacketInChecked now pkt m).isSome
  no_wrap : (pkt.copyLen : Int) = (pkt.udpLen : Int) - 8
  present : payloadPos pkt + pkt.copyLen ≤ pkt.len
  holds_uid : 8 + 8 ≤ pkt.copyLen
  uid_eq : ∀ r, rxhPacketInChecked now pkt m = some r →
    r.uid = some (Common.uid pkt.data (payloadPos pkt))
  cached_eq : ∀ r src, rxhPacketInChecked now pkt m = some r → r.cached = some src →
    src = (List.range pkt.copyLen).map fun b => pkt.data (payloadPos pkt + b)

/-- A packet with the same headers and length: only the payload may differ. -/
structure SameHeaders (pkt pkt' : Skb) : Prop where
  len : pkt'.len = pkt.len
  transportHeader : pkt'.transportHeader = pkt.transportHeader
  data : ∀ i, i < 20 ∨ i < payloadPos pkt → pkt'.data i = pkt.data i

/-- No IP options, and the packet holds its datagram and that a uid. -/
def Plain (pkt : Skb) : Prop :=
  pkt.ihl = 5 ∧ 24 ≤ pkt.udpLen ∧ 20 + pkt.udpLen ≤ pkt.len

theorem loadPkt_eq {pkt : Skb} {pos w : Nat} (h : pos + w ≤ pkt.len) :
    loadPkt pkt pos w = some (leNat pkt.data pos w) := if_pos h

theorem loadPkt_some {pkt : Skb} {pos w v : Nat} (h : loadPkt pkt pos w = some v) :
    pos + w ≤ pkt.len ∧ v = leNat pkt.data pos w := by
  rw [loadPkt] at h
  split at h
  next hl => exact ⟨hl, (Option.some.inj h).symm⟩
  next => cases h

theorem leNat_one (m : Mem) (pos : Nat) : leNat m pos 1 = (m pos).toNat := by
  simp [leNat]

theorem passesFilter_iff (pkt : Skb) : pkt.passesFilter = true ↔
    leNat pkt.data 0 1 / 16 = 4 ∧ leNat pkt.data 9 1 = 17 ∧
      htons (leNat pkt.data (pkt.transportHeader + 2) 2) = 8080 := by
  rw [leNat_one, leNat_one, htons_leNat_two]
  simp [Skb.passesFilter, Skb.version, Skb.protocol, Skb.dest, and_assoc]

theorem loadPktBytes_eq {pkt : Skb} {pos n : Nat} (h : n = 0 ∨ pos + n ≤ pkt.len) :
    loadPktBytes pkt pos n = some ((List.range n).map fun b => pkt.data (pos + b)) := if_pos h

theorem loadPktBytes_some {pkt : Skb} {pos n : Nat} {src : List UInt8}
    (h : loadPktBytes pkt pos n = some src) :
    (n = 0 ∨ pos + n ≤ pkt.len) ∧ src = (List.range n).map fun b => pkt.data (pos + b) := by
  rw [loadPktBytes] at h
  split at h
  next hl => exact ⟨hl, (Option.some.inj h).symm⟩
  next => cases h

theorem payloadLen_eq (pkt : Skb) :
    payloadLen (htons (leNat pkt.data (pkt.transportHeader + 4) 2)) = pkt.copyLen := by
  rw [htons_leNat_two, payloadLen, Skb.copyLen, Skb.udpLen]

theorem memcpy_bytes (dst src : Mem) (pos n : Nat) :
    memcpy dst pos (bytes ((List.range n).map src)) n = memcpy dst pos src n := by
  funext i
  rw [memcpy, memcpy]
  split
  next h =>
    have hi : i - pos < n := by omega
    simp [bytes, hi]
  next => rfl

/-- What the checked handler does with a packet that passes the filter: either
one of the three fixed reads faults, or the packet is logged and stored. -/
theorem rxhPacketInChecked_cases {now : Nat} {pkt : Skb} {m : Module} {r : Handled}
    (hp : pkt.passesFilter = true) (h : rxhPacketInChecked now pkt m = some r) :
    44 ≤ pkt.len ∧ storePkt pkt pkt.uid (writeLog now pkt m) = some r := by
  rw [passesFilter_iff] at hp
  rw [rxhPacketInChecked] at h
  simp only [Option.bind_eq_bind, Option.bind_eq_some_iff] at h
  obtain ⟨version, hv, h⟩ := h
  obtain ⟨_, rfl⟩ := loadPkt_some hv
  rw [if_neg (not_not.mpr hp.1), Option.bind_eq_some_iff] at h
  obtain ⟨protocol, hpr, h⟩ := h
  obtain ⟨_, rfl⟩ := loadPkt_some hpr
  rw [if_neg (not_not.mpr hp.2.1), Option.bind_eq_some_iff] at h
  obtain ⟨dest, hd, h⟩ := h
  obtain ⟨_, rfl⟩ := loadPkt_some hd
  rw [if_neg (not_not.mpr hp.2.2), Option.bind_eq_some_iff] at h
  obtain ⟨uid, hu, h⟩ := h
  obtain ⟨hl, huid⟩ := loadPkt_some hu
  rw [huid] at h
  exact ⟨hl, h⟩

theorem rxhPacketInChecked_of_passes {now : Nat} {pkt : Skb} {m : Module}
    (hp : pkt.passesFilter = true) (hl : 44 ≤ pkt.len) (ht : pkt.transportHeader + 4 ≤ pkt.len) :
    rxhPacketInChecked now pkt m = storePkt pkt pkt.uid (writeLog now pkt m) := by
  rw [passesFilter_iff] at hp
  have h0 : loadPkt pkt 0 1 = _ := loadPkt_eq (by omega)
  have h9 : loadPkt pkt 9 1 = _ := loadPkt_eq (by omega)
  have hd : loadPkt pkt (pkt.transportHeader + 2) 2 = _ := loadPkt_eq (by omega)
  have hu : loadPkt pkt (28 + 8) 8 = _ := loadPkt_eq (by omega)
  simp only [rxhPacketInChecked, h0, h9, hd, hu, Option.bind_eq_bind, Option.bind_some]
  rw [if_neg (not_not.mpr hp.1), if_neg (not_not.mpr hp.2.1), if_neg (not_not.mpr hp.2.2)]
  rfl

theorem storePkt_cases {pkt : Skb} {uid : Nat} {m : Module} {r : Handled}
    (h : storePkt pkt uid m = some r) :
    r.module = writeCache pkt m ∧ r.uid = some uid ∧
      ∀ src, r.cached = some src → src = (List.range pkt.copyLen).map fun b => pkt.data (28 + b) := by
  cases hf : m.freeSlot with
  | none =>
      rw [storePkt, hf, Option.some.injEq] at h
      subst r
      refine ⟨by rw [writeCache, hf], rfl, fun src hs => by cases hs⟩
  | some i =>
      rw [storePkt, hf] at h
      simp only [Option.bind_eq_bind, Option.bind_eq_some_iff, pure, Option.some.injEq] at h
      obtain ⟨len, hlen, src, hsrc, hr⟩ := h
      rw [(loadPkt_some hlen).2, payloadLen_eq] at hsrc hr
      rw [← hr]
      obtain ⟨_, hsrc⟩ := loadPktBytes_some hsrc
      refine ⟨?_, rfl, fun src' hs => (Option.some.inj hs).symm.trans hsrc⟩
      simp only [writeCache, hf, hsrc]
      rw [memcpy_bytes m.buffFromHere (fun b => pkt.data (28 + b))]

theorem storePkt_of_fits {pkt : Skb} (uid : Nat) (m : Module)
    (ht : pkt.transportHeader + 6 ≤ pkt.len) (hl : 28 + pkt.copyLen ≤ pkt.len) :
    (storePkt pkt uid m).isSome := by
  rw [storePkt]
  split
  next => rfl
  next i _ =>
    have hlen : loadPkt pkt (pkt.transportHeader + 4) 2 = _ := loadPkt_eq (by omega)
    rw [hlen, Option.bind_eq_bind, Option.bind_some, payloadLen_eq, loadPktBytes_eq (.inr hl)]
    rfl

/-- When no read faults the checked handler is the handler. -/
theorem rxhPacketInChecked_module {now : Nat} {pkt : Skb} {m : Module} {r : Handled}
    (hp : pkt.passesFilter = true) (h : rxhPacketInChecked now pkt m = some r) :
    r.module = rxhPacketIn now pkt m := by
  rw [rxhPacketIn, if_pos hp]
  exact (storePkt_cases (rxhPacketInChecked_cases hp h).2).1

theorem SameHeaders.ihl_eq {pkt pkt' : Skb} (h : SameHeaders pkt pkt') : pkt'.ihl = pkt.ihl := by
  rw [Skb.ihl, Skb.ihl, h.data 0 (by omega)]

theorem SameHeaders.payloadPos_eq {pkt pkt' : Skb} (h : SameHeaders pkt pkt') :
    payloadPos pkt' = payloadPos pkt := by
  rw [payloadPos, payloadPos, h.ihl_eq]

theorem SameHeaders.udp_eq {pkt pkt' : Skb} (h : SameHeaders pkt pkt')
    (ht : pkt.transportHeader = 4 * pkt.ihl) : pkt'.dest = pkt.dest ∧ pkt'.udpLen = pkt.udpLen := by
  have hword (off : Nat) (ho : off + 1 < 8) : be16 pkt'.data (pkt'.transportHeader + off) =
      be16 pkt.data (pkt.transportHeader + off) := by
    rw [h.transportHeader, be16, be16, h.data _ (by rw [payloadPos]; omega),
      h.data _ (by rw [payloadPos]; omega)]
  exact ⟨hword 2 (by omega), hword 4 (by omega)⟩

theorem SameHeaders.passesFilter {pkt pkt' : Skb} (h : SameHeaders pkt pkt')
    (ht : pkt.transportHeader = 4 * pkt.ihl) (hp : pkt.passesFilter = true) :
    pkt'.passesFilter = true := by
  have hv : pkt'.version = pkt.version := by rw [Skb.version, Skb.version, h.data 0 (by omega)]
  have hpr : pkt'.protocol = pkt.protocol := by
    rw [Skb.protocol, Skb.protocol, h.data 9 (by omega)]
  rwa [Skb.passesFilter, hv, hpr, (h.udp_eq ht).1, ← Skb.passesFilter]

theorem safe_of_plain (now : Nat) {pkt : Skb} (m : Module) (ht : pkt.transportHeader = 4 * pkt.ihl)
    (hp : pkt.passesFilter = true) (h : Plain pkt) : Safe now pkt m := by
  obtain ⟨h5, h24, hl⟩ := h
  have hpos : payloadPos pkt = 28 := by rw [payloadPos, h5]
  have hcopy : pkt.copyLen + 8 = pkt.udpLen := by
    have hlt : pkt.udpLen < 2 ^ 16 := be16_lt _ _
    rw [Skb.copyLen]
    omega
  have hchecked : rxhPacketInChecked now pkt m = storePkt pkt pkt.uid (writeLog now pkt m) :=
    rxhPacketInChecked_of_passes hp (by omega) (by omega)
  refine ⟨?_, by omega, by omega, by omega, fun r hr => ?_, fun r src hr hs => ?_⟩
  · rw [hchecked]
    exact storePkt_of_fits _ _ (by omega) (by omega)
  · rw [hchecked] at hr
    rw [(storePkt_cases hr).2.1, hpos, Skb.uid]
  · rw [hchecked] at hr
    rw [hpos]
    exact (storePkt_cases hr).2.2 src hs

theorem Safe.logged_uid {now : Nat} {pkt : Skb} {m : Module} (h : Safe now pkt m)
    (hp : pkt.passesFilter = true) :
    leNat pkt.data 36 8 = leNat pkt.data (payloadPos pkt + 8) 8 := by
  obtain ⟨r, hr⟩ := Option.isSome_iff_exists.mp h.inside
  have hu := (storePkt_cases (rxhPacketInChecked_cases hp hr).2).2.1
  rw [h.uid_eq r hr, Option.some.injEq] at hu
  exact hu.symm

def bump (pkt : Skb) (q : Nat) : Skb :=
  { pkt with data := Function.update pkt.data q (pkt.data q + 1) }

theorem sameHeaders_bump (pkt : Skb) {q : Nat} (h20 : 20 ≤ q) (hq : payloadPos pkt ≤ q) :
    SameHeaders pkt (bump pkt q) :=
  ⟨rfl, rfl, fun _ hi => Function.update_of_ne (by omega) _ _⟩

theorem leNat_bump (pkt : Skb) {q : Nat} (pos w : Nat) (h : q < pos ∨ pos + w ≤ q) :
    leNat (bump pkt q).data pos w = leNat pkt.data pos w := by
  apply leNat_congr
  intro i hi
  exact Function.update_of_ne (by omega) _ _

theorem bump_ne (pkt : Skb) (q : Nat) : (bump pkt q).data q ≠ pkt.data q := by
  intro h
  simp only [bump, Function.update_self] at h
  exact byte_add_one_ne _ h

/-- With another header length than 20 the place of the uid in the payload and
the place the handler takes it from do not have the same last byte, so a change
of one byte of the payload makes the two uids differ. -/
theorem ihl_of_safe {now : Nat} {pkt : Skb} {m : Module} (ht : pkt.transportHeader = 4 * pkt.ihl)
    (hp : pkt.passesFilter = true) (h : ∀ pkt', SameHeaders pkt pkt' → Safe now pkt' m) :
    pkt.ihl = 5 := by
  have hself := (h pkt ⟨rfl, rfl, fun _ _ => rfl⟩).logged_uid hp
  have hbump {q : Nat} (h20 : 20 ≤ q) (hq : payloadPos pkt ≤ q) :
      leNat (bump pkt q).data 36 8 = leNat (bump pkt q).data (payloadPos pkt + 8) 8 := by
    have hs := sameHeaders_bump pkt h20 hq
    rw [← hs.payloadPos_eq]
    exact (h _ hs).logged_uid (hs.passesFilter ht hp)
  have hpos : payloadPos pkt = 4 * pkt.ihl + 8 := rfl
  by_contra hne
  rcases Nat.lt_or_gt_of_ne hne with hlt | hgt
  · have hb : leNat (bump pkt 43).data 36 8 = leNat (bump pkt 43).data (payloadPos pkt + 8) 8 :=
      hbump (by omega) (by omega)
    rw [leNat_bump pkt (payloadPos pkt + 8) 8 (by omega), ← hself] at hb
    exact bump_ne pkt 43 (leNat_inj 8 hb 7 (by omega))
  · have hb : leNat (bump pkt (payloadPos pkt + 15)).data 36 8 =
        leNat (bump pkt (payloadPos pkt + 15)).data (payloadPos pkt + 8) 8 :=
      hbump (by omega) (by omega)
    rw [leNat_bump pkt 36 8 (by omega), hself] at hb
    exact bump_ne pkt _ (leNat_inj 8 hb 7 (by omega)).symm

/-- The handler is safe and correct on the packets with given headers, whatever
their payload, exactly if these are the headers it was written for. -/
theorem handled_safely_iff (now : Nat) (pkt : Skb) (m : Module)
    (ht : pkt.transportHeader = 4 * pkt.ihl) (hp : pkt.passesFilter = true) :
    (∀ pkt', SameHeaders pkt pkt' → Safe now pkt' m) ↔ Plain pkt := by
  constructor
  · intro h
    have hsafe := h pkt ⟨rfl, rfl, fun _ _ => rfl⟩
    have h5 := ihl_of_safe ht hp h
    have hwrap := hsafe.no_wrap
    have hpresent := hsafe.present
    have huid := hsafe.holds_uid
    rw [payloadPos, h5] at hpresent
    exact ⟨h5, by omega, by omega⟩
  · rintro ⟨h5, h24, hl⟩ pkt' hs
    have hudp := (hs.udp_eq ht).2
    refine safe_of_plain now m ?_ (hs.passesFilter ht hp) ⟨?_, ?_, ?_⟩
    · rw [hs.transportHeader, hs.ihl_eq, ht]
    · rw [hs.ihl_eq, h5]
    · rw [hudp]
      exact h24
    · rw [hudp, hs.len]
      exact hl

theorem handled_safely_client :
    Plain (clientSkb 7 1) ∧ ∀ pkt', SameHeaders (clientSkb 7 1) pkt' →
      Safe 5 pkt' (loaded (fun _ _ => 0) fun _ => 255) := by
  have hplain : Plain (clientSkb 7 1) := ⟨by decide, by decide, by decide⟩
  have hp := (clientSkb_isClientPacket 7 1).passesFilter
  exact ⟨hplain, (handled_safely_iff 5 (clientSkb 7 1) _ (by decide) hp).mpr hplain⟩

def emptySkb : Skb where
  data := fun i =>
    ([0x45, 0, 0, 28, 0, 0, 0, 0, 0x40, 17, 0, 0, 192, 168, 1, 11, 192, 168, 1, 24,
      0x9c, 0x40, 0x1f, 0x90, 0, 8, 0, 0] : List UInt8).getD i 0
  len := 28
  transportHeader := 20

/-- The handler reads a uid behind the end of an empty datagram. -/
theorem empty_datagram_read_outside :
    (emptySkb.transportHeader = 4 * emptySkb.ihl ∧ emptySkb.passesFilter = true) ∧
      ∀ now m, ¬ Safe now emptySkb m := by
  have hp : emptySkb.passesFilter = true := by decide
  refine ⟨⟨by decide, hp⟩, fun now m h => ?_⟩
  obtain ⟨r, hr⟩ := Option.isSome_iff_exists.mp h.inside
  exact absurd (rxhPacketInChecked_cases hp hr).1 (by decide)

end PacketIntercept.HandlerReads
