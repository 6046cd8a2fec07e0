import PacketIntercept.RxHandler

namespace PacketIntercept.Client

open ByteMemory Common RxHandler

/-- The struct Payload the client sends: client_uid 1, type PL_DATA, and zero in
every field behind created_time and in data[]. -/
def clientPayload (uid created : Nat) : Mem := fun b =>
  if b < 8 then leByte 1 b
  else if b < 16 then leByte uid (b - 8)
  else if b < 24 then leByte plData (b - 16)
  else if b < 32 then leByte created (b - 24)
  else 0

structure IsClientPacket (pkt : Skb) (uid created : Nat) : Prop where
  version : pkt.version = 4
  ihl : pkt.ihl = 5
  protocol : pkt.protocol = 17
  transportHeader : pkt.transportHeader = 20
  dest : pkt.dest = destPort
  udpLen : pkt.udpLen = 8 + sizeofPayload
  len : pkt.len = 28 + sizeofPayload
  payload : ∀ b, b < sizeofPayload → pkt.data (28 + b) = clientPayload uid created b

/-- The IPv4 and UDP headers of a datagram from 192.168.1.11 to DEST_IPADDR. -/
def clientHeader : List UInt8 :=
  [0x45, 0, 0x04, 0x1c, 0, 0, 0, 0, 0x40, 17, 0, 0, 192, 168, 1, 11, 192, 168, 1, 24,
    0x9c, 0x40, 0x1f, 0x90, 0x04, 0x08, 0, 0]

def clientSkb (uid created : Nat) : Skb where
  data := fun i => if i < 28 then clientHeader.getD i 0 else clientPayload uid created (i - 28)
  len := 28 + sizeofPayload
  transportHeader := 20

theorem clientSkb_isClientPacket (uid created : Nat) :
    IsClientPacket (clientSkb uid created) uid created where
  version := by simp [Skb.version, clientSkb, clientHeader]
  ihl := by simp [Skb.ihl, clientSkb, clientHeader]
  protocol := by simp [Skb.protocol, clientSkb, clientHeader]
  transportHeader := by simp [clientSkb]
  dest := by simp [Skb.dest, be16, clientSkb, clientHeader, destPort]
  udpLen := by simp [Skb.udpLen, be16, clientSkb, clientHeader, sizeofPayload]
  len := by simp [clientSkb]
  payload := fun b _ => by
    have hb : ¬ (28 + b < 28) := by omega
    simp [clientSkb, hb]

theorem le64_leByte {m : Mem} {pos v : Nat} (hv : v < 2 ^ 64)
    (h : ∀ i, i < 8 → m (pos + i) = leByte v i) : le64 m pos = v := by
  rw [le64, leNat_leByte v 8 h]
  exact Nat.mod_eq_of_lt hv

theorem clientPayload_fields {uid created : Nat} (hu : uid < 2 ^ 64) (hc : created < 2 ^ 64) :
    clientUid (clientPayload uid created) 0 = 1 ∧ Common.uid (clientPayload uid created) 0 = uid ∧
      type (clientPayload uid created) 0 = plData ∧
      createdTime (clientPayload uid created) 0 = created := by
  refine ⟨?_, ?_, ?_, ?_⟩
  · apply le64_leByte (by decide)
    intro i hi
    simp [clientPayload, hi]
  · apply le64_leByte hu
    intro i hi
    have h1 : ¬ (8 + i < 8) := by omega
    have h2 : 8 + i < 16 := by omega
    simp [clientPayload, h1, h2]
  · apply le64_leByte (by decide)
    intro i hi
    have h1 : ¬ (16 + i < 8) := by omega
    have h2 : ¬ (16 + i < 16) := by omega
    have h3 : 16 + i < 24 := by omega
    simp [clientPayload, h1, h2, h3]
  · apply le64_leByte hc
    intro i hi
    have h1 : ¬ (24 + i < 8) := by omega
    have h2 : ¬ (24 + i < 16) := by omega
    have h3 : ¬ (24 + i < 24) := by omega
    have h4 : 24 + i < 32 := by omega
    simp [clientPayload, h1, h2, h3, h4]

theorem IsClientPacket.passesFilter {pkt : Skb} {uid created : Nat}
    (h : IsClientPacket pkt uid created) : pkt.passesFilter = true := by
  simp [Skb.passesFilter, h.version, h.protocol, h.dest, destPort]

theorem IsClientPacket.copyLen {pkt : Skb} {uid created : Nat}
    (h : IsClientPacket pkt uid created) : pkt.copyLen = sizeofPayload := by
  simp [Skb.copyLen, h.udpLen, sizeofPayload]

theorem IsClientPacket.uid_eq {pkt : Skb} {uid created : Nat} (h : IsClientPacket pkt uid created)
    (hu : uid < 2 ^ 64) (hc : created < 2 ^ 64) : pkt.uid = uid := by
  rw [← (clientPayload_fields hu hc).2.1]
  apply leNat_congr
  intro i hi
  rw [Nat.add_assoc, h.payload _ (by simp [sizeofPayload]; omega), Nat.zero_add]

theorem IsClientPacket.zero_tail {pkt : Skb} {uid created : Nat} (h : IsClientPacket pkt uid created)
    {b : Nat} (hlo : 32 ≤ b) (hhi : b < sizeofPayload) : pkt.data (28 + b) = 0 := by
  have h1 : ¬ b < 8 := by omega
  have h2 : ¬ b < 16 := by omega
  have h3 : ¬ b < 24 := by omega
  have h4 : ¬ b < 32 := by omega
  rw [h.payload b hhi]
  simp [clientPayload, h1, h2, h3, h4]

end PacketIntercept.Client
