import PacketIntercept.Client
import PacketIntercept.FrameGrammar

namespace PacketIntercept.ClientFrame

open ByteMemory Common CheckedLoads ParsingHelpers XdpSockProg FrameGrammar Client

/-- An untagged frame without IP options that carries one struct Payload to DEST_PORT. -/
structure IsClientFrame (f : Frame) (uid : Nat) : Prop where
  ethType : be16 (bytes f) 12 = ethPIp
  version : (bytes f 14).toNat / 16 = 4
  ihl_eq : ihl f 14 = 5
  protocol : (bytes f 23).toNat = ipprotoUdp
  dest : be16 (bytes f) 36 = destPort
  udpLen : be16 (bytes f) 38 = 8 + sizeofPayload
  length : payloadOffset + sizeofPayload ≤ f.length
  uid_eq : frameUid f = uid

theorem IsClientFrame.headers {f : Frame} {uid : Nat} (h : IsClientFrame f uid) : Headers f 0 := by
  have hl : 42 + 1024 ≤ f.length := h.length
  have hi := h.ihl_eq
  have hip : IpHeader f 14 := ⟨by omega, by omega, by omega, h.protocol⟩
  have hudp : UdpHeader f (14 + 4 * ihl f 14) := by
    rw [hi]
    exact ⟨by omega, h.udpLen⟩
  have hdest : be16 (bytes f) (14 + 4 * ihl f 14 + 2) = destPort := by
    rw [hi]
    exact h.dest
  exact ⟨⟨h.ethType, hip, hudp, hdest⟩, by omega, by omega, fun j hj => absurd hj (Nat.not_lt_zero j)⟩

theorem IsClientFrame.accepts {f : Frame} {uid : Nat} (h : IsClientFrame f uid) : Accepts f :=
  ⟨⟨0, h.headers⟩, h.length⟩

def frameOf (ethHeader : List UInt8) (uid created : Nat) : Frame :=
  ethHeader ++ clientHeader ++ (List.range sizeofPayload).map (clientPayload uid created)

def untagged : List UInt8 := List.replicate 12 0 ++ [0x08, 0]

/-- One 802.1Q tag with VLAN id 1. -/
def tagged : List UInt8 := List.replicate 12 0 ++ [0x81, 0, 0, 1, 0x08, 0]

def clientFrame (uid created : Nat) : Frame := frameOf untagged uid created

theorem bytes_payload (uid created : Nat) {b : Nat} (hb : b < sizeofPayload) :
    bytes ((List.range sizeofPayload).map (clientPayload uid created)) b =
      clientPayload uid created b := by
  simp [bytes, hb]

theorem clientFrame_header (uid created : Nat) {i : Nat} (hi : i < 42) :
    bytes (clientFrame uid created) i = bytes (untagged ++ clientHeader) i :=
  bytes_append_left _ _ hi

theorem clientFrame_payload (uid created : Nat) {b : Nat} (hb : b < sizeofPayload) :
    bytes (clientFrame uid created) (42 + b) = clientPayload uid created b := by
  rw [← bytes_payload uid created hb]
  exact bytes_append_right (untagged ++ clientHeader) _ b

theorem clientFrame_length (uid created : Nat) :
    (clientFrame uid created).length = 42 + sizeofPayload := by
  rw [clientFrame, frameOf, List.length_append, List.length_map, List.length_range]
  rfl

theorem clientFrame_isClientFrame (uid created : Nat) (hu : uid < 2 ^ 64) (hc : created < 2 ^ 64) :
    IsClientFrame (clientFrame uid created) uid := by
  have hb := fun {i : Nat} (hi : i < 42) => clientFrame_header uid created hi
  refine ⟨?_, ?_, ?_, ?_, ?_, ?_, ?_, ?_⟩
  · rw [be16, hb (by decide), hb (by decide)]
    decide
  · rw [hb (by decide)]
    decide
  · rw [ihl, hb (by decide)]
    decide
  · rw [hb (by decide)]
    decide
  · rw [be16, hb (by decide), hb (by decide)]
    decide
  · rw [be16, hb (by decide), hb (by decide)]
    decide
  · exact Nat.le_of_eq (clientFrame_length uid created).symm
  · refine Eq.trans (leNat_congr 8 ?_) (clientPayload_fields hu hc).2.1
    intro i hi
    rw [payloadOffset, Nat.add_assoc, clientFrame_payload uid created (by rw [sizeofPayload]; omega),
      Nat.zero_add]

structure IsValidFrame (f : Frame) (uid : Nat) : Prop extends IsClientFrame f uid where
  valid : checkPacket (bytes (framePayload f)) 0 = true

theorem clientFrame_isValidFrame (uid created : Nat) (hu : uid < 2 ^ 64) (hc : created < 2 ^ 64)
    (h0 : created ≠ 0) : IsValidFrame (clientFrame uid created) uid := by
  refine ⟨clientFrame_isClientFrame uid created hu hc, ?_⟩
  have hbytes : ∀ b, b < 32 → bytes (framePayload (clientFrame uid created)) (0 + b) =
      clientPayload uid created (0 + b) := by
    intro b hb
    have hlt : b < sizeofPayload := Nat.lt_trans hb (by decide)
    rw [Nat.zero_add, framePayload, bytes_slice _ _ _ _ hlt]
    exact clientFrame_payload uid created hlt
  obtain ⟨h1, _, h2, h3⟩ := clientPayload_fields hu hc
  rw [(checkPacket_congr hbytes).1, checkPacket, h1, h2, h3]
  simp [h0]

end PacketIntercept.ClientFrame
