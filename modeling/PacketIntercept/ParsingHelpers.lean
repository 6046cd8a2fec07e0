import PacketIntercept.CheckedLoads

namespace PacketIntercept.ParsingHelpers

open ByteMemory CheckedLoads

def ethPIp : Nat := 0x0800
def ethP8021Q : Nat := 0x8100
def ethP8021AD : Nat := 0x88a8
def ipprotoUdp : Nat := 17
def vlanMaxDepth : Nat := 2
def vlanVidMask : Nat := 0x0fff

/-- What a parsing helper leaves: its int result, the cursor nh->pos and the
header pointer it has set. Positions count from data; data_end is the length
of the frame. -/
structure Parsed where
  ret : Int
  pos : Nat
  hdr : Nat
  deriving DecidableEq

def toInt (v : Nat) : Int := (v : Int).bmod (2 ^ 32)

def toSizeT (v : Int) : Nat := (v % 2 ^ 64).toNat

/-- The size_t difference bpf_ntohs(h->len) - sizeof(struct udphdr) as an int. -/
def udpDataLen (len : Nat) : Int := toInt ((len + 2 ^ 64 - 8) % 2 ^ 64)

def protoIsVlan (hProto : Nat) : Bool := hProto == htons ethP8021Q || hProto == htons ethP8021AD

/-- The unrolled loop, with the iterations left, h_proto, vlh and the VLAN ids
collected so far. The tag control word is only read when ids are collected. -/
def vlanLoop (f : Frame) (collect : Bool) :
    Nat → Nat → Nat → List Nat → Option (Nat × Nat × List Nat)
  | 0, hProto, vlh, ids => some (hProto, vlh, ids)
  | k + 1, hProto, vlh, ids =>
      if !protoIsVlan hProto then some (hProto, vlh, ids)
      else if vlh + 4 > f.length then some (hProto, vlh, ids)
      else do
        let proto ← load f (vlh + 2) 2
        let ids' ← if collect then do
            let tci ← load f vlh 2
            pure (ids ++ [htons tci &&& vlanVidMask])
          else pure ids
        vlanLoop f collect k proto (vlh + 4) ids'

def parseEthhdrVlan (f : Frame) (pos : Nat) (collect : Bool) : Option (Parsed × List Nat) :=
  if pos + 14 > f.length then some (⟨-1, pos, pos⟩, [])
  else do
    let proto ← load f (pos + 12) 2
    let (hProto, vlh, ids) ← vlanLoop f collect vlanMaxDepth proto (pos + 14) []
    pure (⟨hProto, vlh, pos⟩, ids)

def parseEthhdr (f : Frame) (pos : Nat) : Option Parsed := do
  let (p, _) ← parseEthhdrVlan f pos false
  pure p

def parseIphdr (f : Frame) (pos : Nat) : Option Parsed :=
  if pos + 20 > f.length then some ⟨-1, pos, pos⟩
  else do
    let b ← load f pos 1
    let hdrsize := b % 16 * 4
    if hdrsize < 20 then pure ⟨-1, pos, pos⟩
    else if pos + hdrsize > f.length then pure ⟨-1, pos, pos⟩
    else do
      let protocol ← load f (pos + 9) 1
      pure ⟨protocol, pos + hdrsize, pos⟩

def parseUdphdr (f : Frame) (pos : Nat) : Option Parsed :=
  if pos + 8 > f.length then some ⟨-1, pos, pos⟩
  else do
    let l ← load f (pos + 4) 2
    let len := udpDataLen (htons l)
    if len < 0 then pure ⟨-1, pos + 8, pos⟩ else pure ⟨len, pos + 8, pos⟩

/-- The helpers for a header of one size, which return one byte of it. -/
def parseFixed (f : Frame) (size typeAt pos : Nat) : Option Parsed :=
  if pos + size > f.length then some ⟨-1, pos, pos⟩
  else do
    let type ← load f (pos + typeAt) 1
    pure ⟨type, pos + size, pos⟩

def parseIp6hdr (f : Frame) (pos : Nat) : Option Parsed := parseFixed f 40 6 pos

def parseIcmp6hdr (f : Frame) (pos : Nat) : Option Parsed := parseFixed f 8 0 pos

def parseIcmphdr (f : Frame) (pos : Nat) : Option Parsed := parseFixed f 8 0 pos

def parseIcmphdrCommon (f : Frame) (pos : Nat) : Option Parsed := parseFixed f 4 0 pos

/-- The field doff is the high half of byte 12. -/
def parseTcphdr (f : Frame) (pos : Nat) : Option Parsed :=
  if pos + 20 > f.length then some ⟨-1, pos, pos⟩
  else do
    let b ← load f (pos + 12) 1
    let len := b / 16 * 4
    if len < 20 then pure ⟨-1, pos, pos⟩
    else if pos + len > f.length then pure ⟨-1, pos, pos⟩
    else pure ⟨len, pos + len, pos⟩

def IsVlan (proto : Nat) : Prop := proto = ethP8021Q ∨ proto = ethP8021AD

instance (proto : Nat) : Decidable (IsVlan proto) := inferInstanceAs (Decidable (_ ∨ _))

theorem protoIsVlan_iff (m : Mem) (pos : Nat) :
    protoIsVlan (leNat m pos 2) = true ↔ IsVlan (be16 m pos) := by
  simp only [protoIsVlan, Bool.or_eq_true, beq_iff_eq, IsVlan]
  rw [leNat_two_eq_htons m pos ethP8021Q (by decide), leNat_two_eq_htons m pos ethP8021AD (by decide)]

/-- The three ways out of the loop: depth reached, no tag, or a truncated tag. -/
theorem vlanLoop_spec (f : Frame) (k pos : Nat) (hpos : pos + 2 ≤ f.length) (ids : List Nat) :
    ∃ t, t ≤ k ∧
      vlanLoop f false k (leNat (bytes f) pos 2) (pos + 2) ids =
        some (leNat (bytes f) (pos + 4 * t) 2, pos + 2 + 4 * t, ids) ∧
      (∀ j, j < t → IsVlan (be16 (bytes f) (pos + 4 * j)) ∧ pos + 2 + 4 * (j + 1) ≤ f.length) ∧
      pos + 2 + 4 * t ≤ f.length ∧
      (t = k ∨ ¬ IsVlan (be16 (bytes f) (pos + 4 * t)) ∨ f.length < pos + 2 + 4 * (t + 1)) := by
  induction k generalizing pos with
  | zero => exact ⟨0, le_rfl, rfl, fun j hj => absurd hj (Nat.not_lt_zero j), hpos, .inl rfl⟩
  | succ k ih =>
      by_cases hv : IsVlan (be16 (bytes f) pos)
      · have hp := (protoIsVlan_iff (bytes f) pos).mpr hv
        by_cases hl : pos + 2 + 4 ≤ f.length
        · obtain ⟨t, htk, hr, htags, hin, hexit⟩ := ih (pos + 4) (by omega)
          refine ⟨t + 1, by omega, ?_, ?_, by omega, ?_⟩
          · have hng : ¬ (pos + 2 + 4 > f.length) := by omega
            simp only [vlanLoop, hp, Bool.not_true, Bool.false_eq_true, if_false, hng,
              load_eq f (pos + 2 + 2) 2 (by omega), Option.bind_eq_bind, Option.bind_some, pure]
            rw [show pos + 4 * (t + 1) = pos + 4 + 4 * t by omega,
              show pos + 2 + 4 * (t + 1) = pos + 4 + 2 + 4 * t by omega, ← hr,
              show pos + 2 + 2 = pos + 4 by omega, show pos + 2 + 4 = pos + 4 + 2 by omega]
          · intro j hj
            cases j with
            | zero => exact ⟨hv, hl⟩
            | succ j =>
                have hj' := htags j (by omega)
                rw [show pos + 4 * (j + 1) = pos + 4 + 4 * j by omega]
                exact ⟨hj'.1, by omega⟩
          · rw [show pos + 4 * (t + 1) = pos + 4 + 4 * t by omega]
            rcases hexit with he | he | he
            · exact .inl (by omega)
            · exact .inr (.inl he)
            · exact .inr (.inr (by omega))
        · refine ⟨0, Nat.zero_le _, ?_, fun j hj => absurd hj (Nat.not_lt_zero j), hpos,
            .inr (.inr (by omega))⟩
          have hgt : pos + 2 + 4 > f.length := by omega
          simp [vlanLoop, hp, hgt]
      · have hp : protoIsVlan (leNat (bytes f) pos 2) = false := by
          rw [← Bool.not_eq_true, protoIsVlan_iff]
          exact hv
        refine ⟨0, Nat.zero_le _, ?_, fun j hj => absurd hj (Nat.not_lt_zero j), hpos,
          .inr (.inl hv)⟩
        simp [vlanLoop, hp]

end PacketIntercept.ParsingHelpers
