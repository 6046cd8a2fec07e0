import PacketIntercept.ArrayMaps
import PacketIntercept.Common
import PacketIntercept.ParsingHelpers

namespace PacketIntercept.XdpSockProg

open ByteMemory Common CheckedLoads ArrayMaps ParsingHelpers

structure Maps where
  uidTimestamps : ArrayMap (1 + maxLogEntry) Nat
  pktPayload : ArrayMap (1 + maxLogEntry) (List UInt8)
  xdpStatsMap : Nat → ArrayMap 64 UInt32

def zeroMaps : Maps where
  uidTimestamps := fun _ => 0
  pktPayload := fun _ => List.replicate sizeofPayload 0
  xdpStatsMap := fun _ _ => 0

structure XdpMd where
  frame : Frame
  rxQueueIndex : UInt32
  cpu : Nat
  now : Nat

inductive MapCall
  | lookupUidTimestamps (key : Nat)
  | updatePktPayload (key : Nat) (value : List UInt8)
  | lookupXdpStatsMap (key : Nat)
  deriving DecidableEq

structure XdpResult where
  maps : Maps
  calls : List MapCall

def mapCalls (key : Nat) (value : List UInt8) (index : Nat) : List MapCall :=
  [.lookupUidTimestamps key, .updatePktPayload key value, .lookupXdpStatsMap index]

/-- The parsing part. Outer none is a load outside the frame, inner none a
return of XDP_PASS; otherwise what parse_udphdr left, cursor included. -/
def parseHeaders (f : Frame) : Option (Option Parsed) := do
  let eth ← parseEthhdr f 0
  if eth.ret ≠ htons ethPIp then pure none
  else do
    let ip ← parseIphdr f eth.pos
    if ip.ret ≠ ipprotoUdp then pure none
    else do
      let udp ← parseUdphdr f ip.pos
      if toSizeT udp.ret ≠ sizeofPayload then pure none
      else do
        let dest ← load f (udp.hdr + 2) 2
        if dest ≠ htons destPort then pure none else pure (some udp)

/-- The program takes the payload to start at data + 42. -/
def payloadOffset : Nat := 42

/-- The map updates, with pl at data + 42. A key is the first four bytes at the
key pointer, so the eight-byte uid is cut to its low half. -/
def recordPayload (ctx : XdpMd) (maps : Maps) : Option XdpResult := do
  let key ← load ctx.frame (payloadOffset + 8) 4
  let value ← loadBytes ctx.frame payloadOffset sizeofPayload
  let index := ctx.rxQueueIndex.toNat
  pure {
    maps := {
      uidTimestamps := if (lookup maps.uidTimestamps key).isSome
        then update maps.uidTimestamps key ctx.now else maps.uidTimestamps
      pktPayload := update maps.pktPayload key value
      xdpStatsMap := match lookup (maps.xdpStatsMap ctx.cpu) index with
        | some count =>
            Function.update maps.xdpStatsMap ctx.cpu
              (update (maps.xdpStatsMap ctx.cpu) index (count + 1))
        | none => maps.xdpStatsMap }
    calls := mapCalls key value index }

/-- One run of the program; every path returns XDP_PASS. -/
def xdpSockProg (ctx : XdpMd) (maps : Maps) : Option XdpResult := do
  let parsed ← parseHeaders ctx.frame
  if parsed.isSome ∧ 106 ≤ ctx.frame.length ∧ payloadOffset + sizeofPayload ≤ ctx.frame.length then
    recordPayload ctx maps
  else pure ⟨maps, []⟩

def frameUid (f : Frame) : Nat := uid (bytes f) payloadOffset

def framePayload (f : Frame) : List UInt8 := (f.drop payloadOffset).take sizeofPayload

theorem load_key (f : Frame) (h : payloadOffset + sizeofPayload ≤ f.length) :
    load f (payloadOffset + 8) 4 = some (frameUid f % 2 ^ 32) := by
  have hl : payloadOffset + 8 + 4 ≤ f.length := by
    simp only [payloadOffset, sizeofPayload] at *
    omega
  rw [load_eq f _ 4 hl, frameUid, uid, le64]
  exact congrArg some (leNat_mod (bytes f) (payloadOffset + 8) 4 4).symm

def recorded (ctx : XdpMd) (maps : Maps) : Maps where
  uidTimestamps := update maps.uidTimestamps (frameUid ctx.frame % 2 ^ 32) ctx.now
  pktPayload := update maps.pktPayload (frameUid ctx.frame % 2 ^ 32) (framePayload ctx.frame)
  xdpStatsMap := fun cpu i =>
    if cpu = ctx.cpu ∧ i.val = ctx.rxQueueIndex.toNat then maps.xdpStatsMap cpu i + 1
    else maps.xdpStatsMap cpu i

theorem recorded_uidTimestamps (ctx : XdpMd) (maps : Maps) (k : Fin (1 + maxLogEntry)) :
    (recorded ctx maps).uidTimestamps k =
      if k.val = frameUid ctx.frame % 2 ^ 32 then ctx.now else maps.uidTimestamps k := by
  simp only [recorded, update_apply]

theorem recorded_pktPayload (ctx : XdpMd) (maps : Maps) (k : Fin (1 + maxLogEntry)) :
    (recorded ctx maps).pktPayload k =
      if k.val = frameUid ctx.frame % 2 ^ 32 then framePayload ctx.frame else maps.pktPayload k := by
  simp only [recorded, update_apply]

theorem recordPayload_eq (ctx : XdpMd) (maps : Maps)
    (h : payloadOffset + sizeofPayload ≤ ctx.frame.length) :
    recordPayload ctx maps = some ⟨recorded ctx maps,
      mapCalls (frameUid ctx.frame % 2 ^ 32) (framePayload ctx.frame) ctx.rxQueueIndex.toNat⟩ := by
  have hstats : (match lookup (maps.xdpStatsMap ctx.cpu) ctx.rxQueueIndex.toNat with
      | some count =>
          Function.update maps.xdpStatsMap ctx.cpu
            (update (maps.xdpStatsMap ctx.cpu) ctx.rxQueueIndex.toNat (count + 1))
      | none => maps.xdpStatsMap) = (recorded ctx maps).xdpStatsMap := by
    funext cpu i
    by_cases hk : ctx.rxQueueIndex.toNat < 64
    · by_cases hc : cpu = ctx.cpu
      · subst hc
        simp only [lookup, hk, dif_pos, Function.update_self, update_apply, recorded, true_and]
        by_cases hi : i.val = ctx.rxQueueIndex.toNat
        · have he : i = ⟨ctx.rxQueueIndex.toNat, hk⟩ := Fin.ext hi
          simp [he]
        · simp [hi]
      · simp [lookup, hk, recorded, hc]
    · have hi : i.val ≠ ctx.rxQueueIndex.toNat := by have := i.isLt; omega
      simp [lookup, hk, recorded, hi]
  simp only [recordPayload, load_key ctx.frame h, loadBytes_eq ctx.frame h, Option.bind_eq_bind,
    Option.bind_some, pure, update_lookup_isSome, hstats]
  rfl

end PacketIntercept.XdpSockProg
