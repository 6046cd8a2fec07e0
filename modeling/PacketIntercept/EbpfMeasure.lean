import PacketIntercept.KernelMaps
import PacketIntercept.LogBuffs

namespace PacketIntercept.EbpfMeasure

open ByteMemory Common CheckedLoads ArrayMaps XdpSockProg FrameGrammar KernelMaps LogBuffs

structure Fetched where
  ret : Bool
  log : Log
  wrote : Option Nat

/-- One call at time now. A looked-up element is a copy of the stored bytes. -/
def fetchAndProcessPacket (maps : Maps) (nextUid : UInt32) (now : Nat) (log : Log) : Fetched :=
  match lookup maps.pktPayload nextUid.toNat with
  | none => ⟨false, log, none⟩
  | some mapPl =>
      if checkPacket (bytes mapPl) 0 then
        if uid (bytes mapPl) 0 < maxLogEntry then
          ⟨true, record shipped (uid (bytes mapPl) 0) now log, some (uid (bytes mapPl) 0)⟩
        else ⟨false, log, none⟩
      else ⟨false, log, none⟩

inductive Mark
  | arrived (ctx : XdpMd)
  | logged (uid time : Nat)

/-- The XDP program and the polling loop on one machine: what they share, the
loop's own variables, the clock and what has happened so far. -/
structure State where
  maps : Maps
  log : Log
  nextUid : UInt32
  clock : Nat
  trace : List Mark

inductive Event
  | tick (d : Nat)
  | frame (f : Frame) (rxQueueIndex : UInt32) (cpu : Nat)
  | poll

def arrive (s : State) (ctx : XdpMd) : State :=
  { s with maps := stepXdp s.maps ctx, trace := s.trace ++ [.arrived ctx] }

def iterate (s : State) : State :=
  let r := fetchAndProcessPacket s.maps s.nextUid s.clock s.log
  { s with
    log := r.log
    nextUid := if r.ret then s.nextUid + 1 else s.nextUid
    trace := s.trace ++ (r.wrote.map fun k => Mark.logged k s.clock).toList }

def step (s : State) : Event → State
  | .tick d => { s with clock := s.clock + d }
  | .frame f q cpu => arrive s ⟨f, q, cpu, s.clock⟩
  | .poll => iterate s

def started (log : Log) : State := ⟨zeroMaps, log, 0, 0, []⟩

def StoredBy (trace : List Mark) (k : Nat) (pl : List UInt8) : Prop :=
  pl = List.replicate sizeofPayload 0 ∨ ∃ ctx, .arrived ctx ∈ trace ∧ Accepts ctx.frame ∧
    frameUid ctx.frame % 2 ^ 32 = k ∧ pl = framePayload ctx.frame

def HoldsValid (maps : Maps) (k : Fin (1 + maxLogEntry)) : Prop :=
  checkPacket (bytes (maps.pktPayload k)) 0 = true ∧ uid (bytes (maps.pktPayload k)) 0 = k.val

theorem StoredBy.mono {trace : List Mark} {k : Nat} {pl : List UInt8} (h : StoredBy trace k pl)
    (more : List Mark) : StoredBy (trace ++ more) k pl := by
  rcases h with h | ⟨ctx, hm, h⟩
  · exact .inl h
  · exact .inr ⟨ctx, List.mem_append_left _ hm, h⟩

theorem storedBy_stepXdp {trace : List Mark} {maps : Maps} (ctx : XdpMd)
    (h : ∀ k, StoredBy trace k.val (maps.pktPayload k)) (k : Fin (1 + maxLogEntry)) :
    StoredBy (trace ++ [.arrived ctx]) k.val ((stepXdp maps ctx).pktPayload k) := by
  by_cases hacc : Accepts ctx.frame
  · rw [stepXdp_of_accepts maps hacc, recorded_pktPayload]
    by_cases hk : k.val = frameUid ctx.frame % 2 ^ 32
    · rw [if_pos hk]
      exact .inr ⟨ctx, by simp, hacc, hk.symm, rfl⟩
    · rw [if_neg hk]
      exact (h k).mono _
  · rw [stepXdp_of_not_accepts maps hacc]
    exact (h k).mono _

theorem checkPacket_zero : checkPacket (bytes (List.replicate sizeofPayload 0)) 0 = false := by
  have h : clientUid (bytes (List.replicate sizeofPayload 0)) 0 = 0 := by
    apply leNat_zero
    intro i hi
    rw [bytes_replicate_zero]
  simp [checkPacket, h]

theorem fetch_cases (maps : Maps) (nextUid : UInt32) (now : Nat) (log : Log) :
    fetchAndProcessPacket maps nextUid now log = ⟨false, log, none⟩ ∨
    ∃ k : Fin (1 + maxLogEntry), k.val = nextUid.toNat ∧
      checkPacket (bytes (maps.pktPayload k)) 0 = true ∧
      uid (bytes (maps.pktPayload k)) 0 < maxLogEntry ∧
      fetchAndProcessPacket maps nextUid now log =
        ⟨true, record shipped (uid (bytes (maps.pktPayload k)) 0) now log,
          some (uid (bytes (maps.pktPayload k)) 0)⟩ := by
  rw [fetchAndProcessPacket]
  by_cases hk : nextUid.toNat < 1 + maxLogEntry
  · have hl : lookup maps.pktPayload nextUid.toNat = some (maps.pktPayload ⟨_, hk⟩) :=
      lookup_eq maps.pktPayload ⟨_, hk⟩
    rw [hl]
    dsimp only
    split
    next hc =>
      split
      next hu => exact .inr ⟨⟨_, hk⟩, rfl, hc, hu, rfl⟩
      next => exact .inl rfl
    next => exact .inl rfl
  · rw [lookup_none _ hk]
    exact .inl rfl

/-- A call that logs does so for an arrival with exactly the uid asked for. -/
theorem fetch_of_stored {trace : List Mark} {maps : Maps} (nextUid : UInt32) (now : Nat) (log : Log)
    (h : ∀ k, StoredBy trace k.val (maps.pktPayload k)) :
    fetchAndProcessPacket maps nextUid now log = ⟨false, log, none⟩ ∨
    (nextUid.toNat < maxLogEntry ∧
      fetchAndProcessPacket maps nextUid now log =
        ⟨true, record shipped nextUid.toNat now log, some nextUid.toNat⟩ ∧
      (∃ k, k.val = nextUid.toNat ∧ HoldsValid maps k) ∧
      ∃ ctx, .arrived ctx ∈ trace ∧ Accepts ctx.frame ∧ frameUid ctx.frame = nextUid.toNat) := by
  rcases fetch_cases maps nextUid now log with hf | ⟨k, hk, hc, hu, hf⟩
  · exact .inl hf
  · right
    rcases h k with hz | ⟨ctx, hm, hacc, hkey, hpl⟩
    · rw [hz, checkPacket_zero] at hc
      exact absurd hc (by decide)
    · have hpu : uid (bytes (maps.pktPayload k)) 0 = frameUid ctx.frame := by
        rw [hpl, framePayload_uid]
      have hmax := maxLogEntry_eq
      have he : frameUid ctx.frame = nextUid.toNat := by omega
      rw [hpu, he] at hu hf
      exact ⟨hu, hf, ⟨k, hk, hc, by rw [hpu, he, hk]⟩, ctx, hm, hacc, he⟩

end PacketIntercept.EbpfMeasure
