import PacketIntercept.CacheContents

namespace PacketIntercept.UserProcessing

open ByteMemory Common LogBuffs RxHandler ReadProc HandOver CacheContents Client

/-- Where the main loop is: about to clear buff_read, inside pread, or at a
record of the decode loop. -/
inductive Phase
  | top
  | reading
  | decode (i : Nat)

structure Decoded where
  log : Log
  wrote : Option Nat

/-- One record of the decode loop at time now. Of the struct Payload copied out
of buff_read only the first four fields are used. -/
def decodeRecord (buffRead : Mem) (i now : Nat) (log : Log) : Decoded :=
  if buffRead (i * pktBufferSize) = 0 then ⟨log, none⟩
  else if checkPacket buffRead (i * pktBufferSize) then
    if uid buffRead (i * pktBufferSize) < maxLogEntry then
      ⟨record shipped (uid buffRead (i * pktBufferSize)) now log,
        some (uid buffRead (i * pktBufferSize))⟩
    else ⟨log, none⟩
  else ⟨log, none⟩

inductive Mark
  | km (uid time : Nat)
  | up (uid time : Nat)

/-- The module and user-processing on one machine. readOwner names the packets
whose records buff_read holds. -/
structure State where
  sys : System
  phase : Phase
  buffRead : Mem
  readOwner : List Nat
  log : Log
  clock : Nat
  trace : List Mark

inductive Event
  | tick (d : Nat)
  | packet (pkt : Skb)
  | user (ok : Bool)

def kmMarks (pkt : Skb) (now : Nat) : List Mark :=
  if pkt.passesFilter && decide (pkt.uid < maxLogEntry) then [.km pkt.uid now] else []

def beginIteration (ok : Bool) (s : State) : State :=
  { s with
    sys := HandOver.step s.sys (.reader 0 ok)
    phase := .reading
    buffRead := memset s.buffRead 0 0 bufferSize
    readOwner := [] }

def phaseAfter : Reader → Phase
  | .idle => .decode 0
  | .scan _ => .reading
  | .clean _ _ => .reading

def readStep (ok : Bool) (s : State) : State :=
  { s with
    sys := HandOver.step s.sys (.reader 0 ok)
    phase := phaseAfter (HandOver.step s.sys (.reader 0 ok)).reader
    buffRead := if (s.sys.reader.handsOver ok).isSome
      then memcpy s.buffRead 0 s.sys.cache.module.buffTemp bufferSize else s.buffRead
    readOwner := if (s.sys.reader.handsOver ok).isSome then s.sys.copiedOwner else s.readOwner }

def nextRecord (i : Nat) : Phase := if i + 1 < pktsPerBuffer then .decode (i + 1) else .top

def decodeStep (i : Nat) (s : State) : State :=
  let d := decodeRecord s.buffRead i s.clock s.log
  { s with
    phase := nextRecord i
    log := d.log
    trace := s.trace ++ (d.wrote.map fun k => Mark.up k s.clock).toList }

def step (s : State) : Event → State
  | .tick d => { s with clock := s.clock + d }
  | .packet pkt =>
      { s with
        sys := HandOver.step s.sys (.packet s.clock pkt)
        trace := s.trace ++ kmMarks pkt s.clock }
  | .user ok =>
      match s.phase with
      | .top => beginIteration ok s
      | .reading => readStep ok s
      | .decode i => decodeStep i s

def start (kmLog log : Log) (outside : Mem) : State :=
  ⟨HandOver.start kmLog outside, .top, fun _ => 0, [], log, 0, []⟩

def pending (s : State) : List Nat :=
  match s.phase with
  | .top => []
  | .reading => s.readOwner
  | .decode i => s.readOwner.drop i

theorem decodeRecord_cases (buffRead : Mem) (i now : Nat) (log : Log) :
    decodeRecord buffRead i now log = ⟨log, none⟩ ∨
    (buffRead (i * pktBufferSize) ≠ 0 ∧ uid buffRead (i * pktBufferSize) < maxLogEntry ∧
      decodeRecord buffRead i now log =
        ⟨record shipped (uid buffRead (i * pktBufferSize)) now log,
          some (uid buffRead (i * pktBufferSize))⟩) := by
  rw [decodeRecord]
  split
  next => exact .inl rfl
  next h0 =>
    split
    next =>
      split
      next hu => exact .inr ⟨h0, hu, rfl⟩
      next => exact .inl rfl
    next => exact .inl rfl

theorem uid_of_prefixAt {pkt : Skb} {m : Mem} {pos : Nat} (h : PrefixAt pkt m pos) :
    uid m pos = pkt.uid := by
  apply leNat_congr
  intro i hi
  rw [Nat.add_assoc, h (8 + i) (by simp only [pktBufferSize]; omega), Nat.add_assoc]

theorem decodeRecord_owner {stored : List Skb} {owners : List Nat} {buffRead : Mem} {i : Nat}
    (hi : i < pktsPerBuffer) (h : Records stored owners buffRead) (now : Nat) (log : Log) :
    decodeRecord buffRead i now log = ⟨log, none⟩ ∨
    ∃ p pkt, owners[i]? = some p ∧ stored[p]? = some pkt ∧ pkt.uid < maxLogEntry ∧
      decodeRecord buffRead i now log = ⟨record shipped pkt.uid now log, some pkt.uid⟩ := by
  rcases decodeRecord_cases buffRead i now log with hd | ⟨h0, hu, hd⟩
  · exact .inl hd
  · have hnz : ¬ ZeroAt buffRead (i * pktBufferSize) := fun hz => h0 (hz 0 (by decide))
    cases ho : owners[i]? with
    | none => exact absurd ((h i hi).2 ho) hnz
    | some p =>
        rcases (h i hi).1 p ho with hz | ⟨pkt, hs, hp⟩
        · exact absurd hz hnz
        · rw [uid_of_prefixAt hp] at hu hd
          exact .inr ⟨p, pkt, rfl, hs, hu, hd⟩

end PacketIntercept.UserProcessing
