import PacketIntercept.CyclicSlots
import PacketIntercept.LogBuffs

namespace PacketIntercept.RxHandler

open ByteMemory CyclicSlots Common LogBuffs

abbrev Slot := Fin maxPkt

structure Skb where
  data : Mem
  len : Nat
  transportHeader : Nat

namespace Skb

def version (pkt : Skb) : Nat := (pkt.data 0).toNat / 16
def ihl (pkt : Skb) : Nat := (pkt.data 0).toNat % 16
def protocol (pkt : Skb) : Nat := (pkt.data 9).toNat
def dest (pkt : Skb) : Nat := be16 pkt.data (pkt.transportHeader + 2)
def udpLen (pkt : Skb) : Nat := be16 pkt.data (pkt.transportHeader + 4)

/-- The handler takes the UDP payload to start 28 bytes into the packet. -/
def uid (pkt : Skb) : Nat := Common.uid pkt.data 28

def copyLen (pkt : Skb) : Nat := (pkt.udpLen + 2 ^ 32 - 8) % 2 ^ 32

def passesFilter (pkt : Skb) : Bool :=
  pkt.version == 4 && pkt.protocol == 17 && pkt.dest == 8080

end Skb

/-- The module's static data; status is true where the C array holds 1. -/
structure Module where
  status : Slot → Bool
  currentIndex : Slot
  buffFromHere : Mem
  buffTemp : Mem
  logBuffs : Log
  countPkt : UInt64
  countPktOverflow : UInt64

/-- The search loop: how many tries are left and the slot to look at. -/
def findSlot (status : Slot → Bool) : Nat → Slot → Option Slot
  | 0, _ => none
  | tries + 1, i => if status i = false then some i else findSlot status tries (shift i 1)

def Module.freeSlot (m : Module) : Option Slot :=
  findSlot m.status kmFindBuffSlotMaxTry m.currentIndex

def writeCache (pkt : Skb) (m : Module) : Module :=
  match m.freeSlot with
  | some i =>
      { m with
        buffFromHere := memcpy m.buffFromHere (i.val * pktBufferSize)
          (fun b => pkt.data (28 + b)) pkt.copyLen
        status := Function.update m.status i true
        currentIndex := shift i 1 }
  | none => { m with countPktOverflow := m.countPktOverflow + 1 }

def writeLog (now : Nat) (pkt : Skb) (m : Module) : Module :=
  { m with countPkt := m.countPkt + 1, logBuffs := record shipped pkt.uid now m.logBuffs }

/-- Every path returns RX_HANDLER_PASS; what differs is the module's data. -/
def rxhPacketIn (now : Nat) (pkt : Skb) (m : Module) : Module :=
  if pkt.passesFilter then writeCache pkt (writeLog now pkt m) else m

def loaded (log : Log) (outside : Mem) : Module where
  status := fun _ => false
  currentIndex := ⟨0, by decide⟩
  buffFromHere := memset outside 0 0 (pktBufferSize * maxPkt)
  buffTemp := fun _ => 0
  logBuffs := log
  countPkt := 0
  countPktOverflow := 0

theorem findSlot_eq_find? (status : Slot → Bool) (tries : Nat) (i : Slot) :
    findSlot status tries i = (arc i tries).find? (fun s => !status s) := by
  induction tries generalizing i with
  | zero => rfl
  | succ tries ih =>
      rw [findSlot, arc, List.find?_cons, ih]
      cases status i <;> rfl

theorem freeSlot_free {m : Module} {i : Slot} (h : m.freeSlot = some i) : m.status i = false := by
  rw [Module.freeSlot, findSlot_eq_find?] at h
  simpa using List.find?_some h

theorem freeSlot_eq_none {m : Module} : m.freeSlot = none ↔ ∀ s, m.status s = true := by
  rw [Module.freeSlot, findSlot_eq_find?, List.find?_eq_none]
  constructor
  · intro h s
    simpa using h s (mem_arc_full m.currentIndex s)
  · intro h s _
    simp [h s]

theorem freeSlot_of_free {m : Module} (h : m.status m.currentIndex = false) :
    m.freeSlot = some m.currentIndex := by
  simp [Module.freeSlot, kmFindBuffSlotMaxTry, findSlot, h]

/-- Everything a handler call can do: nothing, log and drop, or log and claim
the first free slot. -/
theorem rxhPacketIn_cases (now : Nat) (pkt : Skb) (m : Module) :
    (pkt.passesFilter = false ∧ rxhPacketIn now pkt m = m) ∨
    (pkt.passesFilter = true ∧ m.freeSlot = none ∧ rxhPacketIn now pkt m =
      { writeLog now pkt m with countPktOverflow := m.countPktOverflow + 1 }) ∨
    (pkt.passesFilter = true ∧ ∃ i, m.freeSlot = some i ∧ rxhPacketIn now pkt m =
      { writeLog now pkt m with
        buffFromHere := memcpy m.buffFromHere (i.val * pktBufferSize)
          (fun b => pkt.data (28 + b)) pkt.copyLen
        status := Function.update m.status i true
        currentIndex := shift i 1 }) := by
  have hfree : (writeLog now pkt m).freeSlot = m.freeSlot := by
    simp only [Module.freeSlot, writeLog]
  cases hp : pkt.passesFilter with
  | false => exact .inl ⟨rfl, by simp [rxhPacketIn, hp]⟩
  | true =>
      have he : rxhPacketIn now pkt m = writeCache pkt (writeLog now pkt m) := by
        simp [rxhPacketIn, hp]
      right
      cases hf : m.freeSlot with
      | none =>
          refine .inl ⟨rfl, rfl, ?_⟩
          rw [he, writeCache, hfree, hf]
          simp only [writeLog]
      | some i =>
          refine .inr ⟨rfl, i, rfl, ?_⟩
          rw [he, writeCache, hfree, hf]
          simp only [writeLog]

theorem rxhPacketIn_logBuffs (now : Nat) (pkt : Skb) (m : Module) :
    (rxhPacketIn now pkt m).logBuffs =
      if pkt.passesFilter then record shipped pkt.uid now m.logBuffs else m.logBuffs := by
  rcases rxhPacketIn_cases now pkt m with ⟨hp, h⟩ | ⟨hp, _, h⟩ | ⟨hp, i, _, h⟩
  · simp [h, hp]
  · simp [h, hp, writeLog]
  · simp [h, hp, writeLog]

theorem rxhPacketIn_buffTemp (now : Nat) (pkt : Skb) (m : Module) :
    (rxhPacketIn now pkt m).buffTemp = m.buffTemp := by
  rcases rxhPacketIn_cases now pkt m with ⟨_, h⟩ | ⟨_, _, h⟩ | ⟨_, i, _, h⟩
  · rw [h]
  · simp only [h, writeLog]
  · simp only [h, writeLog]

end PacketIntercept.RxHandler
