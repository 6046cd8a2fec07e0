import PacketIntercept.ByteMemory

namespace PacketIntercept.Common

open ByteMemory

def bufferSize : Nat := 4096
def pktBufferSize : Nat := 128
def pktsPerBuffer : Nat := bufferSize / pktBufferSize
def sizeOfPageHc : Nat := 4096
def maxPkt : Nat := 200
def kmFindBuffSlotMaxTry : Nat := 200
def destPort : Nat := 8080
def plData : Nat := 2

/-- The two constants of common.h that the readme asks users to change; the
layout of the logs is derived from them. -/
structure Tuning where
  maxLogEntryShift : Nat
  pagesOrder : Nat

def Tuning.maxLogEntry (t : Tuning) : Nat := 2 <<< t.maxLogEntryShift

def Tuning.maxEntriesPerLogBuff (t : Tuning) : Nat :=
  (2 <<< (t.pagesOrder - 1)) * sizeOfPageHc / 8

def Tuning.numLogBuff (t : Tuning) : Nat := t.maxLogEntry / t.maxEntriesPerLogBuff

def shipped : Tuning := ⟨14, 6⟩

def maxLogEntry : Nat := shipped.maxLogEntry

def sizeofPayload : Nat := 8 * 8 + 960

def clientUid (m : Mem) (pl : Nat) : Nat := le64 m pl
def uid (m : Mem) (pl : Nat) : Nat := le64 m (pl + 8)
def type (m : Mem) (pl : Nat) : Nat := le64 m (pl + 16)
def createdTime (m : Mem) (pl : Nat) : Nat := le64 m (pl + 24)

def checkPacket (m : Mem) (pl : Nat) : Bool :=
  clientUid m pl != 0 && type m pl == plData && createdTime m pl != 0

theorem maxLogEntry_eq : maxLogEntry = 32768 := rfl

theorem checkPacket_congr {m m' : Mem} {pl pl' : Nat} (h : ∀ b, b < 32 → m (pl + b) = m' (pl' + b)) :
    checkPacket m pl = checkPacket m' pl' ∧ uid m pl = uid m' pl' := by
  have hw (off : Nat) (ho : off + 8 ≤ 32) : le64 m (pl + off) = le64 m' (pl' + off) := by
    apply leNat_congr
    intro i hi
    rw [Nat.add_assoc, Nat.add_assoc]
    exact h _ (by omega)
  have h0 : clientUid m pl = clientUid m' pl' := hw 0 (by omega)
  have h1 : type m pl = type m' pl' := hw 16 (by omega)
  have h2 : createdTime m pl = createdTime m' pl' := hw 24 (by omega)
  exact ⟨by rw [checkPacket, checkPacket, h0, h1, h2], hw 8 (by omega)⟩

end PacketIntercept.Common
