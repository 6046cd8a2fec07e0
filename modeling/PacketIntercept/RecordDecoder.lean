import PacketIntercept.CheckedLoads
import PacketIntercept.UserProcessing

namespace PacketIntercept.RecordDecoder

open ByteMemory CheckedLoads Common LogBuffs UserProcessing

abbrev ReadBuffer := { f : List UInt8 // f.length = bufferSize }

/-- One record of the decode loop with every access checked against the array:
the first byte of the record, then a whole struct Payload. -/
def decodeRecordChecked (buffRead : List UInt8) (i now : Nat) (log : Log) : Option Decoded := do
  let first ← load buffRead (i * pktBufferSize) 1
  if first = 0 then pure ⟨log, none⟩
  else do
    let pl ← loadBytes buffRead (i * pktBufferSize) sizeofPayload
    if checkPacket (bytes pl) 0 then
      if uid (bytes pl) 0 < maxLogEntry then
        pure ⟨record shipped (uid (bytes pl) 0) now log, some (uid (bytes pl) 0)⟩
      else pure ⟨log, none⟩
    else pure ⟨log, none⟩

def Valid (buffRead : List UInt8) (i : Nat) : Prop :=
  checkPacket (bytes buffRead) (i * pktBufferSize) = true ∧
    uid (bytes buffRead) (i * pktBufferSize) < maxLogEntry

instance (buffRead : List UInt8) (i : Nat) : Decidable (Valid buffRead i) :=
  inferInstanceAs (Decidable (_ ∧ _))

/-- The record is read inside the array, logged exactly if it is valid, and
changes nothing otherwise. -/
def DecodesExactly (buffRead : List UInt8) (i now : Nat) (log : Log) : Prop :=
  ∃ d, decodeRecordChecked buffRead i now log = some d ∧
    (∀ u, d.wrote = some u ↔ Valid buffRead i ∧ uid (bytes buffRead) (i * pktBufferSize) = u) ∧
    d.log = if Valid buffRead i
      then record shipped (uid (bytes buffRead) (i * pktBufferSize)) now log else log

theorem ite_valid {α : Type} (buffRead : List UInt8) (i : Nat) (a b : α) :
    (if checkPacket (bytes buffRead) (i * pktBufferSize) then
      if uid (bytes buffRead) (i * pktBufferSize) < maxLogEntry then a else b
    else b) = if Valid buffRead i then a else b :=
  (ite_and _ _ a b).symm

theorem payload_fields {buffRead : List UInt8} {pos : Nat} :
    checkPacket (bytes ((buffRead.drop pos).take sizeofPayload)) 0 = checkPacket (bytes buffRead) pos ∧
      uid (bytes ((buffRead.drop pos).take sizeofPayload)) 0 = uid (bytes buffRead) pos := by
  apply checkPacket_congr
  intro b hb
  rw [Nat.zero_add]
  exact bytes_slice _ _ _ _ (by rw [sizeofPayload]; omega)

theorem decodeRecordChecked_of_zero {buffRead : List UInt8} {i : Nat} (now : Nat) (log : Log)
    (hi : i * pktBufferSize < buffRead.length) (h0 : bytes buffRead (i * pktBufferSize) = 0) :
    decodeRecordChecked buffRead i now log = some ⟨log, none⟩ := by
  have hload := load_one buffRead (i * pktBufferSize) hi
  rw [h0] at hload
  simp [decodeRecordChecked, hload]

theorem decodeRecordChecked_of_ne {buffRead : List UInt8} {i : Nat} (now : Nat) (log : Log)
    (hi : i * pktBufferSize < buffRead.length) (h0 : bytes buffRead (i * pktBufferSize) ≠ 0) :
    decodeRecordChecked buffRead i now log =
      if i * pktBufferSize + sizeofPayload ≤ buffRead.length then
        some (if Valid buffRead i then
          ⟨record shipped (uid (bytes buffRead) (i * pktBufferSize)) now log,
            some (uid (bytes buffRead) (i * pktBufferSize))⟩ else ⟨log, none⟩)
      else none := by
  have hload := load_one buffRead (i * pktBufferSize) hi
  have hne : ¬ (bytes buffRead (i * pktBufferSize)).toNat = 0 :=
    fun h => h0 (UInt8.toNat_inj.mp h)
  obtain ⟨hcheck, huid⟩ := @payload_fields buffRead (i * pktBufferSize)
  simp only [decodeRecordChecked, hload, Option.bind_eq_bind, Option.bind_some, hne, if_false]
  by_cases hl : i * pktBufferSize + sizeofPayload ≤ buffRead.length
  · rw [loadBytes_eq _ hl, Option.bind_some, hcheck, huid, if_pos hl]
    rw [ite_valid, apply_ite some]
    rfl
  · rw [loadBytes, if_neg hl, if_neg hl]
    rfl

theorem decodeRecordChecked_eq {buffRead : List UInt8} {i now : Nat} {log : Log} {d : Decoded}
    (hi : i * pktBufferSize < buffRead.length)
    (h : decodeRecordChecked buffRead i now log = some d) :
    d = decodeRecord (bytes buffRead) i now log := by
  rw [decodeRecord]
  by_cases h0 : bytes buffRead (i * pktBufferSize) = 0
  · rw [decodeRecordChecked_of_zero now log hi h0, Option.some.injEq] at h
    rw [if_pos h0, h]
  · rw [decodeRecordChecked_of_ne now log hi h0] at h
    split at h
    next =>
      rw [Option.some.injEq] at h
      rw [if_neg h0, ite_valid, h]
    next => cases h

theorem record_start_lt (i : Fin pktsPerBuffer) : i.val * pktBufferSize < bufferSize := by
  have hi : i.val < 32 := i.isLt
  simp only [pktBufferSize, bufferSize]
  omega

/-- The decoder is exact on a record that it looks at if the struct Payload at
its place ends inside the array, and on one that it skips if it is not valid. -/
theorem decodes_exactly_iff (buffRead : ReadBuffer) (i : Fin pktsPerBuffer) (now : Nat) (log : Log) :
    DecodesExactly buffRead.val i now log ↔
      (bytes buffRead.val (i.val * pktBufferSize) ≠ 0 ∧ i.val ≤ 24) ∨
      (bytes buffRead.val (i.val * pktBufferSize) = 0 ∧ ¬ Valid buffRead.val i) := by
  have hlen : i.val * pktBufferSize < buffRead.val.length := by
    rw [buffRead.property]
    exact record_start_lt i
  have hfits : i.val * pktBufferSize + sizeofPayload ≤ buffRead.val.length ↔ i.val ≤ 24 := by
    rw [buffRead.property]
    simp only [pktBufferSize, sizeofPayload, bufferSize]
    omega
  by_cases h0 : bytes buffRead.val (i.val * pktBufferSize) = 0
  · have hd := decodeRecordChecked_of_zero now log hlen h0
    simp only [h0, ne_eq, not_true_eq_false, false_and, true_and, false_or]
    constructor
    · rintro ⟨d, hd', hw, _⟩ hv
      rw [hd, Option.some.injEq] at hd'
      have hnone := (hw _).mpr ⟨hv, rfl⟩
      rw [← hd'] at hnone
      cases hnone
    · intro hv
      refine ⟨_, hd, fun u => ⟨fun h => (by cases h), fun h => absurd h.1 hv⟩, ?_⟩
      rw [if_neg hv]
  · have hd := decodeRecordChecked_of_ne now log hlen h0
    simp only [h0, ne_eq, not_false_eq_true, true_and, false_and, or_false]
    rw [← hfits]
    constructor
    · rintro ⟨d, hd', _⟩
      by_contra hl
      rw [hd, if_neg hl] at hd'
      cases hd'
    · intro hl
      rw [if_pos hl] at hd
      by_cases hv : Valid buffRead.val i
      · rw [if_pos hv] at hd
        exact ⟨_, hd, fun u => by simp [hv], by rw [if_pos hv]⟩
      · rw [if_neg hv] at hd
        exact ⟨_, hd, fun u => by simp [hv], by rw [if_neg hv]⟩

def lateRecord : ReadBuffer :=
  ⟨(List.range bufferSize).map fun a => if a = 25 * pktBufferSize then 1 else 0, by simp⟩

/-- For record 25 the decoder copies 128 bytes from behind buff_read. -/
theorem late_record_overruns : ¬ DecodesExactly lateRecord.val 25 7 (fun _ _ => 0) := by
  rintro ⟨d, hd, _⟩
  have hlt : 25 * pktBufferSize < bufferSize := by decide
  have h0 : bytes lateRecord.val (25 * pktBufferSize) ≠ 0 := by
    simp [lateRecord, bytes, hlt]
  rw [decodeRecordChecked_of_ne 7 _ (by rw [lateRecord.property]; exact hlt) h0, if_neg] at hd
  · cases hd
  · rw [lateRecord.property]
    decide

end PacketIntercept.RecordDecoder
