import PacketIntercept.ReadProc

namespace PacketIntercept.ReadContract

open ByteMemory CyclicSlots Common RxHandler ReadProc

def efault : Int := 14

abbrev NotCopied := Fin (bufferSize + 1)

/-- The number of bytes a call puts into the user's buffer; it passes
BUFFER_SIZE to copy_to_user, whatever len is. -/
def bytesWritten (off : BitVec 64) (notCopied : NotCopied) : Nat :=
  if bufferSize ≤ off.toNat then 0 else bufferSize - notCopied.val

def callRead (len : Nat) (off : BitVec 64) (notCopied : NotCopied) (m : Module) : ReadResult :=
  read len off (decide (notCopied.val = 0)) m

/-- A packet leaves the cache only in a record that was written as a whole. -/
def RemovesWritten (len : Nat) (off : BitVec 64) (notCopied : NotCopied) (m : Module) : Prop :=
  ∀ i, m.status i = true → (callRead len off notCopied m).module.status i = false →
    ∃ j buf, (callRead len off notCopied m).copied = some buf ∧
      (j + 1) * pktBufferSize ≤ bytesWritten off notCopied ∧
      ∀ b, b < pktBufferSize →
        buf (j * pktBufferSize + b) = m.buffFromHere (i.val * pktBufferSize + b)

structure Contract (len : Nat) (off : BitVec 64) (notCopied : NotCopied) (m : Module) : Prop where
  at_most : bytesWritten off notCopied ≤ len
  at_end : (bufferSize : Int) ≤ off.toInt →
    (callRead len off notCopied m).ret = 0 ∧ bytesWritten off notCopied = 0
  fault : off.toInt < bufferSize → notCopied.val ≠ 0 → (callRead len off notCopied m).ret = -efault
  count : off.toInt < bufferSize → notCopied.val = 0 →
    (callRead len off notCopied m).ret = bytesWritten off notCopied
  removed : RemovesWritten len off notCopied m

theorem read_ret (len : Nat) (off : BitVec 64) (ok : Bool) (m : Module) :
    (read len off ok m).ret = bufferSize := by
  rw [ReadProc.read]
  split
  · rfl
  · split <;> rfl

theorem removesWritten (len : Nat) (off : BitVec 64) (notCopied : NotCopied) (m : Module) :
    RemovesWritten len off notCopied m := by
  intro i hi hfree
  rcases read_cases len off (decide (notCopied.val = 0)) m with
    ⟨_, hm, _⟩ | ⟨_, _, _, temp, hm⟩ | ⟨hoff, hok, buf, cache, hcopied, hm, hrec, _⟩
  · rw [callRead, hm, hi] at hfree
    cases hfree
  · rw [callRead, hm] at hfree
    exact absurd hi (Bool.eq_false_iff.mp hfree)
  · rw [callRead, hm] at hfree
    simp only [clear] at hfree
    split at hfree
    next hmem =>
      obtain ⟨j, hj⟩ := List.getElem?_of_mem hmem
      have hlt : j < pktsPerBuffer := by
        have hlen := (List.getElem?_eq_some_iff.mp hj).1
        rw [List.length_take] at hlen
        omega
      have hwritten : bytesWritten off notCopied = pktsPerBuffer * pktBufferSize := by
        rw [bytesWritten, if_neg (by omega), of_decide_eq_true hok]
        rfl
      refine ⟨j, buf, hcopied, ?_, hrec j i hj⟩
      rw [hwritten]
      exact Nat.mul_le_mul_right _ hlt
    next =>
      rw [hi] at hfree
      cases hfree

/-- The result is the same on all paths, so only the calls that fill a whole
buffer keep the contract. -/
theorem contract_iff (len : Nat) (off : BitVec 64) (notCopied : NotCopied) (m : Module) :
    Contract len off notCopied m ↔
      off.toNat < bufferSize ∧ notCopied.val = 0 ∧ bufferSize ≤ len := by
  have hret : (callRead len off notCopied m).ret = bufferSize := read_ret _ _ _ _
  constructor
  · intro h
    have hend : off.toInt < bufferSize := by
      by_contra hge
      have h0 := (h.at_end (by omega)).1
      rw [hret] at h0
      exact absurd h0 (by decide)
    have hcopy : notCopied.val = 0 := by
      by_contra hne
      have hf := h.fault hend hne
      rw [hret] at hf
      exact absurd hf (by decide)
    have hcount := h.count hend hcopy
    have hoff : off.toNat < bufferSize := by
      by_contra hge
      rw [hret, bytesWritten, if_pos (by omega)] at hcount
      exact absurd hcount (by decide)
    have hmost := h.at_most
    rw [bytesWritten, if_neg (by omega), hcopy] at hmost
    exact ⟨hoff, hcopy, hmost⟩
  · rintro ⟨hoff, hcopy, hlen⟩
    have hwritten : bytesWritten off notCopied = bufferSize := by
      rw [bytesWritten, if_neg (by omega), hcopy]
      rfl
    have hint : off.toInt < bufferSize := by
      rw [BitVec.toInt_eq_toNat_of_lt (by simp only [bufferSize] at hoff; omega)]
      exact_mod_cast hoff
    refine ⟨?_, ?_, ?_, ?_, removesWritten len off notCopied m⟩
    · rw [hwritten]
      exact hlen
    · intro hge
      omega
    · intro _ hne
      exact absurd hcopy hne
    · intro _ _
      rw [hret, hwritten]

/-- pread(fd, buf, 100, 0) on an empty cache gets 4096 bytes. -/
theorem short_read_overruns : ¬ Contract 100 0 0 (loaded (fun _ _ => 0) fun _ => 255) := by
  intro h
  exact absurd h.at_most (by decide)

end PacketIntercept.ReadContract
