import PacketIntercept.HandOver

namespace PacketIntercept.CopiedRecords

open ByteMemory CyclicSlots Common LogBuffs RxHandler ReadProc TrackedCache HandOver Runs

/-- The reader is about to copy slot i, which belongs to packet p, to record j. -/
structure Copies (s : System) (j : Nat) (i : Slot) (p : Nat) : Prop where
  scan : ∃ l, s.reader = .scan l ∧ l.running = true ∧ l.ci = i ∧ l.copiedIndex.length = j
  occupied : s.cache.module.status i = true
  owner : s.cache.owner i = p

def Scanning (s : System) : Prop := ∃ l, s.reader = .scan l

variable (log : Log) (outside : Mem)

def stateAfter (acts : List Act) : System := run step (start log outside) acts

/-- Record j of buff_temp has the bytes that slot i, then packet p's, held when
the same call of read came to it. -/
def FromSlot (acts : List Act) (j : Nat) (i : Slot) (p : Nat) : Prop :=
  ∃ before more, acts = before ++ more ∧ Copies (stateAfter log outside before) j i p ∧
    (∀ part, part <+: more → Scanning (stateAfter log outside (before ++ part))) ∧
    ∀ b, b < pktBufferSize →
      (stateAfter log outside acts).cache.module.buffTemp (j * pktBufferSize + b) =
        (stateAfter log outside before).cache.module.buffFromHere (i.val * pktBufferSize + b)

/-- What buff_temp holds once the slots in copied are recorded: for each of them the
record of its packet, and zeros behind the last. -/
structure Recorded (acts : List Act) (copied : List Slot) : Prop where
  length_eq : (stateAfter log outside acts).copiedOwner.length = copied.length
  record : ∀ j i p, copied[j]? = some i → (stateAfter log outside acts).copiedOwner[j]? = some p →
    FromSlot log outside acts j i p
  zero : ∀ a, copied.length * pktBufferSize ≤ a → a < bufferSize →
    (stateAfter log outside acts).cache.module.buffTemp a = 0

/-- In the course of acts a copy_to_user of buff_temp succeeds, right after past. -/
structure CopyIn (acts past : List Act) (copied : List Slot) : Prop where
  split : ∃ off rest, acts = past ++ .reader off true :: rest
  hands : (stateAfter log outside past).reader.handsOver true = some copied

variable {log outside}

theorem stateAfter_snoc (acts : List Act) (act : Act) :
    stateAfter log outside (acts ++ [act]) = step (stateAfter log outside acts) act :=
  run_snoc step (start log outside) acts act

theorem CopyIn.scan {acts past : List Act} {copied : List Slot} (h : CopyIn log outside acts past copied) :
    ∃ l, (stateAfter log outside past).reader = .scan l ∧ l.copiedIndex = copied := by
  have hands := h.hands
  cases hr : (stateAfter log outside past).reader with
  | scan l =>
      rw [hr, Reader.handsOver] at hands
      split at hands
      · exact ⟨l, rfl, Option.some.inj hands⟩
      · cases hands
  | _ => simp [hr, Reader.handsOver] at hands

theorem CopyIn.snoc {acts past : List Act} {copied : List Slot} (h : CopyIn log outside acts past copied)
    (act : Act) : CopyIn log outside (acts ++ [act]) past copied := by
  obtain ⟨off, rest, rfl⟩ := h.split
  exact ⟨⟨off, rest ++ [act], by rw [List.append_assoc]; rfl⟩, h.hands⟩

theorem prefix_snoc {part more : List Act} {act : Act} (h : part <+: more ++ [act]) :
    part <+: more ∨ part = more ++ [act] := by
  rcases List.prefix_concat_iff.mp h with he | hp
  · exact .inr he
  · exact .inl hp

/-- Steps of the same call that leave a record alone. -/
theorem FromSlot.snoc {acts : List Act} {j : Nat} {i : Slot} {p : Nat} (h : FromSlot log outside acts j i p)
    {act : Act} (hscan : Scanning (stateAfter log outside (acts ++ [act])))
    (hsame : ∀ b, b < pktBufferSize →
      (stateAfter log outside (acts ++ [act])).cache.module.buffTemp (j * pktBufferSize + b) =
        (stateAfter log outside acts).cache.module.buffTemp (j * pktBufferSize + b)) :
    FromSlot log outside (acts ++ [act]) j i p := by
  obtain ⟨before, more, rfl, hcopy, hscans, hbytes⟩ := h
  refine ⟨before, more ++ [act], List.append_assoc _ _ _, hcopy, ?_, ?_⟩
  · intro part hpart
    rcases prefix_snoc hpart with hp | rfl
    · exact hscans part hp
    · rwa [← List.append_assoc]
  · intro b hb
    rw [hsame b hb, hbytes b hb]

/-- The step that copies slot i to record j. -/
theorem fromSlot_copy {acts : List Act} {j : Nat} {i : Slot} {p : Nat} {act : Act}
    (hcopy : Copies (stateAfter log outside acts) j i p)
    (hscan : Scanning (stateAfter log outside (acts ++ [act])))
    (hbytes : ∀ b, b < pktBufferSize →
      (stateAfter log outside (acts ++ [act])).cache.module.buffTemp (j * pktBufferSize + b) =
        (stateAfter log outside acts).cache.module.buffFromHere (i.val * pktBufferSize + b)) :
    FromSlot log outside (acts ++ [act]) j i p := by
  refine ⟨acts, [act], rfl, hcopy, ?_, hbytes⟩
  intro part hpart
  rcases @prefix_snoc part [] act hpart with hp | rfl
  · obtain ⟨l, hl, -⟩ := hcopy.scan
    rw [List.prefix_nil.mp hp, List.append_nil]
    exact ⟨l, hl⟩
  · exact hscan

theorem recorded_begin {acts : List Act} {off : BitVec 64} {ok : Bool}
    (hr : (stateAfter log outside acts).reader = .idle) (ho : ¬ bufferSize ≤ off.toNat) :
    Recorded log outside (acts ++ [.reader off ok]) [] := by
  have hstep := readerStep_begin ho ok (stateAfter log outside acts).cache.module
  rw [← hr] at hstep
  constructor
  · simp [stateAfter_snoc, step, nextCopiedOwner, hr]
  · intro j i p hj
    cases hj
  · intro a _ ha
    simp [stateAfter_snoc, step, hstep, beginScan, memset_apply, ha]

section Scan

variable {acts : List Act} {l : Scan} (hr : (stateAfter log outside acts).reader = .scan l)
  (hrun : l.running = true) (off : BitVec 64) (ok : Bool)
include hr hrun

theorem scan_step : stateAfter log outside (acts ++ [.reader off ok]) =
    { cache :=
        { (stateAfter log outside acts).cache with
          module := (scanIteration (stateAfter log outside acts).cache.module l).1 }
      reader := .scan (scanIteration (stateAfter log outside acts).cache.module l).2
      copiedOwner := nextCopiedOwner (stateAfter log outside acts)
      handed := (stateAfter log outside acts).handed } := by
  have hstep := readerStep_scan hrun off ok (stateAfter log outside acts).cache.module
  have hhands : (Reader.handsOver ok (.scan l)).isSome = false := by simp [Reader.handsOver, hrun]
  rw [stateAfter_snoc]
  simp only [step, hr, hstep, hhands]
  rfl

theorem recorded_occupied (h : Recorded log outside acts l.copiedIndex)
    (hci : (stateAfter log outside acts).cache.module.status l.ci = true) :
    Recorded log outside (acts ++ [.reader off ok]) (l.copiedIndex ++ [l.ci]) := by
  have hs := scan_step hr hrun off ok
  have hscan : Scanning (stateAfter log outside (acts ++ [.reader off ok])) := by
    rw [hs]
    exact ⟨_, rfl⟩
  have howner : (stateAfter log outside (acts ++ [.reader off ok])).copiedOwner =
      (stateAfter log outside acts).copiedOwner ++ [(stateAfter log outside acts).cache.owner l.ci] := by
    rw [hs]
    simp [nextCopiedOwner, hr, hrun, hci]
  have htemp : (stateAfter log outside (acts ++ [.reader off ok])).cache.module.buffTemp =
      memcpy (stateAfter log outside acts).cache.module.buffTemp (l.copiedIndex.length * pktBufferSize)
        (fun b => (stateAfter log outside acts).cache.module.buffFromHere (l.ci.val * pktBufferSize + b))
        pktBufferSize := by
    rw [hs]
    simp only [scanIteration, if_pos hci]
  constructor
  · rw [howner, List.length_append, List.length_append, h.length_eq]
    rfl
  · intro j i p hj hp
    rw [howner] at hp
    by_cases hlt : j < l.copiedIndex.length
    · rw [List.getElem?_append_left hlt] at hj
      rw [List.getElem?_append_left (by rwa [h.length_eq])] at hp
      apply (h.record j i p hj hp).snoc hscan
      intro b hb
      rw [htemp, memcpy_block_ne _ _ (Nat.ne_of_gt hlt) (Nat.le_refl _) hb]
    · have hj' : j = l.copiedIndex.length := by
        have hjl := (List.getElem?_eq_some_iff.mp hj).1
        rw [List.length_append, List.length_singleton] at hjl
        omega
      subst hj'
      rw [List.getElem?_concat_length, Option.some.injEq] at hj
      rw [← h.length_eq, List.getElem?_concat_length, Option.some.injEq] at hp
      subst hj
      refine fromSlot_copy ⟨⟨l, hr, hrun, rfl, rfl⟩, hci, hp⟩ hscan ?_
      intro b hb
      rw [htemp, memcpy_inside _ _ _ _ _ hb]
  · intro a hlo hhi
    rw [List.length_append, List.length_singleton, Nat.add_mul, Nat.one_mul] at hlo
    rw [htemp, memcpy_outside _ _ _ _ _ (.inr hlo)]
    exact h.zero a (Nat.le_trans (Nat.le_add_right _ _) hlo) hhi

theorem recorded_free (h : Recorded log outside acts l.copiedIndex)
    (hci : (stateAfter log outside acts).cache.module.status l.ci ≠ true) :
    Recorded log outside (acts ++ [.reader off ok]) l.copiedIndex := by
  have hs := scan_step hr hrun off ok
  have hscan : Scanning (stateAfter log outside (acts ++ [.reader off ok])) := by
    rw [hs]
    exact ⟨_, rfl⟩
  have howner : (stateAfter log outside (acts ++ [.reader off ok])).copiedOwner =
      (stateAfter log outside acts).copiedOwner := by
    rw [hs]
    simp [nextCopiedOwner, hr, hci]
  have htemp : (stateAfter log outside (acts ++ [.reader off ok])).cache.module.buffTemp =
      (stateAfter log outside acts).cache.module.buffTemp := by
    rw [hs]
    simp only [scanIteration, if_neg hci]
  constructor
  · rw [howner, h.length_eq]
  · intro j i p hj hp
    rw [howner] at hp
    apply (h.record j i p hj hp).snoc hscan
    intro b _
    rw [htemp]
  · intro a hlo hhi
    rw [htemp]
    exact h.zero a hlo hhi

theorem recorded_scan (h : Recorded log outside acts l.copiedIndex) :
    Recorded log outside (acts ++ [.reader off ok])
      (scanIteration (stateAfter log outside acts).cache.module l).2.copiedIndex := by
  rw [scanIteration]
  split
  next hci => exact recorded_occupied hr hrun off ok h hci
  next hci => exact recorded_free hr hrun off ok h hci

end Scan

theorem recorded_packet {acts : List Act} {l : Scan} (hr : (stateAfter log outside acts).reader = .scan l)
    (h : Recorded log outside acts l.copiedIndex) (now : Nat) (pkt : Skb) :
    Recorded log outside (acts ++ [.packet now pkt]) l.copiedIndex := by
  have hsnoc := @stateAfter_snoc log outside acts (.packet now pkt)
  have hscan : Scanning (stateAfter log outside (acts ++ [.packet now pkt])) := by
    rw [hsnoc]
    exact ⟨l, hr⟩
  have htemp : (stateAfter log outside (acts ++ [.packet now pkt])).cache.module.buffTemp =
      (stateAfter log outside acts).cache.module.buffTemp := by
    rw [hsnoc, step, arrive_module, rxhPacketIn_buffTemp]
  constructor
  · rw [hsnoc]
    exact h.length_eq
  · intro j i p hj hp
    rw [hsnoc] at hp
    apply (h.record j i p hj hp).snoc hscan
    intro b _
    rw [htemp]
  · intro a hlo hhi
    rw [htemp]
    exact h.zero a hlo hhi

/-- In every state of a scan buff_temp has a faithful record of each slot in
copied_index. -/
theorem recorded_of_scan {acts : List Act} {l : Scan} (hr : (stateAfter log outside acts).reader = .scan l) :
    Recorded log outside acts l.copiedIndex := by
  induction acts using List.reverseRecOn generalizing l with
  | nil => cases hr
  | append_singleton acts act ih =>
      have hsnoc := @stateAfter_snoc log outside acts act
      cases act with
      | packet now pkt =>
          rw [hsnoc] at hr
          exact recorded_packet hr (ih hr) now pkt
      | reader off ok =>
          rw [hsnoc, step] at hr
          cases hold : (stateAfter log outside acts).reader with
          | idle =>
              by_cases ho : bufferSize ≤ off.toNat
              · simp [hold, readerStep, ho] at hr
              · simp only [hold, readerStep_begin ho, Reader.scan.injEq] at hr
                rw [← hr]
                exact recorded_begin hold ho
          | scan l' =>
              cases hrun : l'.running with
              | true =>
                  simp only [hold, readerStep_scan hrun, Reader.scan.injEq] at hr
                  rw [← hr]
                  exact recorded_scan hold hrun off ok (ih hold)
              | false => cases ok <;> simp [hold, readerStep, hrun] at hr
          | clean copied k =>
              simp only [hold, readerStep] at hr
              split at hr <;> cases hr

/-- Only a copy_to_user that succeeds adds to what was handed over. -/
theorem handed_step (s : System) (act : Act) : (step s act).handed = s.handed ∨
    ∃ off copied, act = .reader off true ∧ s.reader.handsOver true = some copied ∧
      (step s act).handed = s.handed ++ [s.copiedOwner] := by
  cases act with
  | packet now pkt => exact .inl rfl
  | reader off ok =>
      rw [step]
      cases hands : s.reader.handsOver ok with
      | none => exact .inl rfl
      | some copied =>
          cases ok with
          | false =>
              cases hr : s.reader <;> simp [hr, Reader.handsOver] at hands
          | true => exact .inr ⟨off, copied, rfl, hands, rfl⟩

theorem handed_prefix (s : System) (acts : List Act) : s.handed <+: (run step s acts).handed := by
  apply @run_invariant System Act step (fun t => s.handed <+: t.handed) s (List.prefix_refl _)
  intro t act ht
  rcases handed_step t act with he | ⟨_, _, _, _, he⟩
  · rw [he]
    exact ht
  · rw [he]
    exact ht.trans (List.prefix_append _ _)

theorem CopyIn.handed {acts past : List Act} {copied : List Slot} (h : CopyIn log outside acts past copied) :
    (stateAfter log outside acts).handed[(stateAfter log outside past).handed.length]? =
      some (stateAfter log outside past).copiedOwner := by
  obtain ⟨off, rest, rfl⟩ := h.split
  have hstep : (step (stateAfter log outside past) (.reader off true)).handed =
      (stateAfter log outside past).handed ++ [(stateAfter log outside past).copiedOwner] := by
    simp [step, h.hands]
  have hpre := handed_prefix (step (stateAfter log outside past) (.reader off true)) rest
  rw [stateAfter, run_append, run_cons, ← stateAfter]
  obtain ⟨more, hmore⟩ := hpre
  rw [← hmore, hstep, List.append_assoc, List.getElem?_append_right (Nat.le_refl _), Nat.sub_self]
  rfl

/-- Every list of packets handed over stems from one copy_to_user. -/
theorem exists_copyIn (acts : List Act) {q : Nat} (hq : q < (stateAfter log outside acts).handed.length) :
    ∃ past copied, CopyIn log outside acts past copied ∧ (stateAfter log outside past).handed.length = q := by
  induction acts using List.reverseRecOn with
  | nil => exact absurd hq (Nat.not_lt_zero q)
  | append_singleton acts act ih =>
      have hold (hlt : q < (stateAfter log outside acts).handed.length) :
          ∃ past copied, CopyIn log outside (acts ++ [act]) past copied ∧
            (stateAfter log outside past).handed.length = q := by
        obtain ⟨past, copied, hcopy, hlen⟩ := ih hlt
        exact ⟨past, copied, hcopy.snoc act, hlen⟩
      rw [stateAfter_snoc] at hq
      rcases handed_step (stateAfter log outside acts) act with he | ⟨off, copied, rfl, hands, he⟩
      · rw [he] at hq
        exact hold hq
      · rw [he, List.length_append, List.length_singleton] at hq
        rcases Nat.lt_or_eq_of_le (Nat.le_of_lt_succ hq) with hlt | heq
        · exact hold hlt
        · exact ⟨acts, copied, ⟨⟨off, [], rfl⟩, hands⟩, heq.symm⟩

/-- A clean-up goes through the slots whose records the last copy_to_user handed over. -/
theorem copyIn_of_clean {acts : List Act} {copied : List Slot} {k : Nat}
    (hr : (stateAfter log outside acts).reader = .clean copied k) :
    ∃ past, CopyIn log outside acts past copied ∧
      (stateAfter log outside past).copiedOwner = (stateAfter log outside acts).copiedOwner ∧
      (stateAfter log outside acts).handed =
        (stateAfter log outside past).handed ++ [(stateAfter log outside past).copiedOwner] := by
  induction acts using List.reverseRecOn generalizing copied k with
  | nil => cases hr
  | append_singleton acts act ih =>
      have hsnoc := @stateAfter_snoc log outside acts act
      cases act with
      | packet now pkt =>
          rw [hsnoc] at hr ⊢
          obtain ⟨past, hcopy, hown, hhanded⟩ := ih hr
          exact ⟨past, hcopy.snoc _, hown, hhanded⟩
      | reader off ok =>
          rw [hsnoc, step] at hr
          cases hold : (stateAfter log outside acts).reader with
          | idle =>
              by_cases ho : bufferSize ≤ off.toNat
              · simp [hold, readerStep, ho] at hr
              · simp [hold, readerStep_begin ho] at hr
          | scan l =>
              cases hrun : l.running with
              | true => simp [hold, readerStep_scan hrun] at hr
              | false =>
                  cases ok with
                  | false => simp [hold, readerStep, hrun] at hr
                  | true =>
                      simp [hold, readerStep, hrun] at hr
                      obtain ⟨rfl, rfl⟩ := hr
                      have hands : (stateAfter log outside acts).reader.handsOver true =
                          some l.copiedIndex := by simp [hold, Reader.handsOver, hrun]
                      refine ⟨acts, ⟨⟨off, [], rfl⟩, hands⟩, ?_, ?_⟩
                      · rw [hsnoc]
                        simp [step, nextCopiedOwner, hold, hrun]
                      · rw [hsnoc]
                        simp [step, hands]
          | clean copied' k' =>
              simp only [hold, readerStep] at hr
              split at hr
              · obtain ⟨rfl, rfl⟩ := Reader.clean.inj hr
                obtain ⟨past, hcopy, hown, hhanded⟩ := ih hold
                refine ⟨past, hcopy.snoc _, ?_, ?_⟩
                · rw [hsnoc, hown]
                  simp [step, nextCopiedOwner, hold]
                · rw [hsnoc, ← hhanded]
                  simp [step, Reader.handsOver, hold]
              · cases hr

/-- Every packet that got a slot is still cached and not yet handed over, or was
handed over in exactly one record of exactly one successful copy; a slot of the
latter kind that is not free yet is one the running clean-up comes to. What a
successful copy hands over as a packet's record is what its slot held when the
same call scanned it. -/
theorem handed_over_exactly_once (log : Log) (outside : Mem) (acts : List Act) :
    let s := stateAfter log outside acts
    ((copiedIndex s.reader).Nodup ∧
      ∀ j i, freed s.reader ≤ j → (copiedIndex s.reader)[j]? = some i →
        s.cache.module.status i = true ∧ s.copiedOwner[j]? = some (s.cache.owner i) ∧
        ∀ pkt, claimedSlot pkt s.cache.module ≠ some i) ∧
    (∀ past copied, CopyIn log outside acts past copied →
      Recorded log outside past copied ∧
      s.handed[(stateAfter log outside past).handed.length]? =
        some (stateAfter log outside past).copiedOwner) ∧
    (∀ q, q < s.handed.length → ∃ past copied, CopyIn log outside acts past copied ∧
      (stateAfter log outside past).handed.length = q) ∧
    (∀ act i, s.cache.module.status i = true → (step s act).cache.module.status i = false →
      ∃ off ok copied k past, act = .reader off ok ∧ s.reader = .clean copied k ∧
        copied[k]? = some i ∧ s.copiedOwner[k]? = some (s.cache.owner i) ∧
        CopyIn log outside acts past copied ∧
        (stateAfter log outside past).copiedOwner = s.copiedOwner ∧
        s.handed = (stateAfter log outside past).handed ++ [s.copiedOwner]) ∧
    ∀ p, p < s.cache.stored.length →
      (s.cache.cached p ∧ s.handed.flatten.count p = 0) ∨
      (s.handed.flatten.count p = 1 ∧ ∀ i, s.cache.module.status i = true → s.cache.owner i = p →
        ∃ copied k, s.reader = .clean copied k ∧ i ∈ copied.drop k) := by
  intro s
  have h : Inv s := inv_run log outside acts
  refine ⟨⟨h.nodup, fun j i hj hi => ?_⟩, fun past copied hcopy => ?_, fun q hq => exists_copyIn acts hq,
    fun act i hi hf => ?_, fun p hp => ?_⟩
  · obtain ⟨hs, ho⟩ := h.kept j i hj hi
    refine ⟨hs, ho, fun pkt hc => ?_⟩
    rw [claimedSlot] at hc
    split at hc
    next =>
      rw [freeSlot_free hc] at hs
      exact Bool.noConfusion hs
    next => cases hc
  · obtain ⟨l, hr, rfl⟩ := hcopy.scan
    exact ⟨recorded_of_scan hr, hcopy.handed⟩
  · obtain ⟨off, ok, copied, k, ha, hr, hk⟩ := freed_by_clean hi hf
    have hown := (h.kept k i (by rw [hr]; exact Nat.le_refl k) (by rw [hr]; exact hk)).2
    obtain ⟨past, hcopy, hsame, hhanded⟩ := copyIn_of_clean hr
    rw [hsame] at hhanded
    exact ⟨off, ok, copied, k, past, ha, hr, hk, hown, hcopy, hsame, hhanded⟩
  · by_cases hh : p ∈ s.handed.flatten
    · right
      refine ⟨List.count_eq_one_of_mem h.handed_nodup hh, fun i hi ho => ?_⟩
      exact h.pending i hi (by rw [ho]; exact hh)
    · left
      refine ⟨?_, List.count_eq_zero_of_not_mem hh⟩
      rcases h.no_loss p hp with hc | hm
      · exact hc
      · exact absurd hm hh

end PacketIntercept.CopiedRecords
