import PacketIntercept.CausalOrder

namespace PacketIntercept.Delivery

open ByteMemory CyclicSlots Common LogBuffs RxHandler ReadProc TrackedCache HandOver CacheContents
open Client UserProcessing CausalOrder Runs

/-- A client frame that user-processing logs if it gets to see it. -/
def IsValidPacket (pkt : Skb) : Prop :=
  ∃ uid created, IsClientPacket pkt uid created ∧ uid < 2 ^ 64 ∧ created < 2 ^ 64 ∧ created ≠ 0

def IsValidEvent : Event → Prop
  | .packet pkt => IsValidPacket pkt
  | _ => True

/-- No packet waits in the slots that a payload of the client runs over: it is
eight slots long, and the slot that is searched for it is one. -/
def Spaced (pkt : Skb) (m : Module) : Prop :=
  ∀ i, claimedSlot pkt m = some i → ∀ j : Slot, i.val < j.val →
    j.val * pktBufferSize < i.val * pktBufferSize + sizeofPayload → m.status j = false

def SpacedEvent (s : State) : Event → Prop
  | .packet pkt => Spaced pkt s.sys.cache.module
  | _ => True

def KeepsPackets (c : Cache) : Prop :=
  ∀ i, c.module.status i = true → ∃ pkt, c.stored[c.owner i]? = some pkt ∧
    PrefixAt pkt c.module.buffFromHere (i.val * pktBufferSize)

/-- Nothing that waits in the cache or in buff_temp was overwritten with zeros. -/
structure Unharmed (s : System) : Prop where
  slots : ∀ i, s.cache.module.status i = true →
    s.cache.module.buffFromHere (i.val * pktBufferSize) ≠ 0
  temp : ∀ l, s.reader = .scan l → ∀ j, j < s.copiedOwner.length →
    s.cache.module.buffTemp (j * pktBufferSize) ≠ 0

theorem IsValidPacket.first_byte {pkt : Skb} (h : IsValidPacket pkt) : pkt.data 28 ≠ 0 := by
  obtain ⟨uid, created, hc, _⟩ := h
  rw [hc.payload 0 (by decide), clientPayload, if_pos (by decide)]
  decide

theorem IsValidPacket.checkPacket {pkt : Skb} (h : IsValidPacket pkt) : checkPacket pkt.data 28 = true := by
  obtain ⟨uid, created, hc, hu, hct, hne⟩ := h
  have hbytes : ∀ b, b < 32 → pkt.data (28 + b) = clientPayload uid created (0 + b) := by
    intro b hb
    rw [hc.payload b (Nat.lt_trans hb (by decide)), Nat.zero_add]
  obtain ⟨h1, _, h2, h3⟩ := clientPayload_fields hu hct
  rw [(checkPacket_congr hbytes).1, Common.checkPacket, h1, h2, h3]
  simp [hne]

theorem keepsPackets_iff {s : System} (hc : Contents s)
    (hv : ∀ pkt ∈ s.cache.stored, IsValidPacket pkt) :
    KeepsPackets s.cache ↔ ∀ i, s.cache.module.status i = true →
      s.cache.module.buffFromHere (i.val * pktBufferSize) ≠ 0 := by
  apply forall₂_congr
  intro i hi
  constructor
  · rintro ⟨pkt, hst, hp⟩
    have h0 := hp 0 (by decide)
    rw [Nat.add_zero] at h0
    rw [h0]
    exact (hv pkt (List.mem_of_getElem? hst)).first_byte
  · intro hne
    rcases hc.slots i hi with hz | hown
    · exact absurd (hz 0 (by decide)) hne
    · exact hown

theorem unharmed_start (log : Log) (outside : Mem) : Unharmed (HandOver.start log outside) :=
  ⟨fun i hi => by simp [HandOver.start, Cache.empty, loaded] at hi,
    fun l hl => by simp [HandOver.start] at hl⟩

theorem unharmed_packet {s : System} {pkt : Skb} (h : Unharmed s) (now : Nat) (hv : IsValidPacket pkt)
    (hsp : Spaced pkt s.cache.module) : Unharmed (HandOver.step s (.packet now pkt)) := by
  have hlen : pkt.copyLen = sizeofPayload := by
    obtain ⟨uid, created, hc, _⟩ := hv
    exact hc.copyLen
  refine ⟨?_, ?_⟩
  · intro j hj
    simp only [HandOver.step] at hj ⊢
    rcases arrive_cases now pkt s.cache with ⟨_, _, _, hs, _, hb⟩ | ⟨i, hclaim, _, _, _, hs, _, hb⟩
    · rw [hs] at hj
      rw [hb]
      exact h.slots j hj
    · rw [hs] at hj
      rw [hb, hlen]
      by_cases hji : j = i
      · rw [hji, memcpy_first _ _ _ (by decide)]
        exact hv.first_byte
      · rw [Function.update_of_ne hji] at hj
        have hout : j.val * pktBufferSize < i.val * pktBufferSize ∨
            i.val * pktBufferSize + sizeofPayload ≤ j.val * pktBufferSize := by
          by_contra hin
          rw [not_or, Nat.not_lt, Nat.not_le] at hin
          have hlt : i.val < j.val := by
            have hne : i.val ≠ j.val := fun he => hji (Fin.ext he.symm)
            simp only [pktBufferSize] at hin
            omega
          rw [hsp i hclaim j hlt hin.2] at hj
          exact Bool.noConfusion hj
        rw [memcpy_outside _ _ _ _ _ hout]
        exact h.slots j hj
  · have htemp : (s.cache.arrive now pkt).module.buffTemp = s.cache.module.buffTemp := by
      rw [arrive_module, rxhPacketIn_buffTemp]
    simp only [HandOver.step, htemp]
    exact h.temp

theorem unharmed_scan {s : System} (hinv : Inv s) (h : Unharmed s) {l : Scan} (hr : s.reader = .scan l)
    (hrun : l.running = true) (off : BitVec 64) (ok : Bool) :
    Unharmed (HandOver.step s (.reader off ok)) := by
  have hlen := (scanned_of_inv hinv hr).length_eq
  have htemp := h.temp l hr
  have hstep := readerStep_scan hrun off ok s.cache.module
  rw [← hr] at hstep
  simp only [HandOver.step, hstep]
  refine ⟨fun i hi => ?_, fun _ _ j hj => ?_⟩
  · obtain ⟨temp, he⟩ := scanIteration_frame s.cache.module l
    simp only [he] at hi ⊢
    exact h.slots i hi
  · simp only [nextCopiedOwner, hr, hrun, Bool.true_and] at hj
    by_cases hci : s.cache.module.status l.ci = true
    · rw [if_pos hci, List.length_append, List.length_singleton] at hj
      rw [scanIteration, if_pos hci]
      simp only [← hlen]
      rcases Nat.lt_or_eq_of_le (Nat.le_of_lt_succ hj) with hlt | heq
      · rw [memcpy_block_first_ne _ _ (Nat.ne_of_gt hlt) (Nat.le_refl _) (by decide)]
        exact htemp j hlt
      · rw [heq, memcpy_first _ _ _ (by decide), Nat.add_zero]
        exact h.slots l.ci hci
    · rw [if_neg hci] at hj
      rw [scanIteration, if_neg hci]
      exact htemp j hj

theorem unharmed_clean {s : System} (h : Unharmed s) {copied : List Slot} {k : Nat}
    (hr : s.reader = .clean copied k) (off : BitVec 64) (ok : Bool) :
    Unharmed (HandOver.step s (.reader off ok)) := by
  have hmod : (readerStep off ok (s.cache.module, s.reader)).1 = cleanIteration copied k s.cache.module := by
    simp [readerStep, hr]
  have hread (l : Scan) : (readerStep off ok (s.cache.module, s.reader)).2 ≠ .scan l := by
    simp only [readerStep, hr]
    split <;> exact fun he => by cases he
  simp only [HandOver.step, hmod]
  refine ⟨fun i hi => ?_, fun l hl => absurd hl (hread l)⟩
  obtain ⟨hne, hs⟩ := occupied_of_clean hi
  have hsame : (cleanIteration copied k s.cache.module).buffFromHere (i.val * pktBufferSize) =
      s.cache.module.buffFromHere (i.val * pktBufferSize) := by
    rw [cleanIteration]
    split
    next c hc =>
      have hci : c.val ≠ i.val := fun he => hne (hc.trans (congrArg some (Fin.ext he)))
      dsimp only
      rw [memset, memcpy_block_first_ne _ _ hci (Nat.le_refl _) (by decide)]
    next => rfl
  simp only [hsame]
  exact h.slots i hs

theorem unharmed_reader {s : System} (hinv : Inv s) (h : Unharmed s) (off : BitVec 64) (ok : Bool) :
    Unharmed (HandOver.step s (.reader off ok)) := by
  cases hr : s.reader with
  | idle =>
      by_cases ho : bufferSize ≤ off.toNat
      · have hstep : readerStep off ok (s.cache.module, s.reader) = (s.cache.module, .idle) := by
          simp [readerStep, hr, ho]
        simp only [HandOver.step, hstep]
        exact ⟨h.slots, fun l hl => by cases hl⟩
      · have hstep := readerStep_begin ho ok s.cache.module
        rw [← hr] at hstep
        simp only [HandOver.step, hstep]
        refine ⟨h.slots, fun l _ j hj => ?_⟩
        simp [nextCopiedOwner, hr] at hj
  | scan l =>
      by_cases hrun : l.running = true
      · exact unharmed_scan hinv h hr hrun off ok
      · have hmod : (readerStep off ok (s.cache.module, s.reader)).1 = s.cache.module := by
          rw [hr, readerStep, if_neg hrun]
          split <;> rfl
        have hread (l' : Scan) : (readerStep off ok (s.cache.module, s.reader)).2 ≠ .scan l' := by
          rw [hr, readerStep, if_neg hrun]
          split <;> exact fun he => by cases he
        simp only [HandOver.step, hmod]
        exact ⟨h.slots, fun l' hl' => absurd hl' (hread l')⟩
  | clean copied k => exact unharmed_clean h hr off ok

/-- Every packet the handler has stored is somewhere: in the cache, in a record
user-processing has still to decode, or in its log. -/
structure Accounted (s : State) : Prop where
  deliveries : Deliveries s
  unharmed : Unharmed s.sys
  valid : ∀ pkt ∈ s.sys.cache.stored, IsValidPacket pkt
  reading : s.phase = .reading ↔ s.sys.reader ≠ .idle
  unread : ∀ l, s.sys.reader = .scan l → s.readOwner = []
  copied : ∀ slots k, s.sys.reader = .clean slots k → s.readOwner = s.sys.copiedOwner
  short : s.readOwner.length ≤ pktsPerBuffer
  intact : s.phase ≠ .top → ∀ j, j < s.readOwner.length → s.buffRead (j * pktBufferSize) ≠ 0
  kept : ∀ p pkt, s.sys.cache.stored[p]? = some pkt → pkt.uid < maxLogEntry →
    s.sys.cache.cached p ∨ p ∈ pending s ∨ ∃ t, .up pkt.uid t ∈ s.trace

theorem decodeRecord_intact {stored : List Skb} {owners : List Nat} {buffRead : Mem} {i p : Nat}
    {pkt : Skb} (hi : i < pktsPerBuffer) (h : Records stored owners buffRead)
    (ho : owners[i]? = some p) (hst : stored[p]? = some pkt) (hv : IsValidPacket pkt)
    (h0 : buffRead (i * pktBufferSize) ≠ 0) (hu : pkt.uid < maxLogEntry) (now : Nat) (log : Log) :
    decodeRecord buffRead i now log = ⟨record shipped pkt.uid now log, some pkt.uid⟩ := by
  rcases (h i hi).1 p ho with hz | ⟨pkt', hst', hp⟩
  · exact absurd (hz 0 (by decide)) h0
  · rw [hst] at hst'
    cases hst'
    have hbytes : ∀ b, b < 32 → buffRead (i * pktBufferSize + b) = pkt.data (28 + b) :=
      fun b hb => hp b (Nat.lt_trans hb (by decide))
    have hcheck : checkPacket buffRead (i * pktBufferSize) = true :=
      (checkPacket_congr hbytes).1.trans hv.checkPacket
    rw [decodeRecord, if_neg h0, if_pos hcheck, uid_of_prefixAt hp, if_pos hu]

theorem accounted_start (kmLog log : Log) (outside : Mem) :
    Accounted (UserProcessing.start kmLog log outside) where
  deliveries := (ordered_start kmLog log outside).deliveries
  unharmed := unharmed_start kmLog outside
  valid := fun _ h => absurd h List.not_mem_nil
  reading := ⟨fun h => Phase.noConfusion h, fun h => absurd rfl h⟩
  unread := fun _ h => by cases h
  copied := fun _ _ h => by cases h
  short := Nat.zero_le _
  intact := fun h => absurd rfl h
  kept := fun p pkt h => by simp [UserProcessing.start, HandOver.start, Cache.empty] at h

theorem accounted_tick {s : State} (h : Accounted s) (d : Nat) :
    Accounted (UserProcessing.step s (.tick d)) where
  deliveries := ⟨h.deliveries.hand, h.deliveries.contents, h.deliveries.index_lt,
    h.deliveries.records, h.deliveries.nodup, h.deliveries.handed, h.deliveries.marked⟩
  unharmed := h.unharmed
  valid := h.valid
  reading := h.reading
  unread := h.unread
  copied := h.copied
  short := h.short
  intact := h.intact
  kept := h.kept

theorem cached_arrive {c : Cache} {p : Nat} (now : Nat) (pkt : Skb) (h : c.cached p) :
    (c.arrive now pkt).cached p := by
  obtain ⟨i, hi, ho⟩ := h
  obtain ⟨hs, ho'⟩ := arrive_keeps now pkt hi
  exact ⟨i, hs, ho'.trans ho⟩

theorem stored_arrive {c : Cache} {now p : Nat} {pkt pkt' : Skb}
    (h : (c.arrive now pkt).stored[p]? = some pkt') :
    c.stored[p]? = some pkt' ∨ pkt' = pkt ∧ (c.arrive now pkt).cached p := by
  rcases arrive_cases now pkt c with ⟨_, hst, _⟩ | ⟨i, _, _, hst, ho, hs, _⟩
  · rw [hst] at h
    exact .inl h
  · rw [hst] at h
    by_cases hp : p < c.stored.length
    · rw [List.getElem?_append_left hp] at h
      exact .inl h
    · have hlt := (List.getElem?_eq_some_iff.mp h).1
      have hp' : p = c.stored.length := by
        rw [List.length_append, List.length_singleton] at hlt
        omega
      rw [hp', List.getElem?_concat_length, Option.some.injEq] at h
      refine .inr ⟨h.symm, i, ?_, ?_⟩
      · rw [hs, Function.update_self]
      · rw [ho, Function.update_self, hp']

theorem accounted_packet {s : State} {pkt : Skb} (h : Accounted s) (hv : IsValidPacket pkt)
    (hsp : Spaced pkt s.sys.cache.module) : Accounted (UserProcessing.step s (.packet pkt)) where
  deliveries := by
    obtain ⟨uid, created, hc, _⟩ := hv
    exact deliveries_packet hc h.deliveries
  unharmed := unharmed_packet h.unharmed s.clock hv hsp
  valid := by
    intro pkt' hm
    obtain ⟨p, hp⟩ := List.getElem?_of_mem hm
    rcases stored_arrive hp with hold | ⟨rfl, _⟩
    · exact h.valid pkt' (List.mem_of_getElem? hold)
    · exact hv
  reading := h.reading
  unread := h.unread
  copied := h.copied
  short := h.short
  intact := h.intact
  kept := by
    intro p pkt' hp hu
    rcases stored_arrive hp with hold | ⟨_, hc⟩
    · rcases h.kept p pkt' hold hu with hc | hm | ⟨t, ht⟩
      · exact .inl (cached_arrive s.clock pkt hc)
      · exact .inr (.inl hm)
      · exact .inr (.inr ⟨t, up_mem_kmMarks.mpr ht⟩)
    · exact .inl hc

theorem cached_congr {c : Cache} {m : Module} {p : Nat} (hs : m.status = c.module.status)
    (h : c.cached p) : ({ c with module := m } : Cache).cached p := by
  obtain ⟨i, hi, ho⟩ := h
  exact ⟨i, by rw [hs]; exact hi, ho⟩

theorem phaseAfter_reading (r : Reader) : phaseAfter r = .reading ↔ r ≠ .idle := by
  cases r with
  | idle => simp [phaseAfter]
  | scan l => simp [phaseAfter]
  | clean slots k => simp [phaseAfter]

theorem accounted_begin {s : State} (h : Accounted s) (hph : s.phase = .top) (ok : Bool) :
    Accounted (beginIteration ok s) := by
  have hidle : s.sys.reader = .idle := by
    by_contra hne
    rw [h.reading.mpr hne] at hph
    cases hph
  have hstep : readerStep 0 ok (s.sys.cache.module, .idle) =
      ((beginScan s.sys.cache.module).1, .scan (beginScan s.sys.cache.module).2) :=
    readerStep_begin (by decide) ok s.sys.cache.module
  rw [← hidle] at hstep
  have hreader : (beginIteration ok s).sys.reader = .scan (beginScan s.sys.cache.module).2 := by
    simp only [beginIteration, HandOver.step, hstep]
  exact {
    deliveries := deliveries_begin h.deliveries ok
    unharmed := unharmed_reader h.deliveries.hand h.unharmed 0 ok
    valid := h.valid
    reading := by
      rw [hreader]
      exact phaseAfter_reading (.scan _)
    unread := fun _ _ => rfl
    copied := fun _ _ he => by
      rw [hreader] at he
      cases he
    short := Nat.zero_le _
    intact := fun _ j hj => absurd hj (Nat.not_lt_zero j)
    kept := by
      intro p pkt hst hu
      rcases h.kept p pkt hst hu with hc | hm | ht
      · exact .inl (cached_congr (by rw [hstep]; rfl) hc)
      · simp [pending, hph] at hm
      · exact .inr (.inr ht) }

theorem accounted_scan {s : State} (h : Accounted s) (hph : s.phase = .reading) {l : Scan}
    (hr : s.sys.reader = .scan l) (hrun : l.running = true) (ok : Bool) :
    Accounted (readStep ok s) := by
  have hstep := readerStep_scan hrun 0 ok s.sys.cache.module
  rw [← hr] at hstep
  have hhands : (s.sys.reader.handsOver ok).isSome = false := by simp [Reader.handsOver, hr, hrun]
  have howner : (readStep ok s).readOwner = [] := by simp [readStep, hhands, h.unread l hr]
  have hreader : (readStep ok s).sys.reader = .scan (scanIteration s.sys.cache.module l).2 := by
    simp only [readStep, HandOver.step, hstep]
  exact {
    deliveries := deliveries_readStep h.deliveries hph ok
    unharmed := unharmed_reader h.deliveries.hand h.unharmed 0 ok
    valid := h.valid
    reading := phaseAfter_reading _
    unread := fun _ _ => howner
    copied := fun _ _ he => by
      rw [hreader] at he
      cases he
    short := by
      rw [howner]
      exact Nat.zero_le _
    intact := fun _ j hj => by
      rw [howner] at hj
      exact absurd hj (Nat.not_lt_zero j)
    kept := by
      intro p pkt hst hu
      rcases h.kept p pkt hst hu with hc | hm | ht
      · exact .inl (cached_congr (by rw [hstep, scanIteration_status]) hc)
      · simp [pending, hph, h.unread l hr] at hm
      · exact .inr (.inr ht) }

/-- The search is over: copy_to_user delivers the records or the read fails. -/
theorem accounted_copy {s : State} (h : Accounted s) (hph : s.phase = .reading) {l : Scan}
    (hr : s.sys.reader = .scan l) (hrun : l.running = false) (ok : Bool) :
    Accounted (readStep ok s) := by
  have hdel := deliveries_readStep h.deliveries hph ok
  have hunh := unharmed_reader h.deliveries.hand h.unharmed 0 ok
  have hscanned := scanned_of_inv h.deliveries.hand hr
  have hnone : pending s = [] := by simp [pending, hph, h.unread l hr]
  cases ok with
  | false =>
      have hstep : readerStep 0 false (s.sys.cache.module, s.sys.reader) =
          (s.sys.cache.module, .idle) := by simp [readerStep, hr, hrun]
      have howner : (readStep false s).readOwner = [] := by
        simp [readStep, Reader.handsOver, hr, h.unread l hr]
      have hreader : (readStep false s).sys.reader = .idle := by
        simp only [readStep, HandOver.step, hstep]
      exact {
        deliveries := hdel
        unharmed := hunh
        valid := h.valid
        reading := phaseAfter_reading _
        unread := fun _ _ => howner
        copied := fun _ _ he => by
          rw [hreader] at he
          cases he
        short := by
          rw [howner]
          exact Nat.zero_le _
        intact := fun _ j hj => by
          rw [howner] at hj
          exact absurd hj (Nat.not_lt_zero j)
        kept := by
          intro p pkt hst hu
          rcases h.kept p pkt hst hu with hc | hm | ht
          · exact .inl (cached_congr (by rw [hstep]) hc)
          · rw [hnone] at hm
            cases hm
          · exact .inr (.inr ht) }
  | true =>
      have hstep : readerStep 0 true (s.sys.cache.module, s.sys.reader) =
          (s.sys.cache.module, .clean l.copiedIndex 0) := by simp [readerStep, hr, hrun]
      have hhands : (s.sys.reader.handsOver true).isSome = true := by
        simp [Reader.handsOver, hr, hrun]
      have howner : (readStep true s).readOwner = s.sys.copiedOwner := by simp [readStep, hhands]
      have hcopied : (readStep true s).sys.copiedOwner = s.sys.copiedOwner := by
        simp [readStep, HandOver.step, nextCopiedOwner, hr, hrun]
      have hbuff : (readStep true s).buffRead =
          memcpy s.buffRead 0 s.sys.cache.module.buffTemp bufferSize := by simp [readStep, hhands]
      have hreader : (readStep true s).sys.reader = .clean l.copiedIndex 0 := by
        simp only [readStep, HandOver.step, hstep]
      have hlen : s.sys.copiedOwner.length ≤ pktsPerBuffer := by
        rw [hscanned.length_eq]
        exact hscanned.length_le
      exact {
        deliveries := hdel
        unharmed := hunh
        valid := h.valid
        reading := phaseAfter_reading _
        unread := fun _ he => by
          rw [hreader] at he
          cases he
        copied := fun _ _ _ => howner.trans hcopied.symm
        short := by
          rw [howner]
          exact hlen
        intact := by
          intro _ j hj
          rw [howner] at hj
          have hlt : j * pktBufferSize < bufferSize := by
            simp only [pktsPerBuffer, bufferSize, pktBufferSize] at *
            omega
          have hin := memcpy_inside s.buffRead 0 s.sys.cache.module.buffTemp bufferSize _ hlt
          rw [Nat.zero_add] at hin
          rw [hbuff, hin]
          exact h.unharmed.temp l hr j hj
        kept := by
          intro p pkt hst hu
          rcases h.kept p pkt hst hu with hc | hm | ht
          · exact .inl (cached_congr (by rw [hstep]) hc)
          · rw [hnone] at hm
            cases hm
          · exact .inr (.inr ht) }

theorem accounted_clean {s : State} (h : Accounted s) (hph : s.phase = .reading) {slots : List Slot}
    {k : Nat} (hr : s.sys.reader = .clean slots k) (ok : Bool) : Accounted (readStep ok s) := by
  have hstep : readerStep 0 ok (s.sys.cache.module, s.sys.reader) =
      (cleanIteration slots k s.sys.cache.module,
        if k + 1 < pktsPerBuffer then .clean slots (k + 1) else .idle) := by
    simp [readerStep, hr]
  have hhands : (s.sys.reader.handsOver ok).isSome = false := by simp [Reader.handsOver, hr]
  have howner : (readStep ok s).readOwner = s.readOwner := by simp [readStep, hhands]
  have hbuff : (readStep ok s).buffRead = s.buffRead := by simp [readStep, hhands]
  have hcopied : (readStep ok s).sys.copiedOwner = s.sys.copiedOwner := by
    simp [readStep, HandOver.step, nextCopiedOwner, hr]
  have hreader : (readStep ok s).sys.reader =
      if k + 1 < pktsPerBuffer then .clean slots (k + 1) else .idle := by
    simp only [readStep, HandOver.step, hstep]
  have hpend : pending (readStep ok s) = s.readOwner := by rw [pending_readStep, howner]
  have hnottop : s.phase ≠ .top := by
    intro he
    rw [hph] at he
    cases he
  exact {
    deliveries := deliveries_readStep h.deliveries hph ok
    unharmed := unharmed_reader h.deliveries.hand h.unharmed 0 ok
    valid := h.valid
    reading := phaseAfter_reading _
    unread := by
      intro l he
      rw [hreader] at he
      split at he
      · cases he
      · cases he
    copied := by
      intro slots' k' _
      rw [howner, hcopied]
      exact h.copied slots k hr
    short := by
      rw [howner]
      exact h.short
    intact := by
      intro _ j hj
      rw [howner] at hj
      rw [hbuff]
      exact h.intact hnottop j hj
    kept := by
      intro p pkt hst hu
      rw [hpend]
      rcases h.kept p pkt hst hu with ⟨i, hi, ho⟩ | hm | ht
      · by_cases hk : slots[k]? = some i
        · have hown := (h.deliveries.hand.kept k i (by rw [hr]; exact Nat.le_refl k)
            (by rw [hr]; exact hk)).2
          rw [ho, ← h.copied slots k hr] at hown
          exact .inr (.inl (List.mem_of_getElem? hown))
        · refine .inl ⟨i, ?_, ho⟩
          simp only [readStep, HandOver.step, hstep, cleanIteration_status, hk, if_false]
          exact hi
      · simp only [pending, hph] at hm
        exact .inr (.inl hm)
      · exact .inr (.inr ht) }

theorem pending_drop {s : State} {i p : Nat} (hph : s.phase = nextRecord i)
    (hshort : s.readOwner.length ≤ pktsPerBuffer) (hp : p ∈ s.readOwner.drop (i + 1)) :
    p ∈ pending s := by
  by_cases hi : i + 1 < pktsPerBuffer
  · simpa [pending, hph, nextRecord, hi] using hp
  · rw [List.drop_eq_nil_of_le (by omega)] at hp
    cases hp

theorem nextRecord_ne_reading (i : Nat) : nextRecord i ≠ .reading := by
  intro he
  rw [nextRecord] at he
  split at he
  · cases he
  · cases he

theorem accounted_decode {s : State} {i : Nat} (h : Accounted s) (hph : s.phase = .decode i) :
    Accounted (decodeStep i s) := by
  have hnottop : s.phase ≠ .top := by
    intro he
    rw [hph] at he
    cases he
  have hidle : s.sys.reader = .idle := by
    by_contra hne
    rw [h.reading.mpr hne] at hph
    cases hph
  have hup {k t : Nat} (hm : .up k t ∈ s.trace) : .up k t ∈ (decodeStep i s).trace :=
    List.mem_append_left _ hm
  exact {
    deliveries := deliveries_decodeStep h.deliveries hph
    unharmed := h.unharmed
    valid := h.valid
    reading := ⟨fun he => absurd he (nextRecord_ne_reading i), fun hne => absurd hidle hne⟩
    unread := h.unread
    copied := h.copied
    short := h.short
    intact := fun _ => h.intact hnottop
    kept := by
      intro p pkt hst hu
      rcases h.kept p pkt hst hu with hc | hm | ⟨t, ht⟩
      · exact .inl hc
      · right
        simp only [pending, hph] at hm
        obtain ⟨q, hq⟩ : ∃ q, s.readOwner[i]? = some q := by
          refine ⟨_, List.getElem?_eq_getElem ?_⟩
          have hlt := List.length_pos_of_mem hm
          rw [List.length_drop] at hlt
          omega
        rw [drop_eq_cons hq, List.mem_cons] at hm
        rcases hm with rfl | hm
        · have hd := decodeRecord_intact (h.deliveries.index_lt i hph)
            (h.deliveries.records hnottop) hq hst (h.valid pkt (List.mem_of_getElem? hst))
            (h.intact hnottop i (List.getElem?_eq_some_iff.mp hq).1) hu s.clock s.log
          exact .inr ⟨s.clock, by simp [decodeStep, hd]⟩
        · exact .inl (pending_drop rfl h.short hm)
      · exact .inr (.inr ⟨t, hup ht⟩) }

theorem accounted_user {s : State} (h : Accounted s) (ok : Bool) :
    Accounted (UserProcessing.step s (.user ok)) := by
  cases hph : s.phase with
  | top =>
      rw [show UserProcessing.step s (.user ok) = beginIteration ok s by
        simp only [UserProcessing.step, hph]]
      exact accounted_begin h hph ok
  | reading =>
      rw [show UserProcessing.step s (.user ok) = readStep ok s by
        simp only [UserProcessing.step, hph]]
      cases hr : s.sys.reader with
      | idle => exact absurd hr (h.reading.mp hph)
      | scan l =>
          cases hrun : l.running with
          | true => exact accounted_scan h hph hr hrun ok
          | false => exact accounted_copy h hph hr hrun ok
      | clean slots k => exact accounted_clean h hph hr ok
  | decode i =>
      rw [show UserProcessing.step s (.user ok) = decodeStep i s by
        simp only [UserProcessing.step, hph]]
      exact accounted_decode h hph

theorem accounted_step {s : State} (e : Event) (hv : IsValidEvent e) (hsp : SpacedEvent s e)
    (h : Accounted s) : Accounted (UserProcessing.step s e) := by
  cases e with
  | tick d => exact accounted_tick h d
  | packet pkt => exact accounted_packet h hv hsp
  | user ok => exact accounted_user h ok

theorem accounted_run (kmLog log : Log) (outside : Mem) (events : List Event)
    (hvalid : ∀ e ∈ events, IsValidEvent e)
    (hspaced : Along UserProcessing.step SpacedEvent (UserProcessing.start kmLog log outside) events) :
    Accounted (run UserProcessing.step (UserProcessing.start kmLog log outside) events) :=
  run_along (fun _ e hv hsp h => accounted_step e hv hsp h) (accounted_start kmLog log outside) events
    hvalid hspaced

/-- A payload that runs into a waiting packet's slot leaves zeros there. -/
theorem spaced_of_keeps {c : Cache} {now : Nat} {pkt : Skb} (hv : IsValidPacket pkt)
    (hstored : ∀ pkt ∈ c.stored, IsValidPacket pkt) (h : KeepsPackets (c.arrive now pkt)) :
    Spaced pkt c.module := by
  intro i hclaim j hij hj
  by_contra hocc
  rw [Bool.not_eq_false] at hocc
  obtain ⟨uid, created, hc, _⟩ := id hv
  obtain ⟨pkt', hst, hp⟩ := h j (arrive_keeps now pkt hocc).1
  have hfirst := hp 0 (by decide)
  rcases arrive_cases now pkt c with ⟨hnone, _⟩ | ⟨i', hclaim', _, _, _, _, _, hb⟩
  · rw [hclaim] at hnone
    cases hnone
  · rw [hclaim, Option.some.injEq] at hclaim'
    subst i'
    have hpos : j.val * pktBufferSize + 0 =
        i.val * pktBufferSize + (j.val - i.val) * pktBufferSize := by
      rw [← Nat.add_mul, Nat.add_sub_cancel' (Nat.le_of_lt hij), Nat.add_zero]
    have hoff : (j.val - i.val) * pktBufferSize < sizeofPayload := by omega
    have hlow : 32 ≤ (j.val - i.val) * pktBufferSize := by
      simp only [pktBufferSize]
      omega
    rw [hb, hc.copyLen, hpos, memcpy_inside _ _ _ _ _ hoff, hc.zero_tail hlow hoff] at hfirst
    rcases stored_arrive hst with hold | ⟨rfl, _⟩
    · exact (hstored pkt' (List.mem_of_getElem? hold)).first_byte hfirst.symm
    · exact hv.first_byte hfirst.symm

theorem keeps_of_accounted {s : State} (h : Accounted s) : KeepsPackets s.sys.cache :=
  (keepsPackets_iff h.deliveries.contents h.valid).mpr h.unharmed.slots

theorem spaced_iff_keeps (s : State) (e : Event) (hv : IsValidEvent e) (h : Accounted s) :
    SpacedEvent s e ↔ KeepsPackets (UserProcessing.step s e).sys.cache := by
  constructor
  · exact fun hsp => keeps_of_accounted (accounted_step e hv hsp h)
  · intro hk
    cases e with
    | tick d => trivial
    | packet pkt => exact spaced_of_keeps hv h.valid hk
    | user ok => trivial

/-- Over a whole run of client frames the cache keeps the beginning of every
packet that waits in it exactly if no frame arrives while a packet waits in one
of the slots behind the one it gets. -/
theorem keeps_packets_iff_spaced (kmLog log : Log) (outside : Mem) (events : List Event)
    (hvalid : ∀ e ∈ events, IsValidEvent e) :
    Along UserProcessing.step (fun s e => KeepsPackets (UserProcessing.step s e).sys.cache)
        (UserProcessing.start kmLog log outside) events ↔
      Along UserProcessing.step SpacedEvent (UserProcessing.start kmLog log outside) events := by
  symm
  exact along_congr (fun _ e hv hsp h => accounted_step e hv hsp h) spaced_iff_keeps
    (accounted_start kmLog log outside) events hvalid

theorem clientSkb_isValidPacket {uid created : Nat} (hu : uid < 2 ^ 64) (hc : created < 2 ^ 64)
    (hne : created ≠ 0) : IsValidPacket (clientSkb uid created) :=
  ⟨uid, created, clientSkb_isClientPacket uid created, hu, hc, hne⟩

theorem twoPackets_valid : ∀ e ∈ twoPackets, IsValidEvent e := by
  intro e he
  rcases List.mem_append.mp he with he | he
  · simp only [List.mem_cons, List.not_mem_nil, or_false] at he
    rcases he with rfl | rfl | rfl
    · exact clientSkb_isValidPacket (by decide) (by decide) (by decide)
    · trivial
    · exact clientSkb_isValidPacket (by decide) (by decide) (by decide)
  · rw [List.eq_of_mem_replicate he]
    trivial

theorem twoPackets_spaced :
    Along UserProcessing.step SpacedEvent
      (UserProcessing.start (fun _ _ => 0) (fun _ _ => 0) fun _ => 255) twoPackets := by
  refine ⟨fun i _ j _ _ => rfl, trivial, fun i _ j hij _ => ?_, ?_⟩
  · have hc : claimedSlot (clientSkb 1 5) (Cache.empty (fun _ _ => 0) fun _ => 255).module =
        some ⟨0, by decide⟩ := by
      rw [claimedSlot, if_pos (clientSkb_isClientPacket 1 5).passesFilter]
      exact freeSlot_of_free rfl
    rcases arrive_cases 0 (clientSkb 1 5) (Cache.empty (fun _ _ => 0) fun _ => 255) with
      ⟨hn, _⟩ | ⟨i', hi', _, _, _, hs, _⟩
    · rw [hc] at hn
      cases hn
    · rw [hc, Option.some.injEq] at hi'
      subst i'
      have hj : j ≠ ⟨0, by decide⟩ := by
        rintro rfl
        exact absurd hij (Nat.not_lt_zero _)
      refine (congrFun hs j).trans ?_
      rw [Function.update_of_ne hj]
      rfl
  · apply along_of_forall
    intro e he s
    rw [List.eq_of_mem_replicate he]
    trivial

theorem keeps_packets_iff_spaced_two :
    Along UserProcessing.step (fun s e => KeepsPackets (UserProcessing.step s e).sys.cache)
      (UserProcessing.start (fun _ _ => 0) (fun _ _ => 0) fun _ => 255) twoPackets :=
  (keeps_packets_iff_spaced _ _ _ twoPackets twoPackets_valid).mpr twoPackets_spaced

end PacketIntercept.Delivery
