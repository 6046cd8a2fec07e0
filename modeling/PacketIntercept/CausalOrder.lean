import PacketIntercept.Runs
import PacketIntercept.UserProcessing

namespace PacketIntercept.CausalOrder

open ByteMemory Common LogBuffs RxHandler ReadProc TrackedCache HandOver CacheContents Client
open UserProcessing Runs

def IsClientEvent : Event → Prop
  | .packet pkt => ∃ uid created, IsClientPacket pkt uid created
  | _ => True

def uids (events : List Event) : List Nat :=
  events.filterMap fun
    | .packet pkt => some pkt.uid
    | _ => none

/-- User space logs a uid once, and not before the handler has. -/
def CauseFirst (past : List Mark) : Mark → Prop
  | .km _ _ => True
  | .up k t => (∃ t', .km k t' ∈ past ∧ t' ≤ t) ∧ ∀ t', .up k t' ∉ past

/-- What the handler has stored it has logged, under uids that came once. -/
structure Arrivals (past : List Event) (s : State) : Prop where
  logged : ∀ pkt ∈ s.sys.cache.stored, pkt.uid < maxLogEntry →
    ∃ t, .km pkt.uid t ∈ s.trace ∧ t ≤ s.clock
  stored_uids : (s.sys.cache.stored.map Skb.uid).Sublist (uids past)
  km_mem : ∀ k t, .km k t ∈ s.trace → k ∈ uids past
  km_entry : ∀ k t, .km k t ∈ s.trace → entry shipped s.sys.cache.module.logBuffs k = t

/-- What user space has logged came from records it is through with. -/
structure Deliveries (s : State) : Prop where
  hand : HandOver.Inv s.sys
  contents : Contents s.sys
  index_lt : ∀ i, s.phase = .decode i → i < pktsPerBuffer
  records : s.phase ≠ .top → Records s.sys.cache.stored s.readOwner s.buffRead
  nodup : s.readOwner.Nodup
  handed : ∀ p ∈ s.readOwner, p ∈ s.sys.handed.flatten
  marked : ∀ k t, .up k t ∈ s.trace → ∃ p pkt, p ∈ s.sys.handed.flatten ∧ p ∉ pending s ∧
    s.sys.cache.stored[p]? = some pkt ∧ pkt.uid = k

structure UserLog (log : Log) (s : State) : Prop where
  entries : ∀ k t, .up k t ∈ s.trace → entry shipped s.log k = t
  untouched : ∀ k, (∀ t, .up k t ∉ s.trace) → entry shipped s.log k = entry shipped log k
  lawful : Lawful CauseFirst s.trace

structure Ordered (log : Log) (past : List Event) (s : State) : Prop where
  arrivals : Arrivals past s
  deliveries : Deliveries s
  userLog : UserLog log s

theorem ordered_start (kmLog log : Log) (outside : Mem) :
    Ordered log [] (UserProcessing.start kmLog log outside) where
  arrivals := ⟨fun _ h => absurd h List.not_mem_nil, List.Sublist.refl _,
    fun _ _ h => absurd h List.not_mem_nil, fun _ _ h => absurd h List.not_mem_nil⟩
  deliveries := ⟨inv_start kmLog outside, contents_start kmLog outside, nofun,
    fun h => absurd rfl h, List.nodup_nil, fun _ h => absurd h List.not_mem_nil,
    fun _ _ h => absurd h List.not_mem_nil⟩
  userLog := ⟨fun _ _ h => absurd h List.not_mem_nil, fun _ _ => rfl, lawful_nil⟩

theorem up_mem_kmMarks {trace : List Mark} {pkt : Skb} {now k t : Nat} :
    .up k t ∈ trace ++ kmMarks pkt now ↔ .up k t ∈ trace := by
  rw [kmMarks]
  split <;> simp

theorem km_mem_kmMarks {trace : List Mark} {pkt : Skb} {now k t : Nat} (hp : pkt.passesFilter = true) :
    .km k t ∈ trace ++ kmMarks pkt now ↔
      .km k t ∈ trace ∨ pkt.uid < maxLogEntry ∧ k = pkt.uid ∧ t = now := by
  rw [kmMarks, hp, Bool.true_and]
  split
  next hu => simp [of_decide_eq_true hu]
  next hu => simp [of_decide_eq_false (Bool.eq_false_iff.mpr hu)]

theorem arrivals_packet {past : List Event} {s : State} {pkt : Skb} {uid created : Nat}
    (hc : IsClientPacket pkt uid created) (hfresh : pkt.uid ∉ uids past) (h : Arrivals past s) :
    Arrivals (past ++ [.packet pkt]) (UserProcessing.step s (.packet pkt)) := by
  have hp := hc.passesFilter
  have huids : uids (past ++ [.packet pkt]) = uids past ++ [pkt.uid] := by simp [uids]
  have hlog : (s.sys.cache.arrive s.clock pkt).module.logBuffs =
      record shipped pkt.uid s.clock s.sys.cache.module.logBuffs := by
    rw [arrive_module, rxhPacketIn_logBuffs, hp, if_pos rfl]
  have hkm {k t : Nat} := @km_mem_kmMarks s.trace pkt s.clock k t hp
  refine ⟨fun pkt' hm hu => ?_, ?_, fun k t hm => ?_, fun k t hm => ?_⟩
  · have hstored : pkt' ∈ s.sys.cache.stored ∨ pkt' = pkt := by
      rcases arrive_cases s.clock pkt s.sys.cache with ⟨_, hst, _⟩ | ⟨i, _, _, hst, _⟩
      · exact .inl (by simpa only [UserProcessing.step, HandOver.step, hst] using hm)
      · simpa [UserProcessing.step, HandOver.step, hst] using hm
    rcases hstored with hold | rfl
    · obtain ⟨t, hm, ht⟩ := h.logged pkt' hold hu
      exact ⟨t, hkm.mpr (.inl hm), ht⟩
    · exact ⟨s.clock, hkm.mpr (.inr ⟨hu, rfl, rfl⟩), Nat.le_refl _⟩
  · rw [huids]
    rcases arrive_cases s.clock pkt s.sys.cache with ⟨_, hst, _⟩ | ⟨i, _, _, hst, _⟩
    · simp only [UserProcessing.step, HandOver.step, hst]
      exact h.stored_uids.trans (List.sublist_append_left _ _)
    · simp only [UserProcessing.step, HandOver.step, hst, List.map_append, List.map_cons, List.map_nil]
      exact h.stored_uids.append (List.Sublist.refl _)
  · rw [huids, List.mem_append]
    rcases hkm.mp hm with hm | ⟨_, hk, _⟩
    · exact .inl (h.km_mem k t hm)
    · exact .inr (by simp [hk])
  · simp only [UserProcessing.step, HandOver.step, hlog, entry_record]
    rcases hkm.mp hm with hm | ⟨hu, hk, ht⟩
    · have hne : pkt.uid ≠ k := fun he => hfresh (he ▸ h.km_mem k t hm)
      rw [if_neg (fun hk => hne hk.1)]
      exact h.km_entry k t hm
    · rw [if_pos ⟨hk.symm, hu⟩, ht]

theorem deliveries_packet {s : State} {pkt : Skb} {uid created : Nat}
    (hc : IsClientPacket pkt uid created) (h : Deliveries s) :
    Deliveries (UserProcessing.step s (.packet pkt)) := by
  have hpre := arrive_extends s.clock pkt s.sys.cache
  refine ⟨inv_packet h.hand s.clock pkt, contents_packet h.contents s.clock hc, h.index_lt,
    fun ht => (h.records ht).mono hpre, h.nodup, h.handed, fun k t hm => ?_⟩
  obtain ⟨p, pkt', hp, hpend, hs, hu⟩ := h.marked k t (up_mem_kmMarks.mp hm)
  exact ⟨p, pkt', hp, hpend, getElem?_mono hpre hs, hu⟩

theorem userLog_packet {log : Log} {s : State} (pkt : Skb) (h : UserLog log s) :
    UserLog log (UserProcessing.step s (.packet pkt)) := by
  refine ⟨fun k t hm => h.entries k t (up_mem_kmMarks.mp hm), fun k hm => ?_, ?_⟩
  · exact h.untouched k fun t ht => hm t (up_mem_kmMarks.mpr ht)
  · simp only [UserProcessing.step, kmMarks]
    split
    · exact lawful_snoc h.lawful trivial
    · rw [List.append_nil]
      exact h.lawful

theorem arrivals_reader {past : List Event} {s s' : State} (h : Arrivals past s) (ok : Bool)
    (hsys : s'.sys = HandOver.step s.sys (.reader 0 ok)) (hclock : s'.clock = s.clock)
    (htrace : s'.trace = s.trace) : Arrivals past s' := by
  have hst : s'.sys.cache.stored = s.sys.cache.stored := by rw [hsys]; rfl
  have hlog : s'.sys.cache.module.logBuffs = s.sys.cache.module.logBuffs := by
    rw [hsys]
    exact readerStep_logBuffs 0 ok s.sys.cache.module s.sys.reader
  refine ⟨?_, ?_, ?_, ?_⟩
  · rw [hst, htrace, hclock]
    exact h.logged
  · rw [hst]
    exact h.stored_uids
  · rw [htrace]
    exact h.km_mem
  · rw [htrace, hlog]
    exact h.km_entry

theorem handed_reader (s : System) (off : BitVec 64) (ok : Bool) {p : Nat}
    (hp : p ∈ s.handed.flatten) : p ∈ (HandOver.step s (.reader off ok)).handed.flatten := by
  simp only [HandOver.step]
  split
  · rw [List.flatten_append]
    exact List.mem_append_left _ hp
  · exact hp

theorem deliveries_begin {s : State} (h : Deliveries s) (ok : Bool) :
    Deliveries (beginIteration ok s) where
  hand := inv_step s.sys (.reader 0 ok) h.hand
  contents := contents_reader h.hand h.contents 0 ok
  index_lt := nofun
  records := fun _ => records_zero _ fun i hi => by simp [beginIteration, memset_apply, hi]
  nodup := List.nodup_nil
  handed := fun _ hp => absurd hp List.not_mem_nil
  marked := by
    intro k t hm
    obtain ⟨p, pkt, hp, _, hs, hu⟩ := h.marked k t hm
    exact ⟨p, pkt, handed_reader s.sys 0 ok hp, List.not_mem_nil, hs, hu⟩

theorem pending_readStep (ok : Bool) (s : State) :
    pending (readStep ok s) = (readStep ok s).readOwner := by
  simp only [pending, readStep]
  generalize (HandOver.step s.sys (.reader 0 ok)).reader = r
  cases r <;> rfl

theorem phaseAfter_index {r : Reader} {i : Nat} (h : phaseAfter r = .decode i) : i < pktsPerBuffer := by
  cases r with
  | idle =>
      cases h
      decide
  | scan l => cases h
  | clean copied k => cases h

theorem copied_fresh {s : System} (h : HandOver.Inv s) {ok : Bool}
    (hs : (s.reader.handsOver ok).isSome = true) :
    s.copiedOwner.Nodup ∧ (∀ p ∈ s.handed.flatten, p ∉ s.copiedOwner) ∧
      ∀ p ∈ s.copiedOwner, p ∈ (HandOver.step s (.reader 0 ok)).handed.flatten := by
  have hflat : (HandOver.step s (.reader 0 ok)).handed.flatten =
      s.handed.flatten ++ s.copiedOwner := by
    simp [HandOver.step, hs]
  have hnodup := (inv_step s (.reader 0 ok) h).handed_nodup
  rw [hflat] at hnodup ⊢
  obtain ⟨_, hcopied, hdisj⟩ := List.nodup_append.mp hnodup
  exact ⟨hcopied, fun p hp hc => hdisj p hp p hc rfl, fun p hp => List.mem_append_right _ hp⟩

theorem records_copy {s : System} (h : Contents s) {ok : Bool} (buffRead : Mem)
    (hs : (s.reader.handsOver ok).isSome = true) :
    Records s.cache.stored s.copiedOwner (memcpy buffRead 0 s.cache.module.buffTemp bufferSize) := by
  obtain ⟨l, hl⟩ : ∃ l, s.reader = .scan l := by
    cases hr : s.reader with
    | idle => simp [Reader.handsOver, hr] at hs
    | scan l => exact ⟨l, rfl⟩
    | clean copied i => simp [Reader.handsOver, hr] at hs
  have hsame (j b : Nat) (hj : j < pktsPerBuffer) (hb : b < pktBufferSize) :
      memcpy buffRead 0 s.cache.module.buffTemp bufferSize (j * pktBufferSize + b) =
        s.cache.module.buffTemp (j * pktBufferSize + b) := by
    have hlt : j * pktBufferSize + b < bufferSize := by
      simp only [pktsPerBuffer, bufferSize, pktBufferSize] at *
      omega
    simpa using memcpy_inside buffRead 0 s.cache.module.buffTemp bufferSize _ hlt
  intro j hj
  obtain ⟨hown, hnone⟩ := h.temp l hl j hj
  refine ⟨fun p hp => (hown p hp).congr fun b hb => hsame j b hj hb, fun hn b hb => ?_⟩
  rw [hsame j b hj hb]
  exact hnone hn b hb

theorem deliveries_readStep {s : State} (h : Deliveries s) (hph : s.phase = .reading) (ok : Bool) :
    Deliveries (readStep ok s) := by
  have hpend : pending s = s.readOwner := by simp [pending, hph]
  have hnottop : s.phase ≠ .top := by rw [hph]; exact nofun
  have hhand : HandOver.Inv (readStep ok s).sys := inv_step s.sys (.reader 0 ok) h.hand
  have hcontents : Contents (readStep ok s).sys := contents_reader h.hand h.contents 0 ok
  cases hs : (s.sys.reader.handsOver ok).isSome with
  | true =>
      obtain ⟨hnodup, hfresh, hmem⟩ := copied_fresh h.hand hs
      have howner : (readStep ok s).readOwner = s.sys.copiedOwner := by simp [readStep, hs]
      have hbuff : (readStep ok s).buffRead =
          memcpy s.buffRead 0 s.sys.cache.module.buffTemp bufferSize := by simp [readStep, hs]
      refine ⟨hhand, hcontents, fun i hi => phaseAfter_index hi, fun _ => ?_, howner ▸ hnodup,
        howner ▸ hmem, fun k t hm => ?_⟩
      · rw [howner, hbuff]
        exact records_copy h.contents s.buffRead hs
      · obtain ⟨p, pkt, hp, _, hst, hu⟩ := h.marked k t hm
        refine ⟨p, pkt, handed_reader s.sys 0 ok hp, ?_, hst, hu⟩
        rw [pending_readStep, howner]
        exact hfresh p hp
  | false =>
      have howner : (readStep ok s).readOwner = s.readOwner := by simp [readStep, hs]
      have hbuff : (readStep ok s).buffRead = s.buffRead := by simp [readStep, hs]
      refine ⟨hhand, hcontents, fun i hi => phaseAfter_index hi, fun _ => ?_, howner ▸ h.nodup,
        fun p hp => ?_, fun k t hm => ?_⟩
      · rw [howner, hbuff]
        exact h.records hnottop
      · exact handed_reader s.sys 0 ok (h.handed p (howner ▸ hp))
      · obtain ⟨p, pkt, hp, hnp, hst, hu⟩ := h.marked k t hm
        refine ⟨p, pkt, handed_reader s.sys 0 ok hp, ?_, hst, hu⟩
        rw [pending_readStep, howner, ← hpend]
        exact hnp

theorem decodeStep_cases {s : State} {i : Nat} (h : Deliveries s) (hph : s.phase = .decode i) :
    decodeStep i s = { s with phase := nextRecord i } ∨
    ∃ p pkt, s.readOwner[i]? = some p ∧ s.sys.cache.stored[p]? = some pkt ∧
      pkt.uid < maxLogEntry ∧ decodeStep i s = { s with
        phase := nextRecord i
        log := record shipped pkt.uid s.clock s.log
        trace := s.trace ++ [.up pkt.uid s.clock] } := by
  have hrec := h.records (by rw [hph]; exact nofun)
  rcases decodeRecord_owner (h.index_lt i hph) hrec s.clock s.log with
    hd | ⟨p, pkt, ho, hst, hu, hd⟩
  · left
    simp [decodeStep, hd]
  · right
    exact ⟨p, pkt, ho, hst, hu, by simp [decodeStep, hd]⟩

theorem pending_nextRecord {s : State} {owners : List Nat} {i p : Nat} (hp : p ∈ pending s)
    (hph : s.phase = nextRecord i) (ho : s.readOwner = owners) : p ∈ owners.drop (i + 1) := by
  subst ho
  by_cases hi : i + 1 < pktsPerBuffer
  · simpa [pending, hph, nextRecord, hi] using hp
  · simp [pending, hph, nextRecord, hi] at hp

theorem drop_eq_cons {owners : List Nat} {i p : Nat} (h : owners[i]? = some p) :
    owners.drop i = p :: owners.drop (i + 1) := by
  obtain ⟨hi, he⟩ := List.getElem?_eq_some_iff.mp h
  rw [List.drop_eq_getElem_cons hi, he]

theorem deliveries_decodeStep {s : State} {i : Nat} (h : Deliveries s) (hph : s.phase = .decode i) :
    Deliveries (decodeStep i s) := by
  have hpend : pending s = s.readOwner.drop i := by simp [pending, hph]
  have hindex : ∀ j, nextRecord i = .decode j → j < pktsPerBuffer := by
    intro j hj
    rw [nextRecord] at hj
    split at hj
    next hlt =>
      cases hj
      exact hlt
    next => cases hj
  have hrec := h.records (by rw [hph]; exact nofun)
  -- what was decoded before record i is not pending behind it either
  have hold : ∀ p, p ∉ pending s → p ∉ s.readOwner.drop (i + 1) := by
    intro p hp hm
    rw [hpend] at hp
    exact hp (List.mem_of_mem_drop (by rwa [List.drop_drop] : p ∈ (s.readOwner.drop i).drop 1))
  rcases decodeStep_cases h hph with he | ⟨p, pkt, ho, hst, _, he⟩
  · rw [he]
    refine ⟨h.hand, h.contents, hindex, fun _ => hrec, h.nodup, h.handed, fun k t hm => ?_⟩
    obtain ⟨p, pkt, hp, hnp, hst, hu⟩ := h.marked k t hm
    exact ⟨p, pkt, hp, fun hq => hold p hnp (pending_nextRecord hq rfl rfl), hst, hu⟩
  · have hnodup : (p :: s.readOwner.drop (i + 1)).Nodup := by
      rw [← drop_eq_cons ho]
      exact h.nodup.sublist (List.drop_sublist _ _)
    rw [he]
    refine ⟨h.hand, h.contents, hindex, fun _ => hrec, h.nodup, h.handed, fun k t hm => ?_⟩
    rcases List.mem_append.mp hm with hm | hm
    · obtain ⟨q, pkt', hq, hnq, hst', hu⟩ := h.marked k t hm
      exact ⟨q, pkt', hq, fun hq' => hold q hnq (pending_nextRecord hq' rfl rfl), hst', hu⟩
    · obtain ⟨hk, _⟩ := Mark.up.inj (List.mem_singleton.mp hm)
      refine ⟨p, pkt, h.handed p (List.mem_of_getElem? ho), fun hq => ?_, hst, hk.symm⟩
      exact (List.nodup_cons.mp hnodup).1 (pending_nextRecord hq rfl rfl)

theorem not_logged_yet {past : List Event} {s : State} {i p : Nat} {pkt : Skb}
    (ha : Arrivals past s) (h : Deliveries s) (hpast : (uids past).Nodup)
    (hph : s.phase = .decode i) (ho : s.readOwner[i]? = some p)
    (hst : s.sys.cache.stored[p]? = some pkt) (t : Nat) : .up pkt.uid t ∉ s.trace := by
  intro hm
  obtain ⟨q, pkt', _, hnq, hst', hu⟩ := h.marked pkt.uid t hm
  have hp : p ∈ pending s := by
    simp only [pending, hph, drop_eq_cons ho]
    exact List.mem_cons_self
  have hnodup := hpast.sublist ha.stored_uids
  have hsame : (s.sys.cache.stored.map Skb.uid)[p]? = (s.sys.cache.stored.map Skb.uid)[q]? := by
    rw [List.getElem?_map, List.getElem?_map, hst, hst', Option.map_some, Option.map_some, hu]
  have hlt : p < (s.sys.cache.stored.map Skb.uid).length := by
    rw [List.length_map]
    exact (List.getElem?_eq_some_iff.mp hst).1
  exact hnq ((List.getElem?_inj hlt hnodup).mp hsame ▸ hp)

theorem arrivals_decodeStep {past : List Event} {s : State} {i : Nat} (ha : Arrivals past s)
    (h : Deliveries s) (hph : s.phase = .decode i) : Arrivals past (decodeStep i s) := by
  rcases decodeStep_cases h hph with he | ⟨p, pkt, _, _, _, he⟩
  · rw [he]
    exact ⟨ha.logged, ha.stored_uids, ha.km_mem, ha.km_entry⟩
  · have hkm {k t : Nat} (hm : .km k t ∈ s.trace ++ [.up pkt.uid s.clock]) : .km k t ∈ s.trace := by
      simpa using hm
    rw [he]
    refine ⟨fun pkt' hst hu => ?_, ha.stored_uids, fun k t hm => ha.km_mem k t (hkm hm),
      fun k t hm => ha.km_entry k t (hkm hm)⟩
    obtain ⟨t, hm, ht⟩ := ha.logged pkt' hst hu
    exact ⟨t, List.mem_append_left _ hm, ht⟩

theorem userLog_decodeStep {log : Log} {past : List Event} {s : State} {i : Nat}
    (hpast : (uids past).Nodup) (ha : Arrivals past s) (h : Deliveries s) (hl : UserLog log s)
    (hph : s.phase = .decode i) : UserLog log (decodeStep i s) := by
  rcases decodeStep_cases h hph with he | ⟨p, pkt, ho, hst, hu, he⟩
  · rw [he]
    exact ⟨hl.entries, hl.untouched, hl.lawful⟩
  · have hfresh := not_logged_yet ha h hpast hph ho hst
    rw [he]
    refine ⟨fun k t hm => ?_, fun k hk => ?_, lawful_snoc hl.lawful ⟨?_, hfresh⟩⟩
    · rw [entry_record]
      rcases List.mem_append.mp hm with hm | hm
      · rw [if_neg (fun hk : pkt.uid = k ∧ _ => hfresh t (hk.1 ▸ hm))]
        exact hl.entries k t hm
      · obtain ⟨hk, ht⟩ := Mark.up.inj (List.mem_singleton.mp hm)
        rw [if_pos ⟨hk.symm, hu⟩, ht]
    · have hne : pkt.uid ≠ k := by
        rintro rfl
        exact hk s.clock (by simp)
      rw [entry_record, if_neg (fun he => hne he.1)]
      exact hl.untouched k fun t ht => hk t (List.mem_append_left _ ht)
    · exact ha.logged pkt (List.mem_of_getElem? hst) hu

theorem ordered_user {log : Log} {past : List Event} {s : State} (hpast : (uids past).Nodup)
    (h : Ordered log past s) (ok : Bool) :
    Ordered log past (UserProcessing.step s (.user ok)) := by
  cases hph : s.phase with
  | top =>
      rw [show UserProcessing.step s (.user ok) = beginIteration ok s by
        simp only [UserProcessing.step, hph]]
      exact ⟨arrivals_reader h.arrivals ok rfl rfl rfl, deliveries_begin h.deliveries ok,
        h.userLog.entries, h.userLog.untouched, h.userLog.lawful⟩
  | reading =>
      rw [show UserProcessing.step s (.user ok) = readStep ok s by
        simp only [UserProcessing.step, hph]]
      exact ⟨arrivals_reader h.arrivals ok rfl rfl rfl, deliveries_readStep h.deliveries hph ok,
        h.userLog.entries, h.userLog.untouched, h.userLog.lawful⟩
  | decode i =>
      rw [show UserProcessing.step s (.user ok) = decodeStep i s by
        simp only [UserProcessing.step, hph]]
      exact ⟨arrivals_decodeStep h.arrivals h.deliveries hph, deliveries_decodeStep h.deliveries hph,
        userLog_decodeStep hpast h.arrivals h.deliveries h.userLog hph⟩

theorem ordered_tick {log : Log} {past : List Event} {s : State} (h : Ordered log past s) (d : Nat) :
    Ordered log past (UserProcessing.step s (.tick d)) := by
  refine ⟨⟨fun pkt hm hu => ?_, h.arrivals.stored_uids, h.arrivals.km_mem, h.arrivals.km_entry⟩,
    ⟨h.deliveries.hand, h.deliveries.contents, h.deliveries.index_lt, h.deliveries.records,
      h.deliveries.nodup, h.deliveries.handed, h.deliveries.marked⟩,
    h.userLog.entries, h.userLog.untouched, h.userLog.lawful⟩
  obtain ⟨t, hkm, ht⟩ := h.arrivals.logged pkt hm hu
  exact ⟨t, hkm, Nat.le_trans ht (Nat.le_add_right _ _)⟩

theorem ordered_step {log : Log} (past : List Event) (s : State) (e : Event) (he : IsClientEvent e)
    (h : (uids past).Nodup → Ordered log past s) (hnodup : (uids (past ++ [e])).Nodup) :
    Ordered log (past ++ [e]) (UserProcessing.step s e) := by
  have hpast : (uids past).Nodup := by
    refine List.Nodup.sublist ?_ hnodup
    rw [uids, uids, List.filterMap_append]
    exact List.sublist_append_left _ _
  have ho := h hpast
  cases e with
  | tick d =>
      have huids : uids (past ++ [.tick d]) = uids past := by simp [uids]
      have ht := ordered_tick ho d
      exact ⟨⟨ht.arrivals.logged, huids ▸ ht.arrivals.stored_uids, huids ▸ ht.arrivals.km_mem,
        ht.arrivals.km_entry⟩, ht.deliveries, ht.userLog⟩
  | packet pkt =>
      obtain ⟨uid, created, hc⟩ := he
      have hfresh : pkt.uid ∉ uids past := by
        have huids : uids (past ++ [.packet pkt]) = uids past ++ [pkt.uid] := by simp [uids]
        rw [huids] at hnodup
        exact fun hm => (List.nodup_append.mp hnodup).2.2 _ hm _ (List.mem_singleton.mpr rfl) rfl
      exact ⟨arrivals_packet hc hfresh ho.arrivals, deliveries_packet hc ho.deliveries,
        userLog_packet pkt ho.userLog⟩
  | user ok =>
      have huids : uids (past ++ [.user ok]) = uids past := by simp [uids]
      have hu := ordered_user hpast ho ok
      exact ⟨⟨hu.arrivals.logged, huids ▸ hu.arrivals.stored_uids, huids ▸ hu.arrivals.km_mem,
        hu.arrivals.km_entry⟩, hu.deliveries, hu.userLog⟩

theorem ordered_run (kmLog log : Log) (outside : Mem) (events : List Event)
    (hclient : ∀ e ∈ events, IsClientEvent e) (honce : (uids events).Nodup) :
    Ordered log events (run UserProcessing.step (UserProcessing.start kmLog log outside) events) :=
  @run_history _ _ _ (fun past s => (uids past).Nodup → Ordered log past s) IsClientEvent _
    (fun _ => ordered_start kmLog log outside) ordered_step events hclient honce

/-- In every interleaving each entry of user-processing's log is made at most
once, after the handler's entry for the same uid and with no smaller a time. -/
theorem no_effect_before_cause (kmLog log : Log) (outside : Mem) (events : List Event)
    (hclient : ∀ e ∈ events, IsClientEvent e) (honce : (uids events).Nodup) :
    let s := run UserProcessing.step (UserProcessing.start kmLog log outside) events
    Lawful CauseFirst s.trace ∧
    (∀ k, (∀ t, .up k t ∉ s.trace) → entry shipped s.log k = entry shipped log k) ∧
    ∀ k t, .up k t ∈ s.trace → entry shipped s.log k = t ∧
      entry shipped s.sys.cache.module.logBuffs k ≤ entry shipped s.log k := by
  intro s
  have h : Ordered log events s := ordered_run kmLog log outside events hclient honce
  refine ⟨h.userLog.lawful, h.userLog.untouched, fun k t hm => ?_⟩
  obtain ⟨past, rest, hsplit⟩ := List.append_of_mem hm
  obtain ⟨⟨t', hkm, hle⟩, _⟩ := h.userLog.lawful past _ rest hsplit
  have hmem : .km k t' ∈ s.trace := by
    rw [hsplit]
    exact List.mem_append_left _ hkm
  rw [h.userLog.entries k t hm, h.arrivals.km_entry k t' hmem]
  exact ⟨rfl, hle⟩

def twoPackets : List Event :=
  [.packet (clientSkb 1 5), .tick 3, .packet (clientSkb 0 6)] ++
    List.replicate (1 + maxPkt + 1 + pktsPerBuffer + 2) (.user true)

theorem twoPackets_uids : uids twoPackets = [1, 0] := by
  have h1 := (clientSkb_isClientPacket 1 5).uid_eq (by decide) (by decide)
  have h0 := (clientSkb_isClientPacket 0 6).uid_eq (by decide) (by decide)
  rw [twoPackets, uids, List.filterMap_append, List.filterMap_replicate_of_none rfl]
  simp [h1, h0]

theorem no_effect_before_cause_two :
    Lawful CauseFirst (run UserProcessing.step
      (UserProcessing.start (fun _ _ => 0) (fun _ _ => 0) fun _ => 255) twoPackets).trace := by
  refine (no_effect_before_cause (fun _ _ => 0) (fun _ _ => 0) (fun _ => 255) twoPackets ?_ ?_).1
  · intro e he
    rcases List.mem_append.mp he with he | he
    · simp only [List.mem_cons, List.not_mem_nil, or_false] at he
      rcases he with rfl | rfl | rfl
      · exact ⟨1, 5, clientSkb_isClientPacket 1 5⟩
      · trivial
      · exact ⟨0, 6, clientSkb_isClientPacket 0 6⟩
    · rw [List.eq_of_mem_replicate he]
      trivial
  · rw [twoPackets_uids]
    decide

end PacketIntercept.CausalOrder
