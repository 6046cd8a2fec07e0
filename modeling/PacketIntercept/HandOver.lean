import PacketIntercept.TrackedCache

namespace PacketIntercept.HandOver

open ByteMemory CyclicSlots Common LogBuffs RxHandler ReadProc TrackedCache Runs

/-- The module with one reader. copiedOwner names the packets whose records the
running read has put into buff_temp, handed those of every copy_to_user that
succeeded, one list for each, in record order. -/
structure System where
  cache : Cache
  reader : Reader
  copiedOwner : List Nat
  handed : List (List Nat)

/-- A softirq runs the handler to completion; otherwise the reader makes its
next step, with the offset and the outcome of copy_to_user it then needs. -/
inductive Act
  | packet (now : Nat) (pkt : Skb)
  | reader (off : BitVec 64) (ok : Bool)

def nextCopiedOwner (s : System) : List Nat :=
  match s.reader with
  | .idle => []
  | .scan l =>
      if l.running && s.cache.module.status l.ci then s.copiedOwner ++ [s.cache.owner l.ci]
      else s.copiedOwner
  | .clean _ _ => s.copiedOwner

def step (s : System) : Act → System
  | .packet now pkt => { s with cache := s.cache.arrive now pkt }
  | .reader off ok =>
      { cache := { s.cache with module := (readerStep off ok (s.cache.module, s.reader)).1 }
        reader := (readerStep off ok (s.cache.module, s.reader)).2
        copiedOwner := nextCopiedOwner s
        handed := if (s.reader.handsOver ok).isSome then s.handed ++ [s.copiedOwner] else s.handed }

def start (log : Log) (outside : Mem) : System := ⟨Cache.empty log outside, .idle, [], []⟩

def copiedIndex : Reader → List Slot
  | .idle => []
  | .scan l => l.copiedIndex
  | .clean copied _ => copied

def freed : Reader → Nat
  | .clean _ i => i
  | _ => 0

/-- The scan has walked an arc of the ring and recorded slots of that arc only. -/
def Walked : Reader → Prop
  | .scan l => ∃ first, l.tries ≤ maxPkt ∧ l.ci = shift first l.tries ∧
      l.copiedIndex.Sublist (arc first l.tries)
  | _ => True

def Delivered (s : System) : Prop :=
  ∀ copied i, s.reader = .clean copied i → s.handed.getLast? = some s.copiedOwner

structure Inv (s : System) : Prop where
  owned : Owned s.cache
  walked : Walked s.reader
  nodup : (copiedIndex s.reader).Nodup
  length_le : (copiedIndex s.reader).length ≤ pktsPerBuffer
  kept : ∀ j i, freed s.reader ≤ j → (copiedIndex s.reader)[j]? = some i →
    s.cache.module.status i = true ∧ s.copiedOwner[j]? = some (s.cache.owner i)
  length_eq : s.reader ≠ .idle → s.copiedOwner.length = (copiedIndex s.reader).length
  delivered : Delivered s
  handed_nodup : s.handed.flatten.Nodup
  handed_lt : ∀ p ∈ s.handed.flatten, p < s.cache.stored.length
  no_loss : ∀ p, p < s.cache.stored.length → s.cache.cached p ∨ p ∈ s.handed.flatten
  pending : ∀ i, s.cache.module.status i = true → s.cache.owner i ∈ s.handed.flatten →
    ∃ copied k, s.reader = .clean copied k ∧ i ∈ copied.drop k

theorem inv_start (log : Log) (outside : Mem) : Inv (start log outside) where
  owned := owned_empty log outside
  walked := trivial
  nodup := List.nodup_nil
  length_le := Nat.zero_le _
  kept := fun j i _ h => by simp [start, copiedIndex] at h
  length_eq := fun h => absurd rfl h
  delivered := fun _ _ h => by simp [start] at h
  handed_nodup := List.nodup_nil
  handed_lt := fun p h => by simp [start] at h
  no_loss := fun p h => by simp [start, Cache.empty] at h
  pending := fun i h => by simp [start, Cache.empty, loaded] at h

theorem inv_packet {s : System} (h : Inv s) (now : Nat) (pkt : Skb) :
    Inv (step s (.packet now pkt)) where
  owned := owned_arrive h.owned now pkt
  walked := h.walked
  nodup := h.nodup
  length_le := h.length_le
  kept := by
    intro j i hj hi
    obtain ⟨hs, ho⟩ := h.kept j i hj hi
    obtain ⟨hs', ho'⟩ := arrive_keeps now pkt hs
    exact ⟨hs', ho.trans (congrArg some ho'.symm)⟩
  length_eq := h.length_eq
  delivered := h.delivered
  handed_nodup := h.handed_nodup
  handed_lt := fun p hp =>
    Nat.lt_of_lt_of_le (h.handed_lt p hp) (arrive_extends now pkt s.cache).length_le
  no_loss := by
    intro p hp
    have hold : p < s.cache.stored.length →
        (s.cache.arrive now pkt).cached p ∨ p ∈ s.handed.flatten := by
      intro hlt
      rcases h.no_loss p hlt with ⟨i, hi, ho⟩ | hh
      · obtain ⟨hs', ho'⟩ := arrive_keeps now pkt hi
        exact .inl ⟨i, hs', ho'.trans ho⟩
      · exact .inr hh
    rcases arrive_cases now pkt s.cache with ⟨_, hst, _⟩ | ⟨i, _, _, hst, ho, hs, _⟩
    · exact hold (by simpa only [step, hst] using hp)
    · by_cases hlt : p < s.cache.stored.length
      · exact hold hlt
      · have hp' : p = s.cache.stored.length := by
          simp only [step, hst, List.length_append, List.length_singleton] at hp
          omega
        refine .inl ⟨i, ?_, ?_⟩
        · simp [step, hs]
        · simp [step, ho, hp']
  pending := by
    intro i hi hh
    rcases arrive_cases now pkt s.cache with ⟨_, _, ho, hs, _⟩ | ⟨j, _, _, _, ho, hs, _⟩
    · simp only [step, hs, ho] at hi hh
      exact h.pending i hi hh
    · simp only [step, hs, ho] at hi hh
      by_cases hij : i = j
      · rw [hij, Function.update_self] at hh
        exact absurd (h.handed_lt _ hh) (Nat.lt_irrefl _)
      · rw [Function.update_of_ne hij] at hi hh
        exact h.pending i hi hh

theorem not_handed {s : System} (h : Inv s) (hr : ∀ copied k, s.reader ≠ .clean copied k) {i : Slot}
    (hi : s.cache.module.status i = true) : s.cache.owner i ∉ s.handed.flatten := by
  intro hh
  obtain ⟨copied, k, he, _⟩ := h.pending i hi hh
  exact hr copied k he

/-- With no read under way the invariant only says where the packets are. -/
theorem inv_of_idle {s : System} (hr : s.reader = .idle) (owned : Owned s.cache)
    (handed_nodup : s.handed.flatten.Nodup)
    (handed_lt : ∀ p ∈ s.handed.flatten, p < s.cache.stored.length)
    (no_loss : ∀ p, p < s.cache.stored.length → s.cache.cached p ∨ p ∈ s.handed.flatten)
    (fresh : ∀ i, s.cache.module.status i = true → s.cache.owner i ∉ s.handed.flatten) : Inv s where
  owned := owned
  walked := by rw [hr]; trivial
  nodup := by rw [hr]; exact List.nodup_nil
  length_le := by rw [hr]; exact Nat.zero_le _
  kept := fun j i _ he => by simp [hr, copiedIndex] at he
  length_eq := fun he => absurd hr he
  delivered := fun _ _ he => by rw [hr] at he; cases he
  handed_nodup := handed_nodup
  handed_lt := handed_lt
  no_loss := no_loss
  pending := fun i hi hh => absurd hh (fresh i hi)

/-- While a read scans, copiedOwner names the packets of the recorded slots,
which are all still occupied. -/
structure Scanned (s : System) (l : Scan) : Prop where
  nodup : l.copiedIndex.Nodup
  length_le : l.copiedIndex.length ≤ pktsPerBuffer
  occupied : ∀ i ∈ l.copiedIndex, s.cache.module.status i = true
  copiedOwner_eq : s.copiedOwner = l.copiedIndex.map s.cache.owner

theorem Scanned.kept {s : System} {l : Scan} (hs : Scanned s l) {j : Nat} {i : Slot}
    (hj : l.copiedIndex[j]? = some i) :
    s.cache.module.status i = true ∧ s.copiedOwner[j]? = some (s.cache.owner i) := by
  refine ⟨hs.occupied i (List.mem_of_getElem? hj), ?_⟩
  rw [hs.copiedOwner_eq, List.getElem?_map, hj, Option.map_some]

theorem Scanned.length_eq {s : System} {l : Scan} (hs : Scanned s l) :
    s.copiedOwner.length = l.copiedIndex.length := by
  rw [hs.copiedOwner_eq, List.length_map]

/-- With a scan under way nothing that is cached was handed over. -/
theorem inv_of_scan {s : System} {l : Scan} (hr : s.reader = .scan l) (hs : Scanned s l)
    (owned : Owned s.cache) (walked : Walked (.scan l)) (handed_nodup : s.handed.flatten.Nodup)
    (handed_lt : ∀ p ∈ s.handed.flatten, p < s.cache.stored.length)
    (no_loss : ∀ p, p < s.cache.stored.length → s.cache.cached p ∨ p ∈ s.handed.flatten)
    (fresh : ∀ i, s.cache.module.status i = true → s.cache.owner i ∉ s.handed.flatten) : Inv s where
  owned := owned
  walked := by rw [hr]; exact walked
  nodup := by rw [hr]; exact hs.nodup
  length_le := by rw [hr]; exact hs.length_le
  kept := fun j i _ hj => by rw [hr] at hj; exact hs.kept hj
  length_eq := fun _ => by rw [hr]; exact hs.length_eq
  delivered := fun _ _ he => by rw [hr] at he; cases he
  handed_nodup := handed_nodup
  handed_lt := handed_lt
  no_loss := no_loss
  pending := fun i hi hh => absurd hh (fresh i hi)

theorem owned_scan {c : Cache} (h : Owned c) (l : Scan) :
    Owned { c with module := (scanIteration c.module l).1 } := by
  apply owned_of_status_le h
  intro i hi
  rwa [scanIteration_status] at hi

theorem inv_idle {s : System} (h : Inv s) (hr : s.reader = .idle) (off : BitVec 64) (ok : Bool) :
    Inv (step s (.reader off ok)) := by
  have hn {i : Slot} (hi : s.cache.module.status i = true) : s.cache.owner i ∉ s.handed.flatten :=
    not_handed h (fun _ _ he => by rw [hr] at he; cases he) hi
  have hcopied : nextCopiedOwner s = [] := by simp [nextCopiedOwner, hr]
  have hhands : (s.reader.handsOver ok).isSome = false := by simp [Reader.handsOver, hr]
  by_cases ho : bufferSize ≤ off.toNat
  · have hstep : readerStep off ok (s.cache.module, s.reader) = (s.cache.module, .idle) := by
      simp [readerStep, hr, ho]
    simp only [step, hstep, hcopied, hhands]
    exact inv_of_idle rfl h.owned h.handed_nodup h.handed_lt h.no_loss fun _ => hn
  · have hstep := readerStep_begin ho ok s.cache.module
    rw [← hr] at hstep
    simp only [step, hstep, hcopied, hhands]
    have hwalk : Walked (.scan (beginScan s.cache.module).2) :=
      ⟨s.cache.module.currentIndex, Nat.zero_le _, (shift_zero _).symm, List.nil_sublist _⟩
    refine inv_of_scan rfl ⟨List.nodup_nil, Nat.zero_le _, ?_, rfl⟩
      (owned_of_status_le h.owned fun i hi => hi) hwalk h.handed_nodup h.handed_lt h.no_loss fun _ => hn
    intro i hi
    cases hi

theorem walked_next {s : System} (h : Inv s) {l : Scan} (hr : s.reader = .scan l)
    (hrun : l.running = true) :
    Walked (.scan (scanIteration s.cache.module l).2) ∧ l.ci ∉ l.copiedIndex := by
  have hw := h.walked
  rw [hr] at hw
  obtain ⟨first, _, hci, hsub⟩ := hw
  have hlt : l.tries < maxPkt := by simp [Scan.running] at hrun; exact hrun.2
  have hnext : shift l.ci 1 = shift first (l.tries + 1) := by rw [hci, shift_shift]
  refine ⟨⟨first, ?_, ?_, ?_⟩, ?_⟩
  · rw [scanIteration_tries]
    exact hlt
  · rw [scanIteration_tries, ← hnext, scanIteration]
    split <;> rfl
  · rw [scanIteration_tries, arc_succ, scanIteration]
    split
    · rw [← hci]
      exact hsub.append (List.Sublist.refl _)
    · exact hsub.trans (List.sublist_append_left _ _)
  · intro hm
    rw [hci] at hm
    exact shift_notMem_arc first hlt (hsub.subset hm)

theorem scanned_of_inv {s : System} (h : Inv s) {l : Scan} (hr : s.reader = .scan l) : Scanned s l := by
  have hkept := h.kept
  have hnodup := h.nodup
  have hle := h.length_le
  have hlen := h.length_eq (by rw [hr]; exact fun he => by cases he)
  rw [hr] at hkept hnodup hle hlen
  simp only [copiedIndex, freed, Nat.zero_le, true_implies] at hkept hnodup hle hlen
  refine ⟨hnodup, hle, ?_, ?_⟩
  · intro i hi
    obtain ⟨j, hj⟩ := List.getElem?_of_mem hi
    exact (hkept j i hj).1
  · apply List.ext_getElem?
    intro j
    rw [List.getElem?_map]
    cases hj : l.copiedIndex[j]? with
    | none =>
        rw [List.getElem?_eq_none_iff] at hj
        rw [List.getElem?_eq_none_iff.mpr (by omega), Option.map_none]
    | some i => rw [(hkept j i hj).2, Option.map_some]

theorem scanned_next {s : System} (h : Inv s) {l : Scan} (hr : s.reader = .scan l)
    (hrun : l.running = true) (off : BitVec 64) (ok : Bool) :
    Scanned (step s (.reader off ok)) (scanIteration s.cache.module l).2 := by
  have hs := scanned_of_inv h hr
  have hfresh := (walked_next h hr hrun).2
  have hshort : l.copiedIndex.length < pktsPerBuffer := by
    simp [Scan.running] at hrun
    exact hrun.1
  have hstep := readerStep_scan hrun off ok s.cache.module
  rw [← hr] at hstep
  have hstatus := scanIteration_status s.cache.module l
  by_cases hci : s.cache.module.status l.ci = true
  · have hindex : (scanIteration s.cache.module l).2.copiedIndex = l.copiedIndex ++ [l.ci] := by
      rw [scanIteration, if_pos hci]
    have howner : nextCopiedOwner s = s.copiedOwner ++ [s.cache.owner l.ci] := by
      simp [nextCopiedOwner, hr, hrun, hci]
    refine ⟨?_, ?_, ?_, ?_⟩
    · rw [hindex, List.nodup_append_comm]
      exact List.nodup_cons.mpr ⟨hfresh, hs.nodup⟩
    · rw [hindex, List.length_append, List.length_singleton]
      exact hshort
    · intro i hi
      simp only [step, hstep, hstatus]
      rw [hindex, List.mem_append, List.mem_singleton] at hi
      rcases hi with hi | rfl
      · exact hs.occupied i hi
      · exact hci
    · simp only [step]
      rw [howner, hindex, List.map_append, ← hs.copiedOwner_eq, List.map_singleton]
  · have hindex : (scanIteration s.cache.module l).2.copiedIndex = l.copiedIndex := by
      rw [scanIteration, if_neg hci]
    have howner : nextCopiedOwner s = s.copiedOwner := by simp [nextCopiedOwner, hr, hci]
    refine ⟨hindex ▸ hs.nodup, hindex ▸ hs.length_le, ?_, ?_⟩
    · intro i hi
      simp only [step, hstep, hstatus]
      rw [hindex] at hi
      exact hs.occupied i hi
    · simp only [step]
      rw [howner, hindex, hs.copiedOwner_eq]

theorem inv_scan {s : System} (h : Inv s) {l : Scan} (hr : s.reader = .scan l)
    (hrun : l.running = true) (off : BitVec 64) (ok : Bool) :
    Inv (step s (.reader off ok)) := by
  have hn {i : Slot} (hi : s.cache.module.status i = true) : s.cache.owner i ∉ s.handed.flatten :=
    not_handed h (fun _ _ he => by rw [hr] at he; cases he) hi
  have hscanned := scanned_next h hr hrun off ok
  have hwalk := (walked_next h hr hrun).1
  have hstep := readerStep_scan hrun off ok s.cache.module
  rw [← hr] at hstep
  have hhands : (s.reader.handsOver ok).isSome = false := by simp [Reader.handsOver, hr, hrun]
  have hstatus := scanIteration_status s.cache.module l
  simp only [step, hstep, hhands] at hscanned ⊢
  refine inv_of_scan rfl hscanned (owned_scan h.owned l) hwalk h.handed_nodup h.handed_lt ?_ ?_
  · intro p hp
    rcases h.no_loss p hp with ⟨i, hi, ho⟩ | hh
    · exact .inl ⟨i, by simpa only [hstatus] using hi, ho⟩
    · exact .inr hh
  · exact fun i hi => hn (by simpa only [hstatus] using hi)

theorem inv_copy {s : System} (h : Inv s) {l : Scan} (hr : s.reader = .scan l)
    (hrun : l.running = false) (off : BitVec 64) (ok : Bool) :
    Inv (step s (.reader off ok)) := by
  have hn {i : Slot} (hi : s.cache.module.status i = true) : s.cache.owner i ∉ s.handed.flatten :=
    not_handed h (fun _ _ he => by rw [hr] at he; cases he) hi
  have hcopied : nextCopiedOwner s = s.copiedOwner := by simp [nextCopiedOwner, hr, hrun]
  cases ok with
  | false =>
      have hstep : readerStep off false (s.cache.module, s.reader) = (s.cache.module, .idle) := by
        simp [readerStep, hr, hrun]
      have hhands : (s.reader.handsOver false).isSome = false := by simp [Reader.handsOver, hr]
      simp only [step, hstep, hcopied, hhands]
      exact inv_of_idle rfl h.owned h.handed_nodup h.handed_lt h.no_loss fun _ => hn
  | true =>
      have hstep : readerStep off true (s.cache.module, s.reader) =
          (s.cache.module, .clean l.copiedIndex 0) := by simp [readerStep, hr, hrun]
      have hhands : (s.reader.handsOver true).isSome = true := by
        simp [Reader.handsOver, hr, hrun]
      have hs := scanned_of_inv h hr
      have hmem {p : Nat} (hp : p ∈ s.copiedOwner) : ∃ i ∈ l.copiedIndex, s.cache.owner i = p := by
        rwa [hs.copiedOwner_eq, List.mem_map] at hp
      have hflat : (s.handed ++ [s.copiedOwner]).flatten = s.handed.flatten ++ s.copiedOwner := by
        simp
      simp only [step, hstep, hcopied, hhands, if_true]
      exact {
        owned := h.owned
        walked := trivial
        nodup := hs.nodup
        length_le := hs.length_le
        kept := fun j i _ he => hs.kept he
        length_eq := fun _ => hs.length_eq
        delivered := fun _ _ _ => List.getLast?_concat
        handed_nodup := by
          rw [hflat, List.nodup_append]
          refine ⟨h.handed_nodup, ?_, ?_⟩
          · rw [hs.copiedOwner_eq]
            exact hs.nodup.map_on
              (fun i hi j hj => h.owned.owner_inj i j (hs.occupied i hi) (hs.occupied j hj))
          · rintro p hp q hq rfl
            obtain ⟨i, hi, rfl⟩ := hmem hq
            exact hn (hs.occupied i hi) hp
        handed_lt := by
          intro p hp
          rw [hflat, List.mem_append] at hp
          rcases hp with hp | hp
          · exact h.handed_lt p hp
          · obtain ⟨i, hi, rfl⟩ := hmem hp
            exact h.owned.owner_lt i (hs.occupied i hi)
        no_loss := by
          intro p hp
          rw [hflat, List.mem_append]
          rcases h.no_loss p hp with hc | hh
          · exact .inl hc
          · exact .inr (.inl hh)
        pending := by
          intro i hi hh
          rw [hflat, List.mem_append] at hh
          rcases hh with hh | hh
          · exact absurd hh (hn hi)
          · obtain ⟨j, hj, he⟩ := hmem hh
            have hji := h.owned.owner_inj j i (hs.occupied j hj) hi he
            exact ⟨l.copiedIndex, 0, rfl, by rw [List.drop_zero, ← hji]; exact hj⟩ }

theorem mem_flatten_of_getLast {handed : List (List Nat)} {last : List Nat} {p : Nat}
    (hl : handed.getLast? = some last) (hp : p ∈ last) : p ∈ handed.flatten :=
  List.mem_flatten.mpr ⟨last, List.mem_of_getLast? hl, hp⟩

theorem cleanIteration_status (copied : List Slot) (k : Nat) (m : Module) (i : Slot) :
    (cleanIteration copied k m).status i =
      if copied[k]? = some i then false else m.status i := by
  rw [cleanIteration]
  split
  next s hs =>
    by_cases hi : i = s
    · simp [hs, hi]
    · have hne : ¬ s = i := fun he => hi he.symm
      simp [hs, hi, hne]
  next hs => simp [hs]

theorem occupied_of_clean {copied : List Slot} {k : Nat} {m : Module} {i : Slot}
    (hi : (cleanIteration copied k m).status i = true) :
    copied[k]? ≠ some i ∧ m.status i = true := by
  rw [cleanIteration_status] at hi
  split at hi
  next => exact Bool.noConfusion hi
  next hne => exact ⟨hne, hi⟩

/-- A packet that was handed over and is still cached after a step of the
clean-up has its slot further on in copied_index. -/
theorem clean_pending {s : System} (h : Inv s) {copied : List Slot} {k : Nat}
    (hr : s.reader = .clean copied k) {i : Slot}
    (hi : (cleanIteration copied k s.cache.module).status i = true)
    (hh : s.cache.owner i ∈ s.handed.flatten) : i ∈ copied.drop (k + 1) := by
  obtain ⟨hne, hs⟩ := occupied_of_clean hi
  obtain ⟨c, k', he, hm⟩ := h.pending i hs hh
  rw [hr] at he
  cases he
  obtain ⟨j, hj⟩ := List.getElem?_of_mem hm
  rw [List.getElem?_drop] at hj
  cases j with
  | zero => exact absurd hj hne
  | succ j =>
      apply List.mem_of_getElem? (i := j)
      rw [List.getElem?_drop, Nat.add_right_comm, Nat.add_assoc]
      exact hj

theorem clean_no_loss {s : System} (h : Inv s) {copied : List Slot} {k : Nat}
    (hr : s.reader = .clean copied k) (p : Nat) (hp : p < s.cache.stored.length) :
    ({ s.cache with module := cleanIteration copied k s.cache.module } : Cache).cached p ∨
      p ∈ s.handed.flatten := by
  rcases h.no_loss p hp with ⟨i, hi, ho⟩ | hh
  · by_cases hk : copied[k]? = some i
    · right
      have hown := (h.kept k i (by rw [hr]; exact Nat.le_refl k) (by rw [hr]; exact hk)).2
      rw [ho] at hown
      exact mem_flatten_of_getLast (h.delivered copied k hr) (List.mem_of_getElem? hown)
    · exact .inl ⟨i, by simp only [cleanIteration_status, hk, if_false]; exact hi, ho⟩
  · exact .inr hh

theorem inv_clean {s : System} (h : Inv s) {copied : List Slot} {k : Nat}
    (hr : s.reader = .clean copied k) (off : BitVec 64) (ok : Bool) :
    Inv (step s (.reader off ok)) := by
  have hkept := h.kept
  have hnodup := h.nodup
  have hle := h.length_le
  have hlen := h.length_eq (by rw [hr]; exact fun he => by cases he)
  have hlast := h.delivered copied k hr
  rw [hr] at hkept hnodup hle hlen
  simp only [copiedIndex, freed] at hkept hnodup hle hlen
  have hcopied : nextCopiedOwner s = s.copiedOwner := by simp [nextCopiedOwner, hr]
  have hhands : (s.reader.handsOver ok).isSome = false := by simp [Reader.handsOver, hr]
  have hstep : readerStep off ok (s.cache.module, s.reader) =
      (cleanIteration copied k s.cache.module,
        if k + 1 < pktsPerBuffer then .clean copied (k + 1) else .idle) := by
    simp [readerStep, hr]
  simp only [step, hstep, hcopied, hhands]
  split
  next hk =>
    exact {
      owned := owned_of_status_le h.owned (fun i hi => (occupied_of_clean hi).2)
      walked := trivial
      nodup := hnodup
      length_le := hle
      kept := by
        intro j i hj hi
        simp only [freed, copiedIndex] at hj hi
        obtain ⟨hs, ho⟩ := hkept j i (by omega) hi
        refine ⟨?_, ho⟩
        have hne : ¬ copied[k]? = some i := by
          intro he
          obtain ⟨hkl, _⟩ := List.getElem?_eq_some_iff.mp he
          have hkj := (List.getElem?_inj hkl hnodup).mp (he.trans hi.symm)
          omega
        simp only [cleanIteration_status, hne, if_false]
        exact hs
      length_eq := fun _ => hlen
      delivered := fun _ _ _ => hlast
      handed_nodup := h.handed_nodup
      handed_lt := h.handed_lt
      no_loss := clean_no_loss h hr
      pending := fun i hi hh => ⟨copied, k + 1, rfl, clean_pending h hr hi hh⟩ }
  next hk =>
    refine inv_of_idle rfl (owned_of_status_le h.owned fun i hi => (occupied_of_clean hi).2)
      h.handed_nodup h.handed_lt (clean_no_loss h hr) fun i hi hh => ?_
    have hm := clean_pending h hr hi hh
    rw [List.drop_eq_nil_of_le (by omega)] at hm
    exact absurd hm List.not_mem_nil

theorem inv_step (s : System) (act : Act) (h : Inv s) : Inv (step s act) := by
  cases act with
  | packet now pkt => exact inv_packet h now pkt
  | reader off ok =>
      cases hr : s.reader with
      | idle => exact inv_idle h hr off ok
      | scan l =>
          cases hrun : l.running with
          | true => exact inv_scan h hr hrun off ok
          | false => exact inv_copy h hr hrun off ok
      | clean copied k => exact inv_clean h hr off ok

theorem inv_run (log : Log) (outside : Mem) (acts : List Act) :
    Inv (run step (start log outside) acts) :=
  run_invariant (inv_start log outside) inv_step acts

/-- Only the clean-up of a read frees a slot, and only one it has recorded. -/
theorem freed_by_clean {s : System} {act : Act} {i : Slot} (hi : s.cache.module.status i = true)
    (hf : (step s act).cache.module.status i = false) :
    ∃ off ok copied k, act = .reader off ok ∧ s.reader = .clean copied k ∧ copied[k]? = some i := by
  rw [← Bool.not_eq_true] at hf
  cases act with
  | packet now pkt => exact absurd (arrive_keeps now pkt hi).1 hf
  | reader off ok =>
      simp only [step] at hf
      cases hr : s.reader with
      | idle =>
          rw [hr, readerStep] at hf
          split at hf
          · exact absurd hi hf
          · exact absurd hi hf
      | scan l =>
          rw [hr, readerStep] at hf
          split at hf
          · rw [scanIteration_status] at hf
            exact absurd hi hf
          · split at hf
            · exact absurd hi hf
            · exact absurd hi hf
      | clean copied k =>
          refine ⟨off, ok, copied, k, rfl, rfl, ?_⟩
          rw [hr, readerStep, cleanIteration_status] at hf
          by_contra hne
          rw [if_neg hne] at hf
          exact hf hi

end PacketIntercept.HandOver
