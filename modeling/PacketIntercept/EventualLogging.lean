import PacketIntercept.Delivery
import PacketIntercept.PacketAccounts

namespace PacketIntercept.EventualLogging

open ByteMemory CyclicSlots Common LogBuffs RxHandler ReadProc TrackedCache HandOver CacheContents
open Client UserProcessing CausalOrder Runs Delivery PacketAccounts

/-- Left alone, user-processing makes this many steps until its next iteration. -/
def remaining (s : State) : Nat :=
  match s.phase with
  | .top => 0
  | .decode i => 1 + (pktsPerBuffer - i)
  | .reading =>
      match s.sys.reader with
      | .clean _ k => 2 + pktsPerBuffer + (pktsPerBuffer - k)
      | .scan l => 3 + 2 * pktsPerBuffer + (maxPkt - l.tries)
      | .idle => 4 + 2 * pktsPerBuffer + maxPkt

/-- The running read is going to free a slot. -/
def Finds (m : Module) : Reader → Prop
  | .idle => False
  | .scan l => ∃ i, m.status i = true ∧ (i ∈ l.copiedIndex ∨ i ∈ arc l.ci (maxPkt - l.tries))
  | .clean copied k => k = 0 ∧ copied ≠ []

def Promising (n : Nat) (s : State) : Prop :=
  (waiting s.sys.cache.module).card < n ∨
    (waiting s.sys.cache.module).card ≤ n ∧ Finds s.sys.cache.module s.sys.reader

theorem step_reading {s : State} (hph : s.phase = .reading) (ok : Bool) :
    UserProcessing.step s (.user ok) = readStep ok s := by
  simp only [UserProcessing.step, hph]

theorem step_decode {s : State} {i : Nat} (hph : s.phase = .decode i) (ok : Bool) :
    UserProcessing.step s (.user ok) = decodeStep i s := by
  simp only [UserProcessing.step, hph]

theorem readerStep_status_le {off : BitVec 64} {ok : Bool} {m : Module} {r : Reader} {i : Slot}
    (h : (readerStep off ok (m, r)).1.status i = true) : m.status i = true := by
  cases r with
  | idle =>
      rw [readerStep] at h
      split at h <;> exact h
  | scan l =>
      rw [readerStep] at h
      split at h
      · rwa [scanIteration_status] at h
      · split at h <;> exact h
  | clean copied k => exact (occupied_of_clean h).2

theorem waiting_user (s : State) (ok : Bool) :
    waiting (UserProcessing.step s (.user ok)).sys.cache.module ⊆ waiting s.sys.cache.module := by
  intro i hi
  rw [mem_waiting] at hi ⊢
  cases hph : s.phase with
  | top =>
      simp only [UserProcessing.step, hph, beginIteration, HandOver.step] at hi
      exact readerStep_status_le hi
  | reading =>
      simp only [UserProcessing.step, hph, readStep, HandOver.step] at hi
      exact readerStep_status_le hi
  | decode j =>
      simp only [UserProcessing.step, hph, decodeStep] at hi
      exact hi

theorem remaining_readStep {s : State} (h : Accounted s) (hph : s.phase = .reading) :
    remaining (readStep true s) < remaining s := by
  cases hr : s.sys.reader with
  | idle => exact absurd hr (h.reading.mp hph)
  | scan l =>
      have hbefore : remaining s = 3 + 2 * pktsPerBuffer + (maxPkt - l.tries) := by
        simp only [remaining, hph, hr]
      cases hrun : l.running with
      | true =>
          have hlt : l.tries < maxPkt := by
            simp [Scan.running] at hrun
            exact hrun.2
          have hafter : remaining (readStep true s) =
              3 + 2 * pktsPerBuffer + (maxPkt - (l.tries + 1)) := by
            simp [remaining, readStep, HandOver.step, hr, readerStep_scan hrun, phaseAfter,
              scanIteration_tries]
          omega
      | false =>
          have hafter : remaining (readStep true s) = 2 + pktsPerBuffer + (pktsPerBuffer - 0) := by
            simp [remaining, readStep, HandOver.step, hr, readerStep, hrun, phaseAfter]
          omega
  | clean copied k =>
      have hbefore : remaining s = 2 + pktsPerBuffer + (pktsPerBuffer - k) := by
        simp only [remaining, hph, hr]
      by_cases hk : k + 1 < pktsPerBuffer
      · have hafter : remaining (readStep true s) =
            2 + pktsPerBuffer + (pktsPerBuffer - (k + 1)) := by
          simp [remaining, readStep, HandOver.step, hr, readerStep, hk, phaseAfter]
        omega
      · have hafter : remaining (readStep true s) = 1 + (pktsPerBuffer - 0) := by
          simp [remaining, readStep, HandOver.step, hr, readerStep, hk, phaseAfter]
        omega

theorem remaining_user {s : State} (h : Accounted s) (hph : s.phase ≠ .top) :
    remaining (UserProcessing.step s (.user true)) < remaining s := by
  cases hp : s.phase with
  | top => exact absurd hp hph
  | reading =>
      rw [step_reading hp]
      exact remaining_readStep h hp
  | decode i =>
      rw [step_decode hp]
      have hbefore : remaining s = 1 + (pktsPerBuffer - i) := by simp only [remaining, hp]
      by_cases hi : i + 1 < pktsPerBuffer
      · have hafter : remaining (decodeStep i s) = 1 + (pktsPerBuffer - (i + 1)) := by
          simp [remaining, decodeStep, nextRecord, hi]
        omega
      · have hafter : remaining (decodeStep i s) = 0 := by
          simp [remaining, decodeStep, nextRecord, hi]
        omega

def left (n : Nat) : List Event := List.replicate n (.user true)

/-- What the steps of an iteration keep holds when user-processing gets to the
next one. -/
theorem reaches_top {P : State → Prop}
    (hstep : ∀ s, Accounted s → s.phase ≠ .top → P s → P (UserProcessing.step s (.user true)))
    {s : State} (h : Accounted s) (hP : P s) :
    ∃ n, let s' := run UserProcessing.step s (left n)
      s'.phase = .top ∧ Accounted s' ∧ P s' := by
  induction hm : remaining s using Nat.strong_induction_on generalizing s with
  | _ m ih =>
      by_cases hph : s.phase = .top
      · exact ⟨0, hph, h, hP⟩
      · obtain ⟨n, hn⟩ := ih _ (hm ▸ remaining_user h hph) (accounted_user h true)
          (hstep s h hph hP) rfl
        exact ⟨n + 1, hn⟩

theorem finds_scan {m : Module} {l : Scan} (hrun : l.running = true) (h : Finds m (.scan l)) :
    Finds (scanIteration m l).1 (.scan (scanIteration m l).2) := by
  have hlt : l.tries < maxPkt := by
    simp [Scan.running] at hrun
    exact hrun.2
  obtain ⟨i, hi, hmem⟩ := h
  refine ⟨i, by rw [scanIteration_status]; exact hi, ?_⟩
  rcases hmem with hmem | hmem
  · left
    rw [scanIteration]
    split
    · exact List.mem_append_left _ hmem
    · exact hmem
  · rw [show maxPkt - l.tries = maxPkt - (l.tries + 1) + 1 by omega, arc, List.mem_cons] at hmem
    rcases hmem with rfl | hmem
    · left
      rw [scanIteration, if_pos hi]
      exact List.mem_append_right _ (List.mem_singleton.mpr rfl)
    · right
      rw [scanIteration]
      split <;> exact hmem

theorem finds_copied {m : Module} {l : Scan} (hrun : l.running = false) (h : Finds m (.scan l)) :
    l.copiedIndex ≠ [] := by
  obtain ⟨i, _, hmem | hmem⟩ := h
  · exact List.ne_nil_of_mem hmem
  · intro hnil
    have hpos : 0 < maxPkt - l.tries := by
      have hlen := List.length_pos_of_mem hmem
      rwa [length_arc] at hlen
    have hlt : l.tries < maxPkt := by omega
    have hroom : 0 < pktsPerBuffer := by decide
    simp [Scan.running, hnil, hlt, hroom] at hrun

theorem promising_readStep {n : Nat} {s : State} (h : Accounted s)
    (hcard : (waiting s.sys.cache.module).card ≤ n) (hf : Finds s.sys.cache.module s.sys.reader) :
    Promising n (readStep true s) := by
  cases hr : s.sys.reader with
  | idle =>
      rw [hr] at hf
      exact hf.elim
  | scan l =>
      rw [hr] at hf
      right
      cases hrun : l.running with
      | true =>
          have hstep := readerStep_scan hrun 0 true s.sys.cache.module
          rw [← hr] at hstep
          simp only [readStep, HandOver.step, hstep, waiting, scanIteration_status]
          exact ⟨hcard, finds_scan hrun hf⟩
      | false =>
          have hstep : readerStep 0 true (s.sys.cache.module, s.sys.reader) =
              (s.sys.cache.module, .clean l.copiedIndex 0) := by simp [readerStep, hr, hrun]
          simp only [readStep, HandOver.step, hstep]
          exact ⟨hcard, rfl, finds_copied hrun hf⟩
  | clean copied k =>
      rw [hr] at hf
      obtain ⟨rfl, hne⟩ := hf
      left
      obtain ⟨i, hi⟩ : ∃ i, copied[0]? = some i := by
        cases copied with
        | nil => exact absurd rfl hne
        | cons i rest => exact ⟨i, rfl⟩
      have hocc := (h.deliveries.hand.kept 0 i (by rw [hr]; exact Nat.le_refl 0)
        (by rw [hr]; exact hi)).1
      have hsub : waiting (cleanIteration copied 0 s.sys.cache.module) ⊂ waiting s.sys.cache.module := by
        rw [Finset.ssubset_iff_of_subset fun j hj =>
          mem_waiting.mpr (occupied_of_clean (mem_waiting.mp hj)).2]
        refine ⟨i, mem_waiting.mpr hocc, fun hj => ?_⟩
        exact (occupied_of_clean (mem_waiting.mp hj)).1 hi
      have hstep : (readerStep 0 true (s.sys.cache.module, s.sys.reader)).1 =
          cleanIteration copied 0 s.sys.cache.module := by simp [readerStep, hr]
      simp only [readStep, HandOver.step, hstep]
      exact Nat.lt_of_lt_of_le (Finset.card_lt_card hsub) hcard

theorem promising_user {n : Nat} (s : State) (h : Accounted s) (_ : s.phase ≠ .top)
    (hp : Promising n s) : Promising n (UserProcessing.step s (.user true)) := by
  rcases hp with hlt | ⟨hcard, hf⟩
  · exact .inl (Nat.lt_of_le_of_lt (Finset.card_le_card (waiting_user s true)) hlt)
  · have hreading : s.phase = .reading := by
      apply h.reading.mpr
      intro hidle
      rw [hidle] at hf
      exact hf
    rw [step_reading hreading]
    exact promising_readStep h hcard hf

theorem promising_begin {n : Nat} {s : State} (h : Accounted s) (hph : s.phase = .top)
    (hcard : (waiting s.sys.cache.module).card = n + 1) :
    Promising (n + 1) (UserProcessing.step s (.user true)) := by
  have hidle : s.sys.reader = .idle := by
    by_contra hne
    rw [h.reading.mpr hne] at hph
    cases hph
  have hstep : readerStep 0 true (s.sys.cache.module, .idle) =
      ((beginScan s.sys.cache.module).1, .scan (beginScan s.sys.cache.module).2) :=
    readerStep_begin (by decide) true s.sys.cache.module
  rw [← hidle] at hstep
  obtain ⟨i, hi⟩ : (waiting s.sys.cache.module).Nonempty := by
    rw [← Finset.card_pos, hcard]
    exact Nat.succ_pos n
  right
  simp only [UserProcessing.step, hph, beginIteration, HandOver.step, hstep]
  exact ⟨hcard.le, i, mem_waiting.mp hi, .inr (mem_arc_full _ i)⟩

/-- With no more frames and every copy_to_user successful the cache runs empty. -/
theorem drains (n : Nat) {s : State} (h : Accounted s)
    (hcard : (waiting s.sys.cache.module).card ≤ n) :
    ∃ k, let s' := run UserProcessing.step s (left k)
      s'.phase = .top ∧ Accounted s' ∧ waiting s'.sys.cache.module = ∅ := by
  induction n generalizing s with
  | zero =>
      obtain ⟨k, hph, hacc, hle⟩ := reaches_top
        (P := fun s => (waiting s.sys.cache.module).card ≤ 0)
        (fun s _ _ hle => Nat.le_trans (Finset.card_le_card (waiting_user s true)) hle) h hcard
      exact ⟨k, hph, hacc, Finset.card_eq_zero.mp (Nat.le_zero.mp hle)⟩
  | succ n ih =>
      obtain ⟨k, hph, hacc, hle⟩ := reaches_top
        (P := fun s => (waiting s.sys.cache.module).card ≤ n + 1)
        (fun s _ _ hle => Nat.le_trans (Finset.card_le_card (waiting_user s true)) hle) h hcard
      by_cases hn : (waiting (run UserProcessing.step s (left k)).sys.cache.module).card ≤ n
      · obtain ⟨k', hk'⟩ := ih hacc hn
        refine ⟨k + k', ?_⟩
        rw [left, List.replicate_add, run_append]
        exact hk'
      · have hbegin := promising_begin hacc hph (Nat.le_antisymm hle (Nat.lt_of_not_le hn))
        obtain ⟨k', hph', hacc', hp⟩ := reaches_top promising_user (accounted_user hacc true) hbegin
        have hidle : (run UserProcessing.step (UserProcessing.step
            (run UserProcessing.step s (left k)) (.user true)) (left k')).sys.reader = .idle := by
          by_contra hne
          rw [hacc'.reading.mpr hne] at hph'
          cases hph'
        rcases hp with hlt | ⟨_, hf⟩
        · obtain ⟨k'', hk''⟩ := ih hacc' (by omega)
          refine ⟨k + (1 + (k' + k'')), ?_⟩
          rw [left, List.replicate_add, run_append, List.replicate_add, run_append,
            List.replicate_add, run_append]
          exact hk''
        · rw [hidle] at hf
          exact hf.elim

theorem stored_user (s : State) (ok : Bool) :
    (UserProcessing.step s (.user ok)).sys.cache.stored = s.sys.cache.stored := by
  cases hph : s.phase with
  | top => simp only [UserProcessing.step, hph, beginIteration, HandOver.step]
  | reading => simp only [UserProcessing.step, hph, readStep, HandOver.step]
  | decode i => simp only [UserProcessing.step, hph, decodeStep]

theorem stored_left (n : Nat) (s : State) :
    (run UserProcessing.step s (left n)).sys.cache.stored = s.sys.cache.stored := by
  apply @run_untouched _ _ _ _ (fun s : State => s.sys.cache.stored)
  intro e he s
  rw [List.eq_of_mem_replicate he]
  exact stored_user s true

theorem uids_left (events : List Event) (n : Nat) : uids (events ++ left n) = uids events := by
  rw [uids, List.filterMap_append, left, List.filterMap_replicate_of_none rfl, List.append_nil]
  rfl

theorem client_of_valid {events : List Event} (h : ∀ e ∈ events, IsValidEvent e) (n : Nat) :
    ∀ e ∈ events ++ left n, IsClientEvent e := by
  intro e he
  rcases List.mem_append.mp he with he | he
  · have hv := h e he
    cases e with
    | tick d => trivial
    | packet pkt =>
        obtain ⟨uid, created, hc, _⟩ := hv
        exact ⟨uid, created, hc⟩
    | user ok => trivial
  · rw [List.eq_of_mem_replicate he]
    trivial

/-- Both logs have uid k, under the times at which it was seen. -/
def LoggedTwice (s : State) (k : Nat) : Prop :=
  .km k (entry shipped s.sys.cache.module.logBuffs k) ∈ s.trace ∧
    .up k (entry shipped s.log k) ∈ s.trace ∧
    entry shipped s.sys.cache.module.logBuffs k ≤ entry shipped s.log k

theorem loggedTwice_of_up {log : Log} {events : List Event} {s : State} (h : Ordered log events s)
    {k t : Nat} (ht : .up k t ∈ s.trace) : LoggedTwice s k := by
  obtain ⟨past, rest, hsplit⟩ := List.append_of_mem ht
  obtain ⟨⟨t', hkm, hle⟩, _⟩ := h.userLog.lawful past _ rest hsplit
  have hkm' : .km k t' ∈ s.trace := by
    rw [hsplit]
    exact List.mem_append_left _ hkm
  rw [LoggedTwice, h.userLog.entries k t ht, h.arrivals.km_entry k t' hkm']
  exact ⟨hkm', ht, hle⟩

theorem eventually_logged (kmLog log : Log) (outside : Mem) (events : List Event)
    (hvalid : ∀ e ∈ events, IsValidEvent e) (honce : (uids events).Nodup)
    (hspaced : Along UserProcessing.step SpacedEvent (UserProcessing.start kmLog log outside) events) :
    let s := run UserProcessing.step (UserProcessing.start kmLog log outside) events
    ∃ n, ∀ pkt ∈ s.sys.cache.stored, pkt.uid < maxLogEntry →
      LoggedTwice (run UserProcessing.step s (left n)) pkt.uid := by
  intro s
  have hacc : Accounted s := accounted_run kmLog log outside events hvalid hspaced
  obtain ⟨n, hph, hacc', hempty⟩ := drains _ hacc (Nat.le_refl _)
  refine ⟨n, fun pkt hm hu => ?_⟩
  have hord := ordered_run kmLog log outside (events ++ left n) (client_of_valid hvalid n)
    (by rw [uids_left]; exact honce)
  rw [run_append] at hord
  obtain ⟨p, hp⟩ := List.getElem?_of_mem hm
  have hp' : (run UserProcessing.step s (left n)).sys.cache.stored[p]? = some pkt := by
    rw [stored_left]
    exact hp
  rcases hacc'.kept p pkt hp' hu with ⟨i, hi, _⟩ | hpend | ⟨t, ht⟩
  · have hmem := mem_waiting.mpr hi
    rw [hempty] at hmem
    exact absurd hmem (Finset.notMem_empty i)
  · simp [pending, hph] at hpend
  · exact loggedTwice_of_up hord ht

/-- As long as no frame runs over a waiting packet, every packet the handler
stores is in the cache, in a record still to be decoded, or in the log of
user-processing; and once frames stop coming all of them get into the log, each
under the time of one decode step and not before the handler's own entry. -/
theorem stored_packets_are_logged (kmLog log : Log) (outside : Mem) (events : List Event)
    (hvalid : ∀ e ∈ events, IsValidEvent e) (honce : (uids events).Nodup)
    (hspaced : Along UserProcessing.step SpacedEvent (UserProcessing.start kmLog log outside) events) :
    let s := run UserProcessing.step (UserProcessing.start kmLog log outside) events
    (∀ p pkt, s.sys.cache.stored[p]? = some pkt → pkt.uid < maxLogEntry →
      s.sys.cache.cached p ∨ p ∈ pending s ∨ ∃ t, .up pkt.uid t ∈ s.trace) ∧
    ∃ n, ∀ pkt ∈ s.sys.cache.stored, pkt.uid < maxLogEntry →
      LoggedTwice (run UserProcessing.step s (left n)) pkt.uid :=
  ⟨(accounted_run kmLog log outside events hvalid hspaced).kept,
    eventually_logged kmLog log outside events hvalid honce hspaced⟩

theorem twoPackets_logged :
    let s := run UserProcessing.step
      (UserProcessing.start (fun _ _ => 0) (fun _ _ => 0) fun _ => 255) twoPackets
    ∃ n, ∀ pkt ∈ s.sys.cache.stored, pkt.uid < maxLogEntry →
      LoggedTwice (run UserProcessing.step s (left n)) pkt.uid :=
  (stored_packets_are_logged (fun _ _ => 0) (fun _ _ => 0) (fun _ => 255) twoPackets
    twoPackets_valid (by rw [twoPackets_uids]; decide) twoPackets_spaced).2

end PacketIntercept.EventualLogging
