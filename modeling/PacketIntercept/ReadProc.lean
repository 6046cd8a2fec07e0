import PacketIntercept.RxHandler
import Mathlib.Logic.Function.Iterate

namespace PacketIntercept.ReadProc

open ByteMemory CyclicSlots Common RxHandler

/-- The locals of the search loop of read. copiedIndex lists the first
copied_pkts entries of copied_index; the entries behind them are still -1. -/
structure Scan where
  ci : Slot
  copiedIndex : List Slot
  tries : Nat

def Scan.running (l : Scan) : Bool :=
  decide (l.copiedIndex.length < pktsPerBuffer) && decide (l.tries < maxPkt)

def beginScan (m : Module) : Module × Scan :=
  ({ m with buffTemp := memset m.buffTemp 0 0 bufferSize }, ⟨m.currentIndex, [], 0⟩)

def scanIteration (m : Module) (l : Scan) : Module × Scan :=
  if m.status l.ci then
    ({ m with
        buffTemp := memcpy m.buffTemp (l.copiedIndex.length * pktBufferSize)
          (fun b => m.buffFromHere (l.ci.val * pktBufferSize + b)) pktBufferSize },
      ⟨shift l.ci 1, l.copiedIndex ++ [l.ci], l.tries + 1⟩)
  else (m, ⟨shift l.ci 1, l.copiedIndex, l.tries + 1⟩)

def scanLoop : Nat → Module × Scan → Module × Scan
  | 0, s => s
  | fuel + 1, s => if s.2.running then scanLoop fuel (scanIteration s.1 s.2) else s

def cleanIteration (copied : List Slot) (i : Nat) (m : Module) : Module :=
  match copied[i]? with
  | some s =>
      { m with
        buffFromHere := memset m.buffFromHere (s.val * pktBufferSize) 0 pktBufferSize
        status := Function.update m.status s false }
  | none => m

def cleanLoop (copied : List Slot) : Nat → Module → Module
  | 0, m => m
  | n + 1, m => cleanIteration copied n (cleanLoop copied n m)

structure ReadResult where
  module : Module
  /-- What copy_to_user put into the user's buffer, if it succeeded. -/
  copied : Option Mem
  ret : Int

/-- A whole call of read. The offset is compared as a size_t, and the value
computed from len is never used: every path returns BUFFER_SIZE. -/
def read (_len : Nat) (off : BitVec 64) (ok : Bool) (m : Module) : ReadResult :=
  if bufferSize ≤ off.toNat then ⟨m, none, bufferSize⟩
  else
    let s := scanLoop maxPkt (beginScan m)
    if ok then ⟨cleanLoop s.2.copiedIndex pktsPerBuffer s.1, some s.1.buffTemp, bufferSize⟩
    else ⟨s.1, none, bufferSize⟩

/-- Where a reader that can be interrupted between two steps of read stands. -/
inductive Reader
  | idle
  | scan (l : Scan)
  | clean (copied : List Slot) (i : Nat)

/-- The next step of the reader. The offset matters when a call begins, the
outcome of copy_to_user when the search is over. -/
def readerStep (off : BitVec 64) (ok : Bool) : Module × Reader → Module × Reader
  | (m, .idle) =>
      if bufferSize ≤ off.toNat then (m, .idle) else ((beginScan m).1, .scan (beginScan m).2)
  | (m, .scan l) =>
      if l.running then ((scanIteration m l).1, .scan (scanIteration m l).2)
      else if ok then (m, .clean l.copiedIndex 0)
      else (m, .idle)
  | (m, .clean copied i) =>
      (cleanIteration copied i m, if i + 1 < pktsPerBuffer then .clean copied (i + 1) else .idle)

def Reader.handsOver (ok : Bool) : Reader → Option (List Slot)
  | .scan l => if !l.running && ok then some l.copiedIndex else none
  | _ => none

theorem scanLoop_invariant {Inv : Module × Scan → Prop}
    (hstep : ∀ m l, l.running = true → Inv (m, l) → Inv (scanIteration m l))
    (fuel : Nat) (s : Module × Scan) (h : Inv s) : Inv (scanLoop fuel s) := by
  induction fuel generalizing s with
  | zero => exact h
  | succ fuel ih =>
      rw [scanLoop]
      split
      next hr => exact ih _ (hstep s.1 s.2 hr h)
      next => exact h

theorem scanIteration_frame (m : Module) (l : Scan) :
    ∃ temp, (scanIteration m l).1 = { m with buffTemp := temp } := by
  rw [scanIteration]
  split
  · exact ⟨_, rfl⟩
  · exact ⟨m.buffTemp, rfl⟩

theorem scanIteration_status (m : Module) (l : Scan) : (scanIteration m l).1.status = m.status := by
  obtain ⟨temp, he⟩ := scanIteration_frame m l
  rw [he]

theorem readerStep_begin {off : BitVec 64} (ho : ¬ bufferSize ≤ off.toNat) (ok : Bool) (m : Module) :
    readerStep off ok (m, .idle) = ((beginScan m).1, .scan (beginScan m).2) := by
  simp [readerStep, ho]

theorem readerStep_scan {l : Scan} (hrun : l.running = true) (off : BitVec 64) (ok : Bool) (m : Module) :
    readerStep off ok (m, .scan l) = ((scanIteration m l).1, .scan (scanIteration m l).2) := by
  simp [readerStep, hrun]

theorem cleanIteration_logBuffs (copied : List Slot) (i : Nat) (m : Module) :
    (cleanIteration copied i m).logBuffs = m.logBuffs := by
  rw [cleanIteration]
  split <;> rfl

theorem readerStep_logBuffs (off : BitVec 64) (ok : Bool) (m : Module) (r : Reader) :
    (readerStep off ok (m, r)).1.logBuffs = m.logBuffs := by
  cases r with
  | idle =>
      rw [readerStep]
      split <;> rfl
  | scan l =>
      obtain ⟨temp, he⟩ := scanIteration_frame m l
      rw [readerStep]
      split
      · rw [he]
      · split <;> rfl
  | clean copied i => exact cleanIteration_logBuffs copied i m

theorem scanLoop_frame (fuel : Nat) (m : Module) :
    ∃ temp, (scanLoop fuel (beginScan m)).1 = { m with buffTemp := temp } := by
  apply @scanLoop_invariant fun s => ∃ temp, s.1 = { m with buffTemp := temp }
  · rintro m' l _ ⟨temp, rfl⟩
    obtain ⟨temp', h⟩ := scanIteration_frame { m with buffTemp := temp } l
    exact ⟨temp', h⟩
  · exact ⟨_, rfl⟩

theorem scanLoop_copiedIndex (fuel : Nat) (m : Module) (l : Scan) (ht : l.tries + fuel = maxPkt)
    (hl : l.copiedIndex.length ≤ pktsPerBuffer) :
    (scanLoop fuel (m, l)).2.copiedIndex = l.copiedIndex ++
      ((arc l.ci fuel).filter m.status).take (pktsPerBuffer - l.copiedIndex.length) := by
  induction fuel generalizing m l with
  | zero => simp [scanLoop, arc]
  | succ fuel ih =>
      by_cases hr : l.copiedIndex.length < pktsPerBuffer
      · have hrun : l.running = true := by simp [Scan.running, hr]; omega
        rw [scanLoop, if_pos hrun]
        by_cases hs : m.status l.ci = true
        · have hsub : pktsPerBuffer - l.copiedIndex.length =
              pktsPerBuffer - (l.copiedIndex.length + 1) + 1 := by omega
          simp only [scanIteration, hs, if_true]
          rw [ih]
          · rw [arc, List.filter_cons_of_pos hs, hsub, List.take_succ_cons]
            simp
          · simp only; omega
          · simpa using Nat.succ_le_of_lt hr
        · simp only [scanIteration, hs]
          rw [if_neg Bool.false_ne_true, ih]
          · rw [arc, List.filter_cons_of_neg hs]
          · simp only; omega
          · exact hl
      · have hrun : ¬ l.running = true := by simp [Scan.running, hr]
        rw [scanLoop, if_neg hrun, Nat.sub_eq_zero_of_le (Nat.le_of_not_lt hr), List.take_zero,
          List.append_nil]

theorem scanLoop_begin (m : Module) :
    (scanLoop maxPkt (beginScan m)).2.copiedIndex =
      (occupied m.status m.currentIndex).take pktsPerBuffer := by
  rw [beginScan, scanLoop_copiedIndex maxPkt _ _ (Nat.zero_add _) (Nat.zero_le _)]
  simp [occupied]

/-- Record j of buff_temp is the slot it was copied from, and the rest is clear. -/
def Filled (s : Module × Scan) : Prop :=
  (∀ j i, s.2.copiedIndex[j]? = some i → ∀ b, b < pktBufferSize →
    s.1.buffTemp (j * pktBufferSize + b) = s.1.buffFromHere (i.val * pktBufferSize + b)) ∧
  ∀ a, s.2.copiedIndex.length * pktBufferSize ≤ a → a < bufferSize → s.1.buffTemp a = 0

theorem filled_begin (m : Module) : Filled (beginScan m) := by
  refine ⟨fun j i h => by simp [beginScan] at h, fun a _ ha => ?_⟩
  simp [beginScan, memset_apply, ha]

theorem filled_scanIteration (m : Module) (l : Scan) (h : Filled (m, l)) :
    Filled (scanIteration m l) := by
  rw [scanIteration]
  split
  next =>
    refine ⟨fun j i hj b hb => ?_, fun a hlo hhi => ?_⟩
    · simp only at hj ⊢
      by_cases he : j < l.copiedIndex.length
      · rw [List.getElem?_append_left he] at hj
        rw [memcpy_block_ne _ _ (Nat.ne_of_gt he) (Nat.le_refl _) hb]
        exact h.1 j i hj b hb
      · have hj' : j = l.copiedIndex.length := by
          have hlt := (List.getElem?_eq_some_iff.mp hj).1
          simp only [List.length_append, List.length_singleton] at hlt
          omega
        subst hj'
        rw [List.getElem?_concat_length, Option.some.injEq] at hj
        rw [memcpy_inside _ _ _ _ _ hb, hj]
    · simp only [List.length_append, List.length_singleton] at hlo ⊢
      have hlo' : l.copiedIndex.length * pktBufferSize + pktBufferSize ≤ a := by
        rwa [Nat.add_mul, Nat.one_mul] at hlo
      rw [memcpy_outside _ _ _ _ _ (.inr hlo')]
      exact h.2 a (Nat.le_trans (Nat.le_add_right _ _) hlo') hhi
  next => exact h

theorem filled_scanLoop (m : Module) : Filled (scanLoop maxPkt (beginScan m)) :=
  scanLoop_invariant (fun m l _ h => filled_scanIteration m l h) _ _ (filled_begin m)

theorem cleanLoop_succ_none (copied : List Slot) (n : Nat) (m : Module) (h : copied[n]? = none) :
    cleanLoop copied (n + 1) m = cleanLoop copied n m := by
  rw [cleanLoop, cleanIteration, h]

def Cleared (slots : List Slot) (old cache : Mem) : Prop :=
  ∀ s : Slot, ∀ b, b < pktBufferSize →
    (s ∈ slots → cache (s.val * pktBufferSize + b) = 0) ∧
    (s ∉ slots → cache (s.val * pktBufferSize + b) = old (s.val * pktBufferSize + b))

theorem cleanLoop_spec (copied : List Slot) (n : Nat) (m : Module) :
    ∃ cache, cleanLoop copied n m =
        { m with status := clear m.status (copied.take n), buffFromHere := cache } ∧
      Cleared (copied.take n) m.buffFromHere cache := by
  induction n with
  | zero => exact ⟨m.buffFromHere, by simp [cleanLoop], fun _ _ _ => ⟨by simp, fun _ => rfl⟩⟩
  | succ n ih =>
      obtain ⟨cache, hm, hc⟩ := ih
      cases hn : copied[n]? with
      | none =>
          have ht : copied.take (n + 1) = copied.take n := by
            rw [List.take_add_one, hn, Option.toList_none, List.append_nil]
          exact ⟨cache, by rw [cleanLoop_succ_none _ _ _ hn, hm, ht], by rw [ht]; exact hc⟩
      | some i =>
          have ht : copied.take (n + 1) = copied.take n ++ [i] := by
            rw [List.take_add_one, hn, Option.toList_some]
          refine ⟨memset cache (i.val * pktBufferSize) 0 pktBufferSize, ?_, ?_⟩
          · rw [cleanLoop, cleanIteration, hn, hm, ht]
            simp only [Module.mk.injEq, and_true]
            funext s
            by_cases hs : s = i <;> simp [clear, hs]
          · intro s b hb
            rw [ht]
            by_cases hs : s = i
            · subst s
              simp [memset, memcpy_inside _ _ _ _ _ hb]
            · have hv : i.val ≠ s.val := fun h => hs (Fin.ext h.symm)
              rw [memset, memcpy_block_ne _ _ hv (Nat.le_refl _) hb]
              simpa [hs] using hc s b hb

/-- What a whole read does to the module: the outcomes are those of C's three
paths, and a successful copy hands over the first occupied slots of the ring. -/
theorem read_cases (len : Nat) (off : BitVec 64) (ok : Bool) (m : Module) :
    (bufferSize ≤ off.toNat ∧ (read len off ok m).module = m ∧ (read len off ok m).copied = none) ∨
    (off.toNat < bufferSize ∧ ok = false ∧ (read len off ok m).copied = none ∧
      ∃ temp, (read len off ok m).module = { m with buffTemp := temp }) ∨
    (off.toNat < bufferSize ∧ ok = true ∧ ∃ temp cache,
      (read len off ok m).copied = some temp ∧
      (read len off ok m).module =
        { m with
          buffTemp := temp
          status := clear m.status ((occupied m.status m.currentIndex).take pktsPerBuffer)
          buffFromHere := cache } ∧
      (∀ j i, ((occupied m.status m.currentIndex).take pktsPerBuffer)[j]? = some i →
        ∀ b, b < pktBufferSize → temp (j * pktBufferSize + b) =
          m.buffFromHere (i.val * pktBufferSize + b)) ∧
      Cleared ((occupied m.status m.currentIndex).take pktsPerBuffer) m.buffFromHere cache) := by
  by_cases ho : bufferSize ≤ off.toNat
  · exact .inl ⟨ho, by simp [read, ho], by simp [read, ho]⟩
  · right
    obtain ⟨temp, hs⟩ := scanLoop_frame maxPkt m
    cases ok with
    | false => exact .inl ⟨by omega, rfl, by simp [read, ho], temp, by simp [read, ho, hs]⟩
    | true =>
        right
        have hidx := scanLoop_begin m
        have hfill := (filled_scanLoop m).1
        rw [hidx, hs] at hfill
        obtain ⟨cache, hm, hc⟩ := cleanLoop_spec
          ((occupied m.status m.currentIndex).take pktsPerBuffer) pktsPerBuffer
          { m with buffTemp := temp }
        have htt := List.take_take (l := occupied m.status m.currentIndex)
          (i := pktsPerBuffer) (j := pktsPerBuffer)
        rw [Nat.min_self] at htt
        rw [htt] at hm hc
        refine ⟨by omega, rfl, temp, cache, ?_, ?_, hfill, hc⟩
        · simp [read, ho, hs]
        · simp only [read, ho, if_false, if_true, hs, hidx, hm]

theorem readerStep_scan_iterate (off : BitVec 64) (ok : Bool) (fuel : Nat) (m : Module) (l : Scan) :
    ∃ n, (readerStep off ok)^[n] (m, .scan l) =
      ((scanLoop fuel (m, l)).1, .scan (scanLoop fuel (m, l)).2) := by
  induction fuel generalizing m l with
  | zero => exact ⟨0, rfl⟩
  | succ fuel ih =>
      by_cases hr : l.running = true
      · obtain ⟨n, hn⟩ := ih (scanIteration m l).1 (scanIteration m l).2
        refine ⟨n + 1, ?_⟩
        rw [Function.iterate_succ_apply, readerStep_scan hr, hn, scanLoop, if_pos hr]
      · exact ⟨0, by simp [scanLoop, hr]⟩

theorem scanIteration_tries (m : Module) (l : Scan) :
    (scanIteration m l).2.tries = l.tries + 1 := by
  rw [scanIteration]
  split <;> rfl

theorem scanLoop_stops (fuel : Nat) (m : Module) (l : Scan) (ht : l.tries + fuel = maxPkt) :
    (scanLoop fuel (m, l)).2.running = false := by
  induction fuel generalizing m l with
  | zero =>
      have hge : ¬ l.tries < maxPkt := by omega
      simp [scanLoop, Scan.running, hge]
  | succ fuel ih =>
      by_cases hr : l.running = true
      · rw [scanLoop, if_pos hr]
        exact ih (scanIteration m l).1 (scanIteration m l).2 (by rw [scanIteration_tries]; omega)
      · simp [scanLoop, hr]

theorem readerStep_clean_iterate (off : BitVec 64) (ok : Bool) (copied : List Slot) (m : Module)
    (n : Nat) (hn : n < pktsPerBuffer) :
    (readerStep off ok)^[n] (m, .clean copied 0) = (cleanLoop copied n m, .clean copied n) := by
  induction n with
  | zero => rfl
  | succ n ih =>
      rw [Function.iterate_succ_apply', ih (by omega), readerStep, if_pos hn, cleanLoop]

/-- A reader that is not interrupted performs exactly one whole read. -/
theorem readerStep_refines_read (len : Nat) (off : BitVec 64) (ok : Bool) (m : Module) :
    ∃ n, 0 < n ∧ (readerStep off ok)^[n] (m, .idle) = ((read len off ok m).module, .idle) := by
  by_cases ho : bufferSize ≤ off.toNat
  · exact ⟨1, Nat.one_pos, by simp [readerStep, read, ho]⟩
  · obtain ⟨n, hn⟩ := readerStep_scan_iterate off ok maxPkt (beginScan m).1 (beginScan m).2
    have hstop := scanLoop_stops maxPkt (beginScan m).1 (beginScan m).2 (Nat.zero_add _)
    have hsearch : (readerStep off ok)^[n + 1] (m, .idle) =
        ((scanLoop maxPkt (beginScan m)).1, .scan (scanLoop maxPkt (beginScan m)).2) := by
      rw [Function.iterate_succ_apply, readerStep_begin ho, hn]
    cases ok with
    | false =>
        refine ⟨n + 1 + 1, by omega, ?_⟩
        rw [Function.iterate_succ_apply', hsearch]
        simp [readerStep, hstop, read, ho]
    | true =>
        refine ⟨1 + (pktsPerBuffer - 1) + 1 + (n + 1), by omega, ?_⟩
        have hcopy : readerStep off true ((scanLoop maxPkt (beginScan m)).1,
            .scan (scanLoop maxPkt (beginScan m)).2) = ((scanLoop maxPkt (beginScan m)).1,
            .clean (scanLoop maxPkt (beginScan m)).2.copiedIndex 0) := by
          simp [readerStep, hstop]
        have hlast : ¬ (pktsPerBuffer - 1 + 1 < pktsPerBuffer) := by decide
        rw [Function.iterate_add_apply, hsearch, Function.iterate_succ_apply, hcopy,
          Function.iterate_add_apply, readerStep_clean_iterate _ _ _ _ _ (by decide),
          Function.iterate_one, readerStep, if_neg hlast, ← cleanLoop]
        simp [read, ho, show pktsPerBuffer - 1 + 1 = pktsPerBuffer from rfl]

end PacketIntercept.ReadProc
