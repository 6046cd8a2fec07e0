import PacketIntercept.ReadProc
import PacketIntercept.Runs
import Mathlib.Algebra.Order.BigOperators.Group.Finset

namespace PacketIntercept.ConcurrentHandlers

open ByteMemory CyclicSlots Common LogBuffs RxHandler ReadProc Runs

variable {n : Nat}

/-- Where a call of rxhPacketIn stands that has got past the filter: in front of a
try of the search loop, with the number of tries after it, of the copy, of the
write to status or of the write to current_index. -/
inductive Phase
  | looking (more : Nat) (i : Slot)
  | copying (i : Slot)
  | claiming (i : Slot)
  | advancing (i : Slot)

structure Call where
  pkt : Skb
  phase : Phase

/-- The next step of a call: its phase afterwards, if it has not returned. -/
def proceed (call : Call) (m : Module) : Option Phase × Module :=
  match call.phase with
  | .looking more i =>
      if m.status i = false then (some (.copying i), m)
      else if more = 0 then (none, { m with countPktOverflow := m.countPktOverflow + 1 })
      else (some (.looking (more - 1) (shift i 1)), m)
  | .copying i =>
      (some (.claiming i),
        { m with
          buffFromHere := memcpy m.buffFromHere (i.val * pktBufferSize)
            (fun b => call.pkt.data (28 + b)) call.pkt.copyLen })
  | .claiming i => (some (.advancing i), { m with status := Function.update m.status i true })
  | .advancing i => (none, { m with currentIndex := shift i 1 })

/-- What has become of the frames: got past the filter, found no slot, claimed a
slot that was claimed already, and cleaned up after a read. -/
structure Books where
  accepted : Nat
  overflowed : Nat
  doubled : Nat
  cleared : Nat

/-- The module with a reader and n processors that can be in the handler at once. -/
structure Machine (n : Nat) where
  module : Module
  reader : Reader
  calls : Fin n → Option Call
  books : Books

inductive Act (n : Nat)
  | arrive (cpu : Fin n) (now : Nat) (pkt : Skb)
  | go (cpu : Fin n)
  | reader (off : BitVec 64) (ok : Bool)

def begin (now : Nat) (pkt : Skb) (cpu : Fin n) (s : Machine n) : Machine n :=
  { s with
    module := writeLog now pkt s.module
    calls := Function.update s.calls cpu 
      (some ⟨pkt, .looking (kmFindBuffSlotMaxTry - 1) s.module.currentIndex⟩)
    books := { s.books with accepted := s.books.accepted + 1 } }

section Begin

variable (now : Nat) (pkt : Skb) (cpu : Fin n) (s : Machine n)

theorem begin_module : (begin now pkt cpu s).module = writeLog now pkt s.module := by
  rw [begin]

theorem begin_calls : (begin now pkt cpu s).calls = Function.update s.calls cpu
    (some ⟨pkt, .looking (kmFindBuffSlotMaxTry - 1) s.module.currentIndex⟩) := by
  rw [begin]

theorem begin_reader : (begin now pkt cpu s).reader = s.reader := by
  rw [begin]

end Begin

def Books.proceed (b : Books) (phase : Phase) (status : Slot → Bool) : Books :=
  match phase with
  | .looking more i => if more = 0 ∧ status i = true then { b with overflowed := b.overflowed + 1 } else b
  | .claiming i => if status i then { b with doubled := b.doubled + 1 } else b
  | _ => b

/-- The slot the next step of a reader frees. -/
def freed : Reader → Option Slot
  | .clean copied k => copied[k]?
  | _ => none

def Books.readerStep (b : Books) (r : Reader) (status : Slot → Bool) : Books :=
  match freed r with
  | some i => if status i then { b with cleared := b.cleared + 1 } else b
  | none => b

def step (s : Machine n) : Act n → Machine n
  | .arrive cpu now pkt =>
      match s.calls cpu with
      | some _ => s
      | none => if pkt.passesFilter then begin now pkt cpu s else s
  | .go cpu =>
      match s.calls cpu with
      | none => s
      | some call =>
          { s with
            module := (proceed call s.module).2
            calls := Function.update s.calls cpu ((proceed call s.module).1.map (⟨call.pkt, ·⟩))
            books := s.books.proceed call.phase s.module.status }
  | .reader off ok =>
      { s with
        module := (readerStep off ok (s.module, s.reader)).1
        reader := (readerStep off ok (s.module, s.reader)).2
        books := s.books.readerStep s.reader s.module.status }

def start (n : Nat) (log : Log) (outside : Mem) : Machine n :=
  ⟨loaded log outside, .idle, fun _ => none, ⟨0, 0, 0, 0⟩⟩

/-- The slot a call has found free and not yet claimed. -/
def Phase.held : Phase → Option Slot
  | .copying i => some i
  | .claiming i => some i
  | _ => none

def Holding (s : Machine n) (cpu : Fin n) (i : Slot) : Prop :=
  ∃ call, s.calls cpu = some call ∧ call.phase.held = some i

/-- No call is about to write to a slot that is occupied. -/
def Safe (s : Machine n) : Prop := ∀ cpu i, Holding s cpu i → s.module.status i = false

/-- The processor is about to claim a slot that another one has found free too. -/
def Contended (s : Machine n) (cpu : Fin n) : Prop :=
  ∃ call i, s.calls cpu = some call ∧ call.phase = .claiming i ∧ ∃ other, other ≠ cpu ∧ Holding s other i

def assign (status : Slot → Bool) (target : Option Slot) (value : Bool) : Slot → Bool :=
  match target with
  | some i => Function.update status i value
  | none => status

/-- The slot the next step of a call sets the status of. -/
def Phase.claimed : Phase → Option Slot
  | .claiming i => some i
  | _ => none

theorem assign_of_ne {status : Slot → Bool} {target : Option Slot} {value : Bool} {i : Slot}
    (h : target ≠ some i) : assign status target value i = status i := by
  cases target with
  | none => rfl
  | some j => exact Function.update_of_ne (fun hij => h (by rw [hij])) _ _

theorem assign_false {status : Slot → Bool} {i : Slot} (h : status i = false) (target : Option Slot) :
    assign status target false i = false := by
  by_cases ht : target = some i
  · rw [ht, assign, Function.update_self]
  · rw [assign_of_ne ht, h]

theorem readerStep_status (off : BitVec 64) (ok : Bool) (m : Module) (r : Reader) :
    (readerStep off ok (m, r)).1.status = assign m.status (freed r) false := by
  cases r with
  | idle =>
      rw [readerStep]
      split <;> rfl
  | scan l =>
      rw [readerStep]
      split
      · exact scanIteration_status m l
      · split <;> rfl
  | clean copied k =>
      rw [readerStep, cleanIteration, freed]
      cases copied[k]? <;> rfl

theorem proceed_status (call : Call) (m : Module) :
    (proceed call m).2.status = assign m.status call.phase.claimed true := by
  obtain ⟨pkt, phase⟩ := call
  cases phase with
  | looking more i =>
      rw [proceed]
      dsimp only
      split
      · rfl
      · split <;> rfl
  | copying i => rfl
  | claiming i => rfl
  | advancing i => rfl

/-- A call comes to hold a slot by finding it free. -/
theorem proceed_held {call : Call} {m : Module} {phase : Phase} {i : Slot}
    (h : (proceed call m).1 = some phase) (hi : phase.held = some i) :
    call.phase.claimed = none ∧ (call.phase.held = some i ∨ m.status i = false) := by
  obtain ⟨pkt, before⟩ := call
  cases before with
  | looking more j =>
      refine ⟨rfl, ?_⟩
      rw [proceed] at h
      dsimp only at h
      split at h
      · rename_i hfree
        cases h
        cases hi
        exact .inr hfree
      · split at h
        · cases h
        · cases h
          cases hi
  | copying j =>
      cases h
      exact ⟨rfl, .inl hi⟩
  | claiming j =>
      cases h
      cases hi
  | advancing j => cases h

section Steps

variable (s : Machine n) (cpu : Fin n)

theorem go_idle (h : s.calls cpu = none) : step s (.go cpu) = s := by
  rw [step, h]

theorem go_call {call : Call} (h : s.calls cpu = some call) :
    step s (.go cpu) =
      { s with
        module := (proceed call s.module).2
        calls := Function.update s.calls cpu ((proceed call s.module).1.map (⟨call.pkt, ·⟩))
        books := s.books.proceed call.phase s.module.status } := by
  rw [step, h]

/-- Everything an arrival can do. -/
theorem arrive_cases (now : Nat) (pkt : Skb) :
    step s (.arrive cpu now pkt) = s ∨
      s.calls cpu = none ∧ pkt.passesFilter = true ∧
        step s (.arrive cpu now pkt) = begin now pkt cpu s := by
  rw [step]
  split
  · exact .inl rfl
  · rename_i hidle
    split
    · rename_i hp
      exact .inr ⟨hidle, hp, rfl⟩
    · exact .inl rfl

end Steps

theorem holding_of_update {s : Machine n} {m : Module} {r : Reader} {b : Books} {cpu other : Fin n}
    {call : Option Call} {i : Slot}
    (h : Holding ⟨m, r, Function.update s.calls cpu call, b⟩ other i) :
    other = cpu ∧ (∃ c, call = some c ∧ c.phase.held = some i) ∨ other ≠ cpu ∧ Holding s other i := by
  obtain ⟨c, hc, hi⟩ := h
  dsimp only at hc
  by_cases he : other = cpu
  · subst he
    rw [Function.update_self] at hc
    exact .inl ⟨rfl, c, hc, hi⟩
  · rw [Function.update_of_ne he] at hc
    exact .inr ⟨he, c, hc, hi⟩

theorem step_safe {s : Machine n} (hs : Safe s) {act : Act n}
    (hact : ∀ cpu, act = .go cpu → ¬ Contended s cpu) : Safe (step s act) := by
  cases act with
  | arrive cpu now pkt =>
      rcases arrive_cases s cpu now pkt with he | ⟨_, _, he⟩
      · rw [he]
        exact hs
      · rw [he]
        intro other i hh
        rcases holding_of_update hh with ⟨_, c, hc, hi⟩ | ⟨_, hh⟩
        · cases hc
          cases hi
        · exact hs other i hh
  | reader off ok =>
      intro cpu i hh
      change (readerStep off ok (s.module, s.reader)).1.status i = false
      rw [readerStep_status]
      exact assign_false (hs cpu i hh) _
  | go cpu =>
      cases hc : s.calls cpu with
      | none =>
          rw [go_idle s cpu hc]
          exact hs
      | some call =>
          rw [go_call s cpu hc]
          intro other i hh
          change (proceed call s.module).2.status i = false
          rw [proceed_status]
          rcases holding_of_update hh with ⟨_, c, hnext, hi⟩ | ⟨hne, hh⟩
          · obtain ⟨phase, hphase, rfl⟩ := Option.map_eq_some_iff.mp hnext
            obtain ⟨hnone, hfree⟩ := proceed_held hphase hi
            rw [hnone]
            rcases hfree with hheld | hfree
            · exact hs cpu i ⟨call, hc, hheld⟩
            · exact hfree
          · rw [assign_of_ne]
            · exact hs other i hh
            · intro hclaim
              refine hact cpu rfl ⟨call, i, hc, ?_, other, hne, hh⟩
              obtain ⟨pkt, phase⟩ := call
              cases phase <;> cases hclaim
              rfl

/-- A contended claim leaves another call with an occupied slot. -/
theorem not_safe_of_contended {s : Machine n} {cpu : Fin n} (h : Contended s cpu) :
    ¬ Safe (step s (.go cpu)) := by
  obtain ⟨call, i, hc, hphase, other, hne, c, hcalls, hheld⟩ := h
  rw [go_call s cpu hc]
  intro hsafe
  have hfalse := hsafe other i ⟨c, (Function.update_of_ne hne _ _).trans hcalls, hheld⟩
  dsimp only at hfalse
  rw [proceed_status, hphase, Phase.claimed, assign, Function.update_self] at hfalse
  cases hfalse

/-- The frames a processor has accepted and not yet found a slot or no slot for. -/
def Phase.inHand : Phase → Nat
  | .looking _ _ => 1
  | .copying _ => 1
  | .claiming _ => 1
  | .advancing _ => 0

def inHand : Option Call → Nat
  | some call => call.phase.inHand
  | none => 0

def underWay (s : Machine n) : Nat := ∑ cpu, inHand (s.calls cpu)

def occupiedSlots (m : Module) : Nat := ∑ i, (m.status i).toNat

/-- Every accepted frame is accounted for. -/
def Balanced (s : Machine n) : Prop :=
  s.books.accepted = s.books.overflowed + s.books.cleared + s.books.doubled +
    occupiedSlots s.module + underWay s

theorem occupied_assign (m : Module) {m' : Module} {target : Option Slot} {value : Bool}
    (h : m'.status = assign m.status target value) :
    occupiedSlots m' + ((target.map m.status).getD value).toNat = occupiedSlots m + value.toNat := by
  rw [occupiedSlots, occupiedSlots, h]
  cases target with
  | none => rfl
  | some i => exact sum_update Bool.toNat m.status i value

theorem occupied_congr {m m' : Module} (h : m'.status = m.status) : occupiedSlots m' = occupiedSlots m := by
  rw [occupiedSlots, occupiedSlots, h]

theorem balanced_reader {s : Machine n} (hs : Balanced s) (off : BitVec 64) (ok : Bool) :
    Balanced (step s (.reader off ok)) := by
  have hocc := occupied_assign s.module (readerStep_status off ok s.module s.reader)
  change s.books.accepted = _ at hs
  have hunder : underWay (step s (.reader off ok)) = underWay s := rfl
  rw [Balanced, hunder]
  change (s.books.readerStep s.reader s.module.status).accepted =
    (s.books.readerStep s.reader s.module.status).overflowed +
    (s.books.readerStep s.reader s.module.status).cleared +
    (s.books.readerStep s.reader s.module.status).doubled +
    occupiedSlots (readerStep off ok (s.module, s.reader)).1 + underWay s
  rw [Books.readerStep]
  cases hf : freed s.reader with
  | none =>
      rw [hf] at hocc
      dsimp only at hocc ⊢
      simp only [Option.map_none, Option.getD_none] at hocc
      omega
  | some i =>
      rw [hf] at hocc
      simp only [Option.map_some, Option.getD_some] at hocc
      dsimp only
      cases hi : s.module.status i with
      | false =>
          rw [hi] at hocc
          simp only [Bool.false_eq_true, if_false]
          omega
      | true =>
          rw [hi] at hocc
          simp only [if_true, Bool.toNat_true, Bool.toNat_false] at hocc ⊢
          omega

theorem balanced_arrive {s : Machine n} (hs : Balanced s) (cpu : Fin n) (now : Nat) (pkt : Skb) :
    Balanced (step s (.arrive cpu now pkt)) := by
  rcases arrive_cases s cpu now pkt with he | ⟨hidle, _, he⟩
  · rw [he]
    exact hs
  · have hunder := sum_update inHand s.calls cpu
      (some ⟨pkt, .looking (kmFindBuffSlotMaxTry - 1) s.module.currentIndex⟩)
    change underWay (begin now pkt cpu s) + inHand (s.calls cpu) = underWay s + _ at hunder
    have hst : (begin now pkt cpu s).module.status = s.module.status := by
      simp only [begin, writeLog]
    have hocc := occupied_congr hst
    rw [Balanced] at hs
    rw [hidle, inHand, inHand, Phase.inHand] at hunder
    rw [he, Balanced, hocc]
    change s.books.accepted + 1 = s.books.overflowed + s.books.cleared + s.books.doubled +
      occupiedSlots s.module + underWay (begin now pkt cpu s)
    omega

/-- The account of one step of a call. -/
theorem proceed_balance (call : Call) (m : Module) (b : Books) :
    (b.proceed call.phase m.status).accepted = b.accepted ∧
    (b.proceed call.phase m.status).cleared = b.cleared ∧
    (b.proceed call.phase m.status).overflowed + (b.proceed call.phase m.status).doubled +
        occupiedSlots (proceed call m).2 + inHand ((proceed call m).1.map (⟨call.pkt, ·⟩)) =
      b.overflowed + b.doubled + occupiedSlots m + inHand (some call) := by
  have hstatus := proceed_status call m
  obtain ⟨pkt, phase⟩ := call
  cases phase with
  | looking more i =>
      rw [occupied_congr hstatus, Books.proceed, proceed]
      dsimp only
      cases hi : m.status i with
      | false => simp [inHand, Phase.inHand]
      | true =>
          by_cases hm : more = 0
          · simp only [hm, and_self, if_true, Bool.true_eq_false, if_false, Option.map_none, inHand, Phase.inHand]
            refine ⟨trivial, trivial, by omega⟩
          · simp [hm, inHand, Phase.inHand]
  | copying i =>
      rw [occupied_congr hstatus]
      simp [Books.proceed, proceed, inHand, Phase.inHand]
  | claiming i =>
      have hocc := occupied_assign m hstatus
      simp only [Phase.claimed, Option.map_some, Option.getD_some, Bool.toNat_true] at hocc
      have hnext : inHand ((proceed ⟨pkt, .claiming i⟩ m).1.map (⟨pkt, ·⟩)) = 0 := rfl
      have hnow : inHand (some ⟨pkt, .claiming i⟩) = 1 := rfl
      rw [Books.proceed, hnext, hnow]
      cases hi : m.status i with
      | false =>
          rw [hi, Bool.toNat_false] at hocc
          simp only [Bool.false_eq_true, if_false, true_and]
          omega
      | true =>
          rw [hi, Bool.toNat_true] at hocc
          simp only [if_true, true_and]
          omega
  | advancing i =>
      rw [occupied_congr hstatus]
      simp [Books.proceed, proceed, inHand, Phase.inHand]

theorem balanced_go {s : Machine n} (hs : Balanced s) (cpu : Fin n) : Balanced (step s (.go cpu)) := by
  cases hc : s.calls cpu with
  | none =>
      rw [go_idle s cpu hc]
      exact hs
  | some call =>
      obtain ⟨hacc, hclr, hbal⟩ := proceed_balance call s.module s.books
      have hunder : underWay (step s (.go cpu)) + inHand (some call) =
          underWay s + inHand ((proceed call s.module).1.map (⟨call.pkt, ·⟩)) := by
        rw [go_call s cpu hc, ← hc]
        exact sum_update inHand s.calls cpu _
      rw [go_call s cpu hc] at hunder ⊢
      rw [Balanced] at hs ⊢
      dsimp only at hunder ⊢
      omega

theorem step_balanced (s : Machine n) (act : Act n) (hs : Balanced s) : Balanced (step s act) := by
  cases act with
  | arrive cpu now pkt => exact balanced_arrive hs cpu now pkt
  | go cpu => exact balanced_go hs cpu
  | reader off ok => exact balanced_reader hs off ok

theorem step_doubled {s : Machine n} (hs : Safe s) (act : Act n) :
    (step s act).books.doubled = s.books.doubled := by
  cases act with
  | arrive cpu now pkt =>
      rcases arrive_cases s cpu now pkt with he | ⟨_, _, he⟩
      · rw [he]
      · rw [he]
        rfl
  | reader off ok =>
      change (s.books.readerStep s.reader s.module.status).doubled = s.books.doubled
      rw [Books.readerStep]
      split
      · split <;> rfl
      · rfl
  | go cpu =>
      cases hc : s.calls cpu with
      | none => rw [go_idle s cpu hc]
      | some call =>
          rw [go_call s cpu hc]
          change (s.books.proceed call.phase s.module.status).doubled = s.books.doubled
          have hfree : ∀ i, call.phase = .claiming i → s.module.status i = false :=
            fun i hi => hs cpu i ⟨call, hc, by rw [hi]; rfl⟩
          cases hphase : call.phase with
          | looking more i =>
              rw [Books.proceed]
              split <;> rfl
          | copying i => rfl
          | claiming i =>
              rw [Books.proceed, hfree i hphase]
              rfl
          | advancing i => rfl

section Run

variable {s : Machine n} (acts : List (Act n))

theorem run_safe (hs : Safe s)
    (h : ∀ past cpu rest, acts = past ++ .go cpu :: rest → ¬ Contended (run step s past) cpu)
    (past rest : List (Act n)) (hacts : acts = past ++ rest) : Safe (run step s past) := by
  induction past using List.reverseRecOn generalizing rest with
  | nil => exact hs
  | append_singleton past act ih =>
      rw [List.append_assoc, List.singleton_append] at hacts
      rw [run_snoc]
      apply step_safe (ih (act :: rest) hacts)
      rintro cpu rfl
      exact h past cpu rest hacts

theorem run_doubled (h : ∀ past rest, acts = past ++ rest → Safe (run step s past))
    (past rest : List (Act n)) (hacts : acts = past ++ rest) :
    (run step s past).books.doubled = s.books.doubled := by
  induction past using List.reverseRecOn generalizing rest with
  | nil => rfl
  | append_singleton past act ih =>
      rw [List.append_assoc, List.singleton_append] at hacts
      rw [run_snoc, step_doubled (h past (act :: rest) hacts), ih (act :: rest) hacts]

end Run

def storeAt (pkt : Skb) (found : Option Slot) (m : Module) : Module :=
  match found with
  | some i =>
      { m with
        buffFromHere := memcpy m.buffFromHere (i.val * pktBufferSize)
          (fun b => pkt.data (28 + b)) pkt.copyLen
        status := Function.update m.status i true
        currentIndex := shift i 1 }
  | none => { m with countPktOverflow := m.countPktOverflow + 1 }

theorem writeCache_eq (pkt : Skb) (m : Module) : writeCache pkt m = storeAt pkt m.freeSlot m := rfl

/-- The calls of one processor alone bring the machine to what the handler makes of
the module, with the others as they were. -/
def Returns (cpu : Fin n) (s : Machine n) (m : Module) : Prop :=
  ∃ k, (run step s (List.replicate k (.go cpu))).module = m ∧
    (run step s (List.replicate k (.go cpu))).calls = Function.update s.calls cpu none ∧
    (run step s (List.replicate k (.go cpu))).reader = s.reader

theorem found_returns {cpu : Fin n} {pkt : Skb} {more : Nat} {i : Slot} {s : Machine n}
    (h : s.calls cpu = some ⟨pkt, .looking more i⟩) (hi : s.module.status i = false) :
    Returns cpu s (storeAt pkt (findSlot s.module.status (more + 1) i) s.module) := by
  refine ⟨4, ?_⟩
  simp [List.replicate, step, h, proceed, hi, findSlot, storeAt]

theorem looking_returns (cpu : Fin n) (pkt : Skb) (more : Nat) (i : Slot) (s : Machine n)
    (h : s.calls cpu = some ⟨pkt, .looking more i⟩) :
    Returns cpu s (storeAt pkt (findSlot s.module.status (more + 1) i) s.module) := by
  induction more generalizing i s with
  | zero =>
      cases hi : s.module.status i with
      | false => exact found_returns h hi
      | true =>
          refine ⟨1, ?_⟩
          simp [step, h, proceed, hi, findSlot, storeAt]
  | succ more ih =>
      cases hi : s.module.status i with
      | false => exact found_returns h hi
      | true =>
          have hnext : (proceed ⟨pkt, .looking (more + 1) i⟩ s.module) =
              (some (.looking more (shift i 1)), s.module) := by
            simp [proceed, hi]
          have hfind : findSlot s.module.status (more + 1 + 1) i =
              findSlot s.module.status (more + 1) (shift i 1) := by
            rw [findSlot, if_neg (by simp [hi])]
          have hstep := go_call s cpu h
          rw [hnext] at hstep
          obtain ⟨k, hm, hcalls, hr⟩ := ih (shift i 1) (step s (.go cpu))
            (by rw [hstep]; exact Function.update_self _ _ _)
          refine ⟨k + 1, ?_⟩
          rw [List.replicate_succ, run_cons, hm, hcalls, hr, hfind, hstep]
          exact ⟨rfl, Function.update_idem _ _ _, rfl⟩

/-- A frame that arrives and whose call nothing comes between is handled in one piece. -/
def Handles (cpu : Fin n) (now : Nat) (pkt : Skb) (s : Machine n) : Prop :=
  ∃ k, (run step s (.arrive cpu now pkt :: List.replicate k (.go cpu))).module =
      rxhPacketIn now pkt s.module ∧
    (run step s (.arrive cpu now pkt :: List.replicate k (.go cpu))).calls = s.calls ∧
    (run step s (.arrive cpu now pkt :: List.replicate k (.go cpu))).reader = s.reader

theorem uninterrupted_call {s : Machine n} {cpu : Fin n} (hidle : s.calls cpu = none) (now : Nat) {pkt : Skb}
    (hp : pkt.passesFilter = true) : Handles cpu now pkt s := by
  have harr : step s (.arrive cpu now pkt) = begin now pkt cpu s := by
    rw [step, hidle]
    exact if_pos hp
  have hcall : (begin now pkt cpu s).calls cpu =
      some ⟨pkt, .looking (kmFindBuffSlotMaxTry - 1) s.module.currentIndex⟩ := by
    rw [begin_calls, Function.update_self]
  obtain ⟨k, hm, hcalls, hr⟩ := looking_returns cpu pkt _ _ (begin now pkt cpu s) hcall
  have hfree : findSlot (writeLog now pkt s.module).status (kmFindBuffSlotMaxTry - 1 + 1)
      s.module.currentIndex = (writeLog now pkt s.module).freeSlot := by
    rw [Module.freeSlot]
    simp only [writeLog, kmFindBuffSlotMaxTry]
  refine ⟨k, ?_⟩
  rw [run_cons, harr, hm, hcalls, hr, begin_module, begin_reader, begin_calls, Function.update_idem,
    rxhPacketIn, if_pos hp, writeCache_eq, hfree]
  exact ⟨rfl, by rw [← hidle, Function.update_eq_self], rfl⟩

theorem start_safe (n : Nat) (log : Log) (outside : Mem) : Safe (start n log outside) := by
  rintro cpu i ⟨call, hc, _⟩
  cases hc

theorem start_balanced (n : Nat) (log : Log) (outside : Mem) : Balanced (start n log outside) := by
  have hocc : occupiedSlots (loaded log outside) = 0 := by
    rw [occupiedSlots]
    apply Finset.sum_eq_zero
    intro i _
    rw [loaded]
    rfl
  have hunder : underWay (start n log outside) = 0 := by
    rw [underWay]
    apply Finset.sum_eq_zero
    intro cpu _
    rfl
  rw [Balanced, hunder, start, hocc]
  rfl

/-- Calls of the handler on any number of processors, cut into their accesses to the
module's data and interleaved with each other and with the reader: no call is ever
about to write to an occupied slot exactly if no processor claims a slot that another
has found free too, which one processor alone never does. In every run the accepted
frames found no slot, were cleaned up after a read, are in an occupied slot or under
way, or claimed a slot that was claimed already. From every state reached, a call that
nothing comes between does what the handler is modelled to do. -/
theorem concurrent_handlers (n : Nat) (log : Log) (outside : Mem) (acts : List (Act n)) :
    ((∀ past rest, acts = past ++ rest → Safe (run step (start n log outside) past)) ↔
      ∀ past cpu rest, acts = past ++ .go cpu :: rest →
        ¬ Contended (run step (start n log outside) past) cpu) ∧
    (n ≤ 1 → ∀ past rest, acts = past ++ rest → Safe (run step (start n log outside) past)) ∧
    Balanced (run step (start n log outside) acts) ∧
    ((∀ past rest, acts = past ++ rest → Safe (run step (start n log outside) past)) →
      (run step (start n log outside) acts).books.doubled = 0) ∧
    ∀ cpu now pkt, (run step (start n log outside) acts).calls cpu = none → pkt.passesFilter = true →
      Handles cpu now pkt (run step (start n log outside) acts) := by
  have hs := start_safe n log outside
  refine ⟨⟨?_, run_safe acts hs⟩, ?_, ?_, ?_, ?_⟩
  · intro h past cpu rest hacts hc
    apply not_safe_of_contended hc
    rw [← run_snoc step (start n log outside) past (.go cpu)]
    exact h _ rest (by rw [hacts, List.append_assoc, List.singleton_append])
  · intro hn
    apply run_safe acts hs
    rintro past cpu rest - ⟨_, _, _, _, other, hne, _⟩
    exact hne (Fin.ext (by omega))
  · exact @run_invariant (Machine n) (Act n) step Balanced _ (start_balanced n log outside) step_balanced acts
  · intro h
    exact run_doubled acts h acts [] (List.append_nil acts).symm
  · intro cpu now pkt hidle hp
    exact uninterrupted_call hidle now hp

/-- Two processors that look for a slot at the same time lose a packet. -/
theorem overlapping_calls_double (log : Log) (outside : Mem) (now now' : Nat) {p q : Skb}
    (hp : p.passesFilter = true) (hq : q.passesFilter = true) :
    (run step (start 2 log outside) [.arrive 0 now p, .arrive 1 now' q, .go 0, .go 1, .go 0, .go 1,
      .go 0, .go 1]).books.doubled = 1 := by
  simp [step, start, begin, proceed, Books.proceed, hp, hq, loaded, writeLog]

end PacketIntercept.ConcurrentHandlers
