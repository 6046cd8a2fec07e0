import PacketIntercept.EbpfPipeline
import PacketIntercept.Server
import PacketIntercept.UserProcessing

namespace PacketIntercept.UnrecordedUids

open ByteMemory Common LogBuffs Runs RxHandler

/-- The log that the writes, oldest first, make of the memory the program got. -/
def Recorded (memory : Log) (writes : List (Nat × Nat)) (final : Log) : Prop :=
  ∀ k, entry shipped final k =
    ((lastWith Prod.fst k writes).map Prod.snd).getD (entry shipped memory k)

def zeroed (log : Log) : Nat := (exportLog shipped log).countP (· == 0)

/-- The log entries rxhPacketIn makes while the module runs. -/
def kmWrites (acts : List HandOver.Act) : List (Nat × Nat) :=
  acts.filterMap fun
    | .packet now pkt =>
        if pkt.passesFilter && decide (pkt.uid < maxLogEntry) then some (pkt.uid, now) else none
    | .reader _ _ => none

def upWrites (trace : List UserProcessing.Mark) : List (Nat × Nat) :=
  trace.filterMap fun
    | .km _ _ => none
    | .up k t => some (k, t)

/-- A run of one of the programs that keep log_buffs, from the moment it has
the memory for them. -/
inductive Execution
  | kernelModule (memory : Log) (outside : Mem) (acts : List HandOver.Act)
  | userProcessing (kmMemory memory : Log) (outside : Mem) (events : List UserProcessing.Event)
  | server (memory : Log) (outcomes : List Server.Outcome)
  | ebpfMeasureUser (memory : Log) (events : List EbpfMeasure.Event)

namespace Execution

def memory : Execution → Log
  | kernelModule memory _ _ => memory
  | userProcessing _ memory _ _ => memory
  | server memory _ => memory
  | ebpfMeasureUser memory _ => memory

def final : Execution → Log
  | kernelModule memory outside acts =>
      (run HandOver.step (HandOver.start memory outside) acts).cache.module.logBuffs
  | userProcessing kmMemory memory outside events =>
      (run UserProcessing.step (UserProcessing.start kmMemory memory outside) events).log
  | server memory outcomes => (run Server.step (Server.start memory) outcomes).log
  | ebpfMeasureUser memory events => (run EbpfMeasure.step (EbpfMeasure.started memory) events).log

def writes : Execution → List (Nat × Nat)
  | kernelModule _ _ acts => kmWrites acts
  | userProcessing kmMemory memory outside events =>
      upWrites (run UserProcessing.step (UserProcessing.start kmMemory memory outside) events).trace
  | server memory outcomes => (run Server.step (Server.start memory) outcomes).writes
  | ebpfMeasureUser memory events =>
      EbpfPipeline.logWrites (run EbpfMeasure.step (EbpfMeasure.started memory) events).trace

def unrecorded (e : Execution) : List Nat :=
  (List.range maxLogEntry).filter fun k => e.writes.all fun w => w.1 != k

/-- The memory was zero wherever the run leaves it as it is. -/
def CleanMemory (e : Execution) : Prop := ∀ k ∈ e.unrecorded, entry shipped e.memory k = 0

end Execution

theorem recorded_nil (memory : Log) : Recorded memory [] memory := fun _ => rfl

theorem recorded_record {memory final : Log} {writes : List (Nat × Nat)} {u : Nat}
    (h : Recorded memory writes final) (hu : u < maxLogEntry) (now : Nat) :
    Recorded memory (writes ++ [(u, now)]) (record shipped u now final) := by
  intro k
  rw [maxLogEntry] at hu
  rw [entry_record, lastWith_snoc]
  by_cases hk : u = k
  · rw [if_pos ⟨hk, hu⟩, if_pos hk]
    rfl
  · rw [if_neg (fun he => hk he.1), if_neg hk]
    exact h k

theorem record_of_ge {u : Nat} (hu : ¬ u < maxLogEntry) (now : Nat) (log : Log) :
    record shipped u now log = log := by
  rw [maxLogEntry] at hu
  rw [record, if_neg hu]

theorem recorded_kernelModule (memory : Log) (outside : Mem) (acts : List HandOver.Act) :
    Recorded memory (kmWrites acts)
      (run HandOver.step (HandOver.start memory outside) acts).cache.module.logBuffs := by
  induction acts using List.reverseRecOn with
  | nil => exact recorded_nil memory
  | append_singleton past act ih =>
      rw [run_snoc, kmWrites, List.filterMap_append, ← kmWrites]
      cases act with
      | reader off ok =>
          simp only [HandOver.step, ReadProc.readerStep_logBuffs, List.filterMap_cons,
            List.filterMap_nil, List.append_nil]
          exact ih
      | packet now pkt =>
          simp only [HandOver.step, TrackedCache.arrive_module, rxhPacketIn_logBuffs]
          by_cases hp : pkt.passesFilter = true
          · by_cases hu : pkt.uid < maxLogEntry
            · simpa [hp, hu] using recorded_record ih hu now
            · simpa [hp, hu, record_of_ge hu] using ih
          · simpa [hp] using ih

theorem upWrites_km (trace : List UserProcessing.Mark) (pkt : Skb) (now : Nat) :
    upWrites (trace ++ UserProcessing.kmMarks pkt now) = upWrites trace := by
  rw [upWrites, List.filterMap_append, UserProcessing.kmMarks, ← upWrites]
  split <;> simp

theorem recorded_decodeStep {memory : Log} {s : UserProcessing.State} (i : Nat)
    (h : Recorded memory (upWrites s.trace) s.log) :
    Recorded memory (upWrites (UserProcessing.decodeStep i s).trace)
      (UserProcessing.decodeStep i s).log := by
  rw [UserProcessing.decodeStep]
  rcases UserProcessing.decodeRecord_cases s.buffRead i s.clock s.log with hd | ⟨_, hu, hd⟩
  · simpa [hd] using h
  · simp only [hd, Option.map_some, Option.toList_some, upWrites, List.filterMap_append]
    exact recorded_record h hu s.clock

theorem recorded_userStep {memory : Log} (s : UserProcessing.State) (e : UserProcessing.Event)
    (h : Recorded memory (upWrites s.trace) s.log) :
    Recorded memory (upWrites (UserProcessing.step s e).trace) (UserProcessing.step s e).log := by
  cases e with
  | tick d => exact h
  | packet pkt =>
      rw [UserProcessing.step, upWrites_km]
      exact h
  | user ok =>
      rw [UserProcessing.step]
      split
      · exact h
      · exact h
      · exact recorded_decodeStep _ h

theorem recorded_serverStep {memory : Log} (s : Server.State) (o : Server.Outcome)
    (h : Recorded memory s.writes s.log) :
    Recorded memory (Server.step s o).writes (Server.step s o).log := by
  rw [Server.step]
  split
  · exact h
  · rw [Server.iteration]
    by_cases hu : Server.bufferUid o < maxLogEntry
    · simp only [hu, if_true]
      exact recorded_record h hu o.now
    · simp only [hu, if_false, record_of_ge hu]
      exact h

theorem recorded_ebpfStep {memory : Log} (s : EbpfMeasure.State) (e : EbpfMeasure.Event)
    (h : Recorded memory (EbpfPipeline.logWrites s.trace) s.log) :
    Recorded memory (EbpfPipeline.logWrites (EbpfMeasure.step s e).trace)
      (EbpfMeasure.step s e).log := by
  cases e with
  | tick d => exact h
  | frame f q cpu =>
      rw [EbpfMeasure.step, EbpfMeasure.arrive, EbpfPipeline.logWrites_arrived]
      exact h
  | poll =>
      rw [EbpfMeasure.step, EbpfMeasure.iterate]
      rcases EbpfMeasure.fetch_cases s.maps s.nextUid s.clock s.log with hf | ⟨k, _, _, hu, hf⟩
      · simpa [hf] using h
      · simp only [hf, Option.map_some, Option.toList_some, EbpfPipeline.logWrites_logged]
        exact recorded_record h hu s.clock

/-- Whatever a program's log holds in the end was written in the run or has
been in the memory from the start. -/
theorem recorded (e : Execution) : Recorded e.memory e.writes e.final := by
  cases e with
  | kernelModule memory outside acts => exact recorded_kernelModule memory outside acts
  | userProcessing kmMemory memory outside events =>
      exact @run_invariant _ _ UserProcessing.step (fun s => Recorded memory (upWrites s.trace) s.log)
        (UserProcessing.start kmMemory memory outside) (recorded_nil memory) recorded_userStep events
  | server memory outcomes =>
      exact @run_invariant _ _ Server.step (fun s => Recorded memory s.writes s.log)
        (Server.start memory) (recorded_nil memory) recorded_serverStep outcomes
  | ebpfMeasureUser memory events =>
      exact @run_invariant _ _ EbpfMeasure.step
        (fun s => Recorded memory (EbpfPipeline.logWrites s.trace) s.log)
        (EbpfMeasure.started memory) (recorded_nil memory) recorded_ebpfStep events

theorem mem_unrecorded (e : Execution) (k : Nat) :
    k ∈ e.unrecorded ↔ k < maxLogEntry ∧ ∀ w ∈ e.writes, w.1 ≠ k := by
  simp [Execution.unrecorded]

theorem entry_final_of_unrecorded {e : Execution} {k : Nat} (h : k ∈ e.unrecorded) :
    entry shipped e.final k = entry shipped e.memory k := by
  have hnone := lastWith_eq_none.mpr ((mem_unrecorded e k).mp h).2
  rw [recorded e k, hnone]
  rfl

theorem entry_final_ne_zero {e : Execution} (hw : ∀ w ∈ e.writes, w.2 ≠ 0) {k : Nat}
    (hk : k < maxLogEntry) (h : k ∉ e.unrecorded) : entry shipped e.final k ≠ 0 := by
  rw [recorded e k]
  cases hl : lastWith Prod.fst k e.writes with
  | none => exact absurd ((mem_unrecorded e k).mpr ⟨hk, lastWith_eq_none.mp hl⟩) h
  | some w => exact hw w (lastWith_some hl).1

theorem zeroed_eq {e : Execution} (hw : ∀ w ∈ e.writes, w.2 ≠ 0) :
    zeroed e.final = (e.unrecorded.filter fun k => entry shipped e.memory k == 0).length := by
  rw [zeroed, exportLog, List.countP_map, List.countP_eq_length_filter, Execution.unrecorded,
    List.filter_filter, ← maxLogEntry]
  apply congrArg List.length
  apply List.filter_congr
  intro k hk
  rw [Function.comp_apply, Bool.eq_iff_iff]
  by_cases hu : k ∈ e.unrecorded
  · have hall := hu
    rw [Execution.unrecorded, List.mem_filter] at hall
    rw [entry_final_of_unrecorded hu, hall.2, Bool.and_true]
  · have hne := entry_final_ne_zero hw (List.mem_range.mp hk) hu
    have hall : (e.writes.all fun w => w.1 != k) ≠ true := by
      intro hall
      exact hu (List.mem_filter.mpr ⟨hk, hall⟩)
    simp [hne, hall]

/-- An unrecorded uid is exported as zero, and the count of zeros is the number
of these uids, exactly if the program happened to get memory that was zero. -/
theorem unrecorded_zero_iff (e : Execution) :
    ((∀ k ∈ e.unrecorded, (exportLog shipped e.final)[k]? = some 0) ↔ e.CleanMemory) ∧
      ((∀ w ∈ e.writes, w.2 ≠ 0) → (zeroed e.final = e.unrecorded.length ↔ e.CleanMemory)) := by
  constructor
  · apply forall₂_congr
    intro k hk
    have hlt := ((mem_unrecorded e k).mp hk).1
    rw [maxLogEntry] at hlt
    rw [exportLog_getElem? shipped _ hlt, entry_final_of_unrecorded hk, Option.some.injEq]
  · intro hw
    rw [zeroed_eq hw, List.length_filter_eq_length_iff]
    simp [Execution.CleanMemory]

def idleServer : Execution := .server (fun _ _ => 41) []

theorem stale_memory_exported :
    ¬ ((∀ k ∈ idleServer.unrecorded, (exportLog shipped idleServer.final)[k]? = some 0) ∧
      zeroed idleServer.final = idleServer.unrecorded.length) := by
  rintro ⟨h, _⟩
  have h0 := h 0 ((mem_unrecorded idleServer 0).mpr ⟨by decide, fun _ hw => nomatch hw⟩)
  rw [exportLog_getElem? shipped _ (by decide), Option.some.injEq] at h0
  exact absurd h0 (by decide)

end PacketIntercept.UnrecordedUids
