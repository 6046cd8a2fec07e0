import PacketIntercept.CheckedLoads
import PacketIntercept.LogBuffs
import PacketIntercept.Runs

namespace PacketIntercept.Server

open ByteMemory CheckedLoads Common LogBuffs Runs

def maxline : Nat := 1024

inductive Received
  | error
  | datagram (d : List UInt8)

/-- How a call of recvfrom ended and the time read after it. -/
structure Outcome where
  received : Received
  now : Nat

/-- The buffer after bzero and recvfrom: what does not fit is cut off, and what
the datagram does not fill stays zero. -/
def buffer : Received → Mem
  | .error => fun _ => 0
  | .datagram d => bytes (d.take maxline)

structure State where
  log : Log
  stopped : Bool
  writes : List (Nat × Nat)

def bufferUid (o : Outcome) : Nat := uid (buffer o.received) 0

def iteration (s : State) (o : Outcome) : State where
  log := record shipped (bufferUid o) o.now s.log
  stopped := bufferUid o == maxLogEntry - 1
  writes := if bufferUid o < maxLogEntry then s.writes ++ [(bufferUid o, o.now)] else s.writes

def step (s : State) (o : Outcome) : State := if s.stopped then s else iteration s o

def start (log : Log) : State := ⟨log, false, []⟩

/-- The outcomes the loop gets to see: it breaks after the last uid. -/
def handled : List Outcome → List Outcome
  | [] => []
  | o :: os => if bufferUid o = maxLogEntry - 1 then [o] else o :: handled os

def receivedUid (o : Outcome) : Option Nat :=
  match o.received with
  | .error => none
  | .datagram d => if 16 ≤ d.length then some (uid (bytes d) 0) else none

structure OnlyReceived (s : State) (o : Outcome) : Prop where
  changes : ∀ k, entry shipped (step s o).log k ≠ entry shipped s.log k →
    receivedUid o = some k ∧ k < maxLogEntry
  ignores : receivedUid o = none → (step s o).log = s.log

/-- The uid the loop finds in its buffer was received, or is none it logs. -/
def Harmless (o : Outcome) : Prop := receivedUid o ≠ none ∨ maxLogEntry ≤ bufferUid o

theorem bufferUid_of_received {o : Outcome} {u : Nat} (h : receivedUid o = some u) :
    bufferUid o = u := by
  rw [receivedUid] at h
  split at h
  next => cases h
  next d hd =>
    split at h
    next hl =>
      rw [Option.some.injEq] at h
      rw [← h, bufferUid, hd]
      apply leNat_congr
      intro i hi
      have hbyte := bytes_slice d 0 maxline (0 + 8 + i) (by rw [maxline]; omega)
      rwa [List.drop_zero, Nat.zero_add (0 + 8 + i)] at hbyte
    next => cases h

theorem harmless_cases {o : Outcome} (h : Harmless o) :
    receivedUid o = some (bufferUid o) ∨ (receivedUid o = none ∧ maxLogEntry ≤ bufferUid o) := by
  cases hr : receivedUid o with
  | some u => exact .inl (by rw [bufferUid_of_received hr])
  | none => exact .inr ⟨rfl, h.resolve_left (fun hne => hne hr)⟩

theorem step_of_stopped {s : State} (h : s.stopped = true) (o : Outcome) : step s o = s := if_pos h

theorem step_of_running {s : State} (h : s.stopped = false) (o : Outcome) :
    step s o = iteration s o := if_neg (by rw [h]; exact Bool.false_ne_true)

theorem entry_iteration (s : State) (o : Outcome) (k : Nat) :
    entry shipped (iteration s o).log k =
      if bufferUid o = k ∧ bufferUid o < maxLogEntry then o.now else entry shipped s.log k := by
  rw [iteration, entry_record, maxLogEntry]

theorem onlyReceived_of_stopped {s : State} (h : s.stopped = true) (o : Outcome) :
    OnlyReceived s o := by
  have hstep := step_of_stopped h o
  exact ⟨fun k hne => absurd (by rw [hstep]) hne, fun _ => by rw [hstep]⟩

theorem onlyReceived_of_harmless {o : Outcome} (h : Harmless o) (s : State) : OnlyReceived s o := by
  cases hs : s.stopped with
  | true => exact onlyReceived_of_stopped hs o
  | false =>
      have hstep := step_of_running hs o
      constructor
      · intro k hne
        rw [hstep, entry_iteration] at hne
        split at hne
        next hk =>
          rcases harmless_cases h with hr | ⟨_, hge⟩
          · exact ⟨hr.trans (congrArg some hk.1), hk.1 ▸ hk.2⟩
          · exact absurd hk.2 (Nat.not_lt.mpr hge)
        next => exact absurd rfl hne
      · intro hnone
        rcases harmless_cases h with hr | ⟨_, hge⟩
        · rw [hnone] at hr
          cases hr
        · rw [maxLogEntry, ← Nat.not_lt] at hge
          rw [hstep, iteration, record, if_neg hge]

theorem harmless_of_onlyReceived {o : Outcome} (h : ∀ log, OnlyReceived (start log) o) :
    Harmless o := by
  by_contra hharm
  rw [Harmless, not_or, not_not, Nat.not_le] at hharm
  have hne : entry shipped (step (start fun _ _ => o.now + 1) o).log (bufferUid o) ≠
      entry shipped (start fun _ _ => o.now + 1).log (bufferUid o) := by
    rw [step_of_running rfl, entry_iteration, if_pos ⟨rfl, hharm.2⟩]
    exact Nat.ne_of_lt (Nat.lt_succ_self _)
  have hr := ((h _).changes _ hne).1
  rw [hharm.1] at hr
  cases hr

theorem run_of_stopped {s : State} (h : s.stopped = true) (os : List Outcome) :
    run step s os = s := by
  induction os with
  | nil => rfl
  | cons o os ih => rw [run_cons, step_of_stopped h, ih]

theorem along_onlyReceived {s : State} (os : List Outcome)
    (h : s.stopped = false → ∀ o ∈ handled os, Harmless o) : Along step OnlyReceived s os := by
  induction os generalizing s with
  | nil => trivial
  | cons o os ih =>
      cases hs : s.stopped with
      | true =>
          refine ⟨onlyReceived_of_stopped hs o, ?_⟩
          rw [step_of_stopped hs]
          exact ih (fun hf => absurd hs (by rw [hf]; exact Bool.false_ne_true))
      | false =>
          have hall := h hs
          rw [handled] at hall
          split at hall
          next hlast =>
            refine ⟨onlyReceived_of_harmless (hall o (by simp)) s, ih (fun hf => ?_)⟩
            rw [step_of_running hs, iteration] at hf
            simp [hlast] at hf
          next =>
            refine ⟨onlyReceived_of_harmless (hall o (by simp)) s, ih (fun _ o' ho' => ?_)⟩
            exact hall o' (by simp [ho'])

theorem entry_harmless {o : Outcome} (h : Harmless o) (s : State) {k : Nat} (hk : k < maxLogEntry) :
    entry shipped (iteration s o).log k =
      if receivedUid o = some k then o.now else entry shipped s.log k := by
  have hiff : bufferUid o = k ∧ bufferUid o < maxLogEntry ↔ receivedUid o = some k := by
    rcases harmless_cases h with hr | ⟨hr, hge⟩
    · rw [hr, Option.some.injEq]
      exact ⟨fun he => he.1, fun he => ⟨he, he ▸ hk⟩⟩
    · rw [hr]
      exact ⟨fun he => absurd he.2 (Nat.not_lt.mpr hge), fun he => by cases he⟩
  rw [entry_iteration]
  simp only [hiff]

theorem entry_run {s : State} (hs : s.stopped = false) (os : List Outcome)
    (h : ∀ o ∈ handled os, Harmless o) {k : Nat} (hk : k < maxLogEntry) :
    entry shipped (run step s os).log k =
      ((lastWith receivedUid (some k) (handled os)).map Outcome.now).getD (entry shipped s.log k) := by
  induction os generalizing s with
  | nil => rfl
  | cons o os ih =>
      rw [run_cons, step_of_running hs]
      by_cases hlast : bufferUid o = maxLogEntry - 1
      · have hh : handled (o :: os) = [o] := by rw [handled, if_pos hlast]
        rw [hh] at h ⊢
        have hstop : (iteration s o).stopped = true := by simp [iteration, hlast]
        rw [run_of_stopped hstop, entry_harmless (h o (by simp)) s hk, lastWith_cons]
        by_cases hr : receivedUid o = some k <;> simp [hr, lastWith]
      · have hh : handled (o :: os) = o :: handled os := by rw [handled, if_neg hlast]
        rw [hh] at h ⊢
        have hrun : (iteration s o).stopped = false := by simp [iteration, hlast]
        rw [ih hrun (fun o' ho' => h o' (by simp [ho'])), entry_harmless (h o (by simp)) s hk,
          lastWith_cons]
        cases hl : lastWith receivedUid (some k) (handled os) with
        | some last => simp
        | none => by_cases hr : receivedUid o = some k <;> simp [hr]

/-- As long as every outcome is harmless the log holds what was received: each
iteration changes at most the entry of its datagram, and in the end an entry
has the time of the last datagram with its uid. -/
theorem server_logs_received (log : Log) (os : List Outcome) (h : ∀ o ∈ handled os, Harmless o) :
    Along step OnlyReceived (start log) os ∧
      ∀ k, k < maxLogEntry → entry shipped (run step (start log) os).log k =
        ((lastWith receivedUid (some k) (handled os)).map Outcome.now).getD (entry shipped log k) :=
  ⟨along_onlyReceived os (fun _ => h), fun _ hk => entry_run rfl os h hk⟩

/-- The beginning of a payload with a small uid. -/
def header (uid : Nat) : List UInt8 :=
  List.replicate 8 0 ++ [UInt8.ofNat uid, UInt8.ofNat (uid / 256)] ++ List.replicate 6 0

def fourOutcomes : List Outcome :=
  [⟨.datagram (header 3), 7⟩, ⟨.datagram (header 300), 8⟩, ⟨.datagram (header 3), 9⟩,
    ⟨.datagram (header (maxLogEntry - 1)), 11⟩]

/-- A datagram that comes twice, and the last one. -/
theorem server_logs_client :
    Along step OnlyReceived (start fun _ _ => 0) (fourOutcomes ++ [⟨.error, 12⟩]) ∧
      entry shipped (run step (start fun _ _ => 0) (fourOutcomes ++ [⟨.error, 12⟩])).log 3 = 9 := by
  have hh : handled (fourOutcomes ++ [⟨.error, 12⟩]) = fourOutcomes := rfl
  have hharm : ∀ o ∈ handled (fourOutcomes ++ [⟨.error, 12⟩]), Harmless o := by
    rw [hh]
    intro o ho
    left
    revert o
    decide
  have hlogged := server_logs_received (fun _ _ => 0) (fourOutcomes ++ [⟨.error, 12⟩]) hharm
  refine ⟨hlogged.1, (hlogged.2 3 (by decide)).trans ?_⟩
  rw [hh]
  decide

/-- A failed recvfrom is logged as an arrival of uid 0. -/
theorem failed_recvfrom_logged :
    ¬ ∀ (log : Log) (os : List Outcome), Along step OnlyReceived (start log) os := by
  intro hall
  have h := (hall (fun _ _ => 0) [⟨.error, 7⟩]).1
  have hne : entry shipped (step (start fun _ _ => 0) ⟨.error, 7⟩).log 0 ≠
      entry shipped (start fun _ _ => 0).log 0 := by
    have h0 : bufferUid ⟨.error, 7⟩ = 0 := leNat_zero 8 (fun _ _ => rfl)
    rw [step_of_running rfl, entry_iteration, h0, if_pos ⟨rfl, by decide⟩]
    decide
  exact absurd (h.changes 0 hne).1 (by decide)

end PacketIntercept.Server
