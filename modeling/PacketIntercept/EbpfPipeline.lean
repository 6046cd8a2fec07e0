import PacketIntercept.EbpfMeasure
import PacketIntercept.Runs

namespace PacketIntercept.EbpfPipeline

open Common CheckedLoads ArrayMaps XdpSockProg FrameGrammar LogBuffs EbpfMeasure Runs

def logWrites (trace : List Mark) : List (Nat × Nat) :=
  trace.filterMap fun
    | .arrived _ => none
    | .logged k t => some (k, t)

/-- A log entry for k is only made after a frame with uid k has come. -/
def CausedBy (past : List Mark) : Mark → Prop
  | .arrived _ => True
  | .logged k t => ∃ ctx, .arrived ctx ∈ past ∧ Accepts ctx.frame ∧ frameUid ctx.frame = k ∧
      ctx.now ≤ t

structure PipelineInv (log : Log) (s : State) : Prop where
  stored : ∀ k, StoredBy s.trace k.val (s.maps.pktPayload k)
  arrived_le : ∀ ctx, .arrived ctx ∈ s.trace → ctx.now ≤ s.clock
  next_le : s.nextUid.toNat ≤ maxLogEntry
  order : (logWrites s.trace).map Prod.fst = List.range s.nextUid.toNat
  times : (logWrites s.trace).Pairwise fun a b => a.2 ≤ b.2
  times_le : ∀ p ∈ logWrites s.trace, p.2 ≤ s.clock
  entries : ∀ p ∈ logWrites s.trace, entry shipped s.log p.1 = p.2
  untouched : ∀ k, s.nextUid.toNat ≤ k → entry shipped s.log k = entry shipped log k
  causes : Lawful CausedBy s.trace

theorem logWrites_arrived (trace : List Mark) (ctx : XdpMd) :
    logWrites (trace ++ [.arrived ctx]) = logWrites trace := by
  simp [logWrites]

theorem logWrites_logged (trace : List Mark) (k t : Nat) :
    logWrites (trace ++ [.logged k t]) = logWrites trace ++ [(k, t)] := by
  simp [logWrites]

theorem inv_started (log : Log) : PipelineInv log (started log) where
  stored := fun _ => .inl rfl
  arrived_le := by simp [started]
  next_le := Nat.zero_le _
  order := rfl
  times := List.Pairwise.nil
  times_le := by simp [started, logWrites]
  entries := by simp [started, logWrites]
  untouched := fun _ _ => rfl
  causes := lawful_nil

theorem inv_tick {log : Log} {s : State} (h : PipelineInv log s) (d : Nat) :
    PipelineInv log (step s (.tick d)) where
  stored := h.stored
  arrived_le := fun ctx hm => Nat.le_trans (h.arrived_le ctx hm) (Nat.le_add_right _ _)
  next_le := h.next_le
  order := h.order
  times := h.times
  times_le := fun p hp => Nat.le_trans (h.times_le p hp) (Nat.le_add_right _ _)
  entries := h.entries
  untouched := h.untouched
  causes := h.causes

theorem inv_arrive {log : Log} {s : State} {ctx : XdpMd} (h : PipelineInv log s)
    (hnow : ctx.now = s.clock) : PipelineInv log (arrive s ctx) := by
  have hw := logWrites_arrived s.trace ctx
  refine ⟨storedBy_stepXdp ctx h.stored, ?_, h.next_le, ?_, ?_, ?_, ?_, h.untouched,
    lawful_snoc h.causes trivial⟩
  · intro c hc
    rcases List.mem_append.mp hc with hc | hc
    · exact h.arrived_le c hc
    · obtain rfl := Mark.arrived.inj (List.mem_singleton.mp hc)
      exact Nat.le_of_eq hnow
  · exact hw ▸ h.order
  · exact hw ▸ h.times
  · exact hw ▸ h.times_le
  · exact hw ▸ h.entries

theorem iterate_cases {log : Log} {s : State} (h : PipelineInv log s) :
    iterate s = s ∨ s.nextUid.toNat < maxLogEntry ∧
      iterate s = { s with
        log := record shipped s.nextUid.toNat s.clock s.log
        nextUid := s.nextUid + 1
        trace := s.trace ++ [.logged s.nextUid.toNat s.clock] } ∧
      (∃ k, k.val = s.nextUid.toNat ∧ HoldsValid s.maps k) ∧
      ∃ ctx, .arrived ctx ∈ s.trace ∧ Accepts ctx.frame ∧ frameUid ctx.frame = s.nextUid.toNat := by
  rcases fetch_of_stored s.nextUid s.clock s.log h.stored with hf | ⟨hlt, hf, hk, hctx⟩
  · left
    simp [iterate, hf]
  · right
    exact ⟨hlt, by simp [iterate, hf], hk, hctx⟩

theorem next_toNat {n : UInt32} (h : n.toNat < maxLogEntry) : (n + 1).toNat = n.toNat + 1 := by
  have hmax := maxLogEntry_eq
  rw [UInt32.toNat_add]
  exact Nat.mod_eq_of_lt (by simp; omega)

theorem inv_iterate {log : Log} {s : State} (h : PipelineInv log s) : PipelineInv log (iterate s) := by
  rcases iterate_cases h with he | ⟨hlt, he, _, ctx, hm, hacc, hu⟩
  · rw [he]
    exact h
  · have hnext := next_toNat hlt
    have hw := logWrites_logged s.trace s.nextUid.toNat s.clock
    have hnew (p : Nat × Nat) (hp : p ∈ logWrites s.trace) : p.1 < s.nextUid.toNat := by
      have := List.mem_map_of_mem (f := Prod.fst) hp
      rw [h.order] at this
      exact List.mem_range.mp this
    rw [he]
    refine ⟨fun k => (h.stored k).mono _, ?_, ?_, ?_, ?_, ?_, ?_, ?_, ?_⟩
    · intro c hc
      rcases List.mem_append.mp hc with hc | hc
      · exact h.arrived_le c hc
      · exact absurd (List.mem_singleton.mp hc) (by simp)
    · simp only [hnext]
      omega
    · simp only [hw, hnext, List.map_append, h.order, List.range_succ, List.map_cons, List.map_nil]
    · rw [hw, List.pairwise_append]
      refine ⟨h.times, List.pairwise_singleton _ _, fun p hp q hq => ?_⟩
      rw [List.mem_singleton.mp hq]
      exact h.times_le p hp
    · rw [hw]
      intro p hp
      rcases List.mem_append.mp hp with hp | hp
      · exact h.times_le p hp
      · rw [List.mem_singleton.mp hp]
    · rw [hw]
      intro p hp
      rw [entry_record]
      rcases List.mem_append.mp hp with hp | hp
      · rw [if_neg (fun hk => absurd (hnew p hp) (by omega))]
        exact h.entries p hp
      · rw [List.mem_singleton.mp hp]
        exact if_pos ⟨rfl, hlt⟩
    · intro k hk
      simp only [hnext] at hk
      rw [entry_record, if_neg (by omega)]
      exact h.untouched k (by omega)
    · exact lawful_snoc h.causes ⟨ctx, hm, hacc, hu, h.arrived_le ctx hm⟩

theorem inv_step {log : Log} (s : State) (e : Event) (h : PipelineInv log s) :
    PipelineInv log (step s e) := by
  cases e with
  | tick d => exact inv_tick h d
  | frame f q cpu => exact inv_arrive h rfl
  | poll => exact inv_iterate h

theorem inv_run (log : Log) (events : List Event) :
    PipelineInv log (run step (started log) events) :=
  run_invariant (inv_started log) (fun s e => inv_step s e) events

theorem logWrites_eq {log : Log} {s : State} (h : PipelineInv log s) :
    logWrites s.trace =
      (List.range s.nextUid.toNat).map fun k => (k, entry shipped s.log k) := by
  have hsame : (logWrites s.trace).map ((fun k => (k, entry shipped s.log k)) ∘ Prod.fst) =
      (logWrites s.trace).map id := by
    apply List.map_congr_left
    intro p hp
    simp [h.entries p hp]
  rw [← h.order, List.map_map, hsame, List.map_id]

theorem entry_mono {log : Log} {s : State} (h : PipelineInv log s) {j k : Nat} (hjk : j ≤ k)
    (hk : k < s.nextUid.toNat) : entry shipped s.log j ≤ entry shipped s.log k := by
  have ht := h.times
  rw [logWrites_eq h, List.pairwise_map] at ht
  rcases Nat.lt_or_eq_of_le hjk with hlt | rfl
  · have := List.pairwise_iff_getElem.mp ht j k (by simp; omega) (by simpa) hlt
    simpa using this
  · exact Nat.le_refl _

theorem fetched_uid {log : Log} {s : State} (h : PipelineInv log s)
    (hret : (fetchAndProcessPacket s.maps s.nextUid s.clock s.log).ret = true) :
    ∃ mapPl, lookup s.maps.pktPayload s.nextUid.toNat = some mapPl ∧
      uid (bytes mapPl) 0 = s.nextUid.toNat := by
  rcases fetch_of_stored s.nextUid s.clock s.log h.stored with hf | ⟨_, _, ⟨k, hk, hv⟩, _⟩
  · rw [hf] at hret
    exact absurd hret Bool.false_ne_true
  · rw [← hk]
    exact ⟨s.maps.pktPayload k, lookup_eq _ k, hv.2⟩

/-- In every interleaving the log is filled in the order of the uids, each entry
once and from a frame with that uid which had already come. -/
theorem ebpf_log_in_order (log : Log) (events : List Event) :
    let s := run step (started log) events
    s.nextUid.toNat ≤ maxLogEntry ∧
    ((fetchAndProcessPacket s.maps s.nextUid s.clock s.log).ret = true →
      ∃ mapPl, lookup s.maps.pktPayload s.nextUid.toNat = some mapPl ∧
        uid (bytes mapPl) 0 = s.nextUid.toNat) ∧
    logWrites s.trace = ((List.range s.nextUid.toNat).map fun k => (k, entry shipped s.log k)) ∧
    (∀ k, s.nextUid.toNat ≤ k → entry shipped s.log k = entry shipped log k) ∧
    (∀ j k, j ≤ k → k < s.nextUid.toNat → entry shipped s.log j ≤ entry shipped s.log k) ∧
    Lawful CausedBy s.trace := by
  have h := inv_run log events
  exact ⟨h.next_le, fetched_uid h, logWrites_eq h, h.untouched, fun _ _ => entry_mono h, h.causes⟩

end PacketIntercept.EbpfPipeline
