import PacketIntercept.EbpfPipeline

namespace PacketIntercept.EbpfCompleteness

open Common CheckedLoads ArrayMaps XdpSockProg FrameGrammar KernelMaps LogBuffs ClientFrame
open EbpfMeasure EbpfPipeline Runs

/-- Every frame is one of the client's, with any of the uids it sends. -/
def IsClientEvent : Event → Prop
  | .frame f _ _ => ∃ k, k ≤ maxLogEntry ∧ IsValidFrame f k
  | _ => True

/-- The next call would return false, and so would all calls until a frame comes. -/
def Stuck (s : State) : Prop :=
  (fetchAndProcessPacket s.maps s.nextUid s.clock s.log).ret = false

def uids (events : List Event) : List Nat :=
  events.filterMap fun
    | .frame f _ _ => some (frameUid f)
    | _ => none

structure Complete (log : Log) (past : List Event) (s : State) : Prop where
  inv : PipelineInv log s
  holds : ∀ k, HoldsValid s.maps k ↔ k.val ∈ uids past
  logged : ∀ j, j < s.nextUid.toNat → j ∈ uids past

theorem complete_started (log : Log) : Complete log [] (started log) := by
  refine ⟨inv_started log, fun k => ⟨fun h => ?_, fun h => ?_⟩, fun j hj => ?_⟩
  · have hc := h.1
    rw [show (started log).maps.pktPayload k = List.replicate sizeofPayload 0 from rfl,
      checkPacket_zero] at hc
    exact absurd hc Bool.false_ne_true
  · exact absurd h List.not_mem_nil
  · exact absurd hj (Nat.not_lt_zero j)

theorem holdsValid_stepXdp {maps : Maps} {ctx : XdpMd} {u : Nat} (hf : IsValidFrame ctx.frame u)
    (hu : u ≤ maxLogEntry) (k : Fin (1 + maxLogEntry)) :
    HoldsValid (stepXdp maps ctx) k ↔ HoldsValid maps k ∨ u = k.val := by
  rw [HoldsValid, HoldsValid, (stepXdp_client maps hf.toIsClientFrame hu k).2]
  by_cases hk : u = k.val
  · rw [if_pos hk, framePayload_uid, hf.uid_eq]
    exact ⟨fun _ => .inr hk, fun _ => ⟨hf.valid, hk⟩⟩
  · rw [if_neg hk]
    simp [hk]

theorem fetch_of_holdsValid {s : State} {k : Fin (1 + maxLogEntry)} (hk : k.val = s.nextUid.toNat)
    (hlt : k.val < maxLogEntry) (h : HoldsValid s.maps k) :
    (fetchAndProcessPacket s.maps s.nextUid s.clock s.log).ret = true := by
  have hl : lookup s.maps.pktPayload s.nextUid.toNat = some (s.maps.pktPayload k) := by
    rw [← hk, lookup_eq]
  have hu : uid (bytes (s.maps.pktPayload k)) 0 < maxLogEntry := by
    rw [h.2]
    exact hlt
  simp [fetchAndProcessPacket, hl, h.1, hu]

theorem complete_frame {log : Log} {past : List Event} {s : State} {f : Frame} {q : UInt32}
    {cpu u : Nat} (hf : IsValidFrame f u) (hu : u ≤ maxLogEntry) (h : Complete log past s) :
    Complete log (past ++ [.frame f q cpu]) (step s (.frame f q cpu)) := by
  have huids : uids (past ++ [.frame f q cpu]) = uids past ++ [u] := by
    simp [uids, hf.uid_eq]
  refine ⟨inv_step s _ h.inv, fun k => ?_, fun j hj => ?_⟩
  · rw [huids, List.mem_append, List.mem_singleton, ← h.holds k, eq_comm (a := k.val)]
    exact holdsValid_stepXdp hf hu k
  · rw [huids]
    exact List.mem_append_left _ (h.logged j hj)

theorem complete_poll {log : Log} {past : List Event} {s : State} (h : Complete log past s) :
    Complete log past (iterate s) := by
  have hinv := inv_iterate h.inv
  rcases iterate_cases h.inv with he | ⟨hlt, he, ⟨k, hk, hv⟩, _⟩
  · rw [he]
    exact h
  · refine ⟨hinv, fun i => ?_, fun j hj => ?_⟩
    · rw [he]
      exact h.holds i
    · rw [he] at hj
      simp only [next_toNat hlt] at hj
      rcases Nat.lt_or_eq_of_le (Nat.le_of_lt_succ hj) with hj | hj
      · exact h.logged j hj
      · rw [hj, ← hk]
        exact (h.holds k).mp hv

theorem complete_step {log : Log} (past : List Event) (s : State) (e : Event)
    (he : IsClientEvent e) (h : Complete log past s) : Complete log (past ++ [e]) (step s e) := by
  cases e with
  | tick d =>
      have huids : uids (past ++ [.tick d]) = uids past := by simp [uids]
      exact ⟨inv_step s _ h.inv, huids ▸ h.holds, huids ▸ h.logged⟩
  | frame f q cpu =>
      obtain ⟨u, hu, hf⟩ := he
      exact complete_frame hf hu h
  | poll =>
      have huids : uids (past ++ [.poll]) = uids past := by simp [uids]
      have hp := complete_poll h
      exact ⟨hp.inv, huids ▸ hp.holds, huids ▸ hp.logged⟩

theorem complete_run (log : Log) (events : List Event) (h : ∀ e ∈ events, IsClientEvent e) :
    Complete log events (run step (started log) events) :=
  run_history (complete_started log) complete_step events h

theorem logged_iff {log : Log} {s : State} (h : PipelineInv log s) (k : Nat) :
    (∃ t, (k, t) ∈ logWrites s.trace) ↔ k < s.nextUid.toNat := by
  rw [logWrites_eq h]
  simp

/-- Once the loop is stuck, what has arrived is all logged exactly if no uid is
missing before one that has arrived. -/
theorem stuck_complete_iff (log : Log) (events : List Event)
    (hclient : ∀ e ∈ events, IsClientEvent e)
    (hstuck : Stuck (run step (started log) events)) :
    let s := run step (started log) events
    (∀ k : Fin (1 + maxLogEntry), k.val < maxLogEntry → HoldsValid s.maps k →
      ∃ t, (k.val, t) ∈ logWrites s.trace) ↔
    ∀ j k, j < k → k < maxLogEntry → k ∈ uids events → j ∈ uids events := by
  intro s
  have hc : Complete log events s := complete_run log events hclient
  have hle := hc.inv.next_le
  have hmissing : s.nextUid.toNat < maxLogEntry → s.nextUid.toNat ∉ uids events := by
    intro hlt hm
    have hv := (hc.holds ⟨s.nextUid.toNat, by omega⟩).mpr hm
    exact Bool.false_ne_true (hstuck.symm.trans (fetch_of_holdsValid rfl hlt hv))
  constructor
  · intro hall j k hjk hk hm
    have hlogged := hall ⟨k, by omega⟩ hk ((hc.holds ⟨k, by omega⟩).mpr hm)
    rw [logged_iff hc.inv] at hlogged
    exact hc.logged j (Nat.lt_trans hjk hlogged)
  · intro hseg k hk hv
    have hm := (hc.holds k).mp hv
    rw [logged_iff hc.inv]
    by_contra hge
    rcases Nat.lt_or_eq_of_le (Nat.le_of_not_lt hge) with hlt | heq
    · exact hmissing (by omega) (hseg _ _ hlt hk hm)
    · exact hmissing (by omega) (heq ▸ hm)

theorem clientEvent (uid : Nat) (hu : uid ≤ maxLogEntry) :
    IsClientEvent (.frame (clientFrame uid 1) 0 0) := by
  have hmax := maxLogEntry_eq
  exact ⟨uid, hu, clientFrame_isValidFrame uid 1 (by omega) (by decide) (by decide)⟩

def firstLost : List Event := [.frame (clientFrame 1 1) 0 0, .poll]

theorem firstLost_client : ∀ e ∈ firstLost, IsClientEvent e := by
  intro e he
  rw [firstLost, List.mem_cons, List.mem_singleton] at he
  rcases he with rfl | rfl
  · exact clientEvent 1 (by decide)
  · trivial

theorem firstLost_uids : uids firstLost = [1] := by
  have hu := (clientFrame_isClientFrame 1 1 (by decide) (by decide)).uid_eq
  simp [uids, firstLost, hu]

theorem firstLost_next (log : Log) : (run step (started log) firstLost).nextUid.toNat = 0 := by
  by_contra hne
  have h := (complete_run log firstLost firstLost_client).logged 0 (Nat.pos_of_ne_zero hne)
  rw [firstLost_uids] at h
  simp at h

theorem firstLost_stuck (log : Log) : Stuck (run step (started log) firstLost) := by
  have hc := complete_run log firstLost firstLost_client
  rw [Stuck]
  rcases fetch_of_stored _ (run step (started log) firstLost).clock _ hc.inv.stored with
    hf | ⟨_, _, ⟨k, hk, hv⟩, _⟩
  · rw [hf]
  · have hm := (hc.holds k).mp hv
    rw [hk, firstLost_next, firstLost_uids] at hm
    simp at hm

theorem stuck_complete_firstLost :
    let s := run step (started fun _ _ => 0) firstLost
    (∀ k : Fin (1 + maxLogEntry), k.val < maxLogEntry → HoldsValid s.maps k →
      ∃ t, (k.val, t) ∈ logWrites s.trace) ↔
    ∀ j k, j < k → k < maxLogEntry → k ∈ uids firstLost → j ∈ uids firstLost :=
  stuck_complete_iff (fun _ _ => 0) firstLost firstLost_client (firstLost_stuck _)

theorem lost_datagram_stalls :
    let s := run step (started fun _ _ => 0) firstLost
    (∀ e ∈ firstLost, IsClientEvent e) ∧ Stuck s ∧
      ¬ ∀ k : Fin (1 + maxLogEntry), k.val < maxLogEntry → HoldsValid s.maps k →
        ∃ t, (k.val, t) ∈ logWrites s.trace := by
  intro s
  have hc : Complete (fun _ _ => 0) firstLost s := complete_run _ firstLost firstLost_client
  refine ⟨firstLost_client, firstLost_stuck _, fun hall => ?_⟩
  have hv : HoldsValid s.maps ⟨1, by decide⟩ := by
    rw [hc.holds, firstLost_uids]
    exact List.mem_singleton.mpr rfl
  have hlogged := hall ⟨1, by decide⟩ (by decide) hv
  rw [logged_iff hc.inv, firstLost_next] at hlogged
  exact absurd hlogged (Nat.not_lt_zero 1)

end PacketIntercept.EbpfCompleteness
