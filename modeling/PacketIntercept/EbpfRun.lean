import PacketIntercept.ClientRun
import PacketIntercept.EbpfCompleteness

namespace PacketIntercept.EbpfRun

open ByteMemory Common CheckedLoads ParsingHelpers XdpSockProg FrameGrammar LogBuffs Client ClientFrame
open KernelMaps EbpfMeasure EbpfPipeline EbpfCompleteness Runs

/-- An untagged frame without IP options that carries a datagram to DEST_PORT. -/
structure Carries (f : Frame) (d : List UInt8) : Prop where
  ethType : be16 (bytes f) 12 = ethPIp
  version : (bytes f 14).toNat / 16 = 4
  ihl_eq : ihl f 14 = 5
  protocol : (bytes f 23).toNat = ipprotoUdp
  dest : be16 (bytes f) 36 = destPort
  udpLen : be16 (bytes f) 38 = 8 + d.length
  length : payloadOffset + d.length ≤ f.length
  payload : ∀ b, b < d.length → bytes f (payloadOffset + b) = d.getD b 0

def frames (events : List Event) : List Frame :=
  events.filterMap fun
    | .frame f _ _ => some f
    | _ => none

/-- Polling without any frame coming. -/
def polls (n : Nat) : List Event := List.replicate n .poll

theorem carries_valid {f : Frame} {u created : Nat} (h : Carries f (ClientRun.datagram u created))
    (hu : u < 2 ^ 64) (hc : created < 2 ^ 64) (h0 : created ≠ 0) : IsValidFrame f u := by
  have hlen : (ClientRun.datagram u created).length = sizeofPayload := by
    rw [ClientRun.datagram, List.length_map, List.length_range]
  have hbyte : ∀ b, b < sizeofPayload → bytes f (payloadOffset + b) = clientPayload u created b := by
    intro b hb
    rw [h.payload b (hlen ▸ hb), ← bytes_payload u created hb]
    rfl
  have hstored : ∀ b, b < 32 → bytes (framePayload f) (0 + b) = clientPayload u created (0 + b) := by
    intro b hb
    have hlt : b < sizeofPayload := Nat.lt_trans hb (by decide)
    rw [Nat.zero_add, framePayload, bytes_slice _ _ _ _ hlt, hbyte b hlt]
  obtain ⟨hclient, huid, htype, hcreated⟩ := clientPayload_fields hu hc
  obtain ⟨hcheck, hsame⟩ := checkPacket_congr hstored
  refine ⟨⟨h.ethType, h.version, h.ihl_eq, h.protocol, h.dest, hlen ▸ h.udpLen, hlen ▸ h.length, ?_⟩, ?_⟩
  · rw [← framePayload_uid, hsame, huid]
  · rw [hcheck, checkPacket, hclient, htype, hcreated]
    simp [h0]

/-- n polls log n uids, unless the next one is missing or the log is full. -/
theorem polls_advance {log : Log} {past : List Event} (n : Nat) {s : State} (h : Complete log past s) :
    Complete log past (run step s (polls n)) ∧
      (n ≤ (run step s (polls n)).nextUid.toNat ∨
        (run step s (polls n)).nextUid.toNat = maxLogEntry ∨
        (run step s (polls n)).nextUid.toNat ∉ uids past) := by
  induction n with
  | zero => exact ⟨h, .inl (Nat.zero_le _)⟩
  | succ n ih =>
      obtain ⟨hn, hpast⟩ := ih
      rw [polls, List.replicate_succ', run_snoc, ← polls]
      refine ⟨complete_poll hn, ?_⟩
      rcases iterate_cases hn.inv with he | ⟨hlt, he, ⟨k, hk, hv⟩, _⟩
      · right
        rw [step, he]
        by_contra hno
        rw [not_or, not_not] at hno
        have hlt := Nat.lt_of_le_of_ne hn.inv.next_le hno.1
        have hv := (hn.holds ⟨(run step s (polls n)).nextUid.toNat, by omega⟩).mpr hno.2
        have hret := fetch_of_holdsValid rfl hlt hv
        have hnext : (iterate (run step s (polls n))).nextUid.toNat =
            (run step s (polls n)).nextUid.toNat + 1 := by
          simp only [iterate, hret, if_true]
          exact next_toNat hlt
        rw [he] at hnext
        omega
      · rw [step, he]
        dsimp only
        rw [next_toNat hlt]
        rcases hpast with hge | hfull | hgap
        · left
          omega
        · omega
        · exact absurd (hk ▸ (hn.holds k).mp hv) hgap

/-- However the frames and the polls came, polling to the end logs exactly the
uids before the first one that never came. -/
theorem logged_iff_no_gap (log : Log) (events : List Event) (hclient : ∀ e ∈ events, IsClientEvent e)
    (n : Nat) (hn : maxLogEntry ≤ n) {k : Nat} (hk : k < maxLogEntry) :
    (∃ t, (k, t) ∈ logWrites (run step (started log) (events ++ polls n)).trace) ↔
      ∀ j, j ≤ k → j ∈ uids events := by
  obtain ⟨hc, hend⟩ := polls_advance n (complete_run log events hclient)
  rw [run_append, logged_iff hc.inv]
  have hle := hc.inv.next_le
  constructor
  · intro hlt j hj
    exact hc.logged j (by omega)
  · intro hall
    by_contra hge
    rcases hend with hend | hend | hend
    · omega
    · omega
    · exact hend (hall _ (by omega))

/-- The log has an entry for k, made when a frame with uid k had come. -/
def LoggedAfterArrival (s : State) (k : Nat) : Prop :=
  ∃ ctx, .arrived ctx ∈ s.trace ∧ frameUid ctx.frame = k ∧
    (k, entry shipped s.log k) ∈ logWrites s.trace ∧ ctx.now ≤ entry shipped s.log k

theorem loggedAfterArrival_iff {log : Log} {s : State} (h : PipelineInv log s) (k : Nat) :
    LoggedAfterArrival s k ↔ ∃ t, (k, t) ∈ logWrites s.trace := by
  constructor
  · rintro ⟨_, _, _, hm, _⟩
    exact ⟨_, hm⟩
  · rintro ⟨t, hm⟩
    have ht := h.entries _ hm
    dsimp only at ht
    obtain ⟨m, hmem, he⟩ := List.mem_filterMap.mp hm
    cases m with
    | arrived ctx => cases he
    | logged u v =>
        cases he
        obtain ⟨past, rest, hsplit⟩ := List.append_of_mem hmem
        obtain ⟨ctx, hc, _, hu, hle⟩ := h.causes past _ rest hsplit
        refine ⟨ctx, ?_, hu, ?_, ?_⟩
        · rw [hsplit]
          exact List.mem_append_left _ hc
        · rwa [ht]
        · rwa [ht]

section Client

variable {clock : Nat → UInt64} (hclock : ∀ n, clock n ≠ 0) {events : List Event}
  (hcarry : ∀ f ∈ frames events, ∃ u, u ≤ maxLogEntry ∧
    Carries f (ClientRun.datagram u (clock (2 + u)).toNat))
include hclock

theorem carried_frame {f : Frame} {u : Nat} (hu : u ≤ maxLogEntry)
    (h : Carries f (ClientRun.datagram u (clock (2 + u)).toNat)) : IsValidFrame f u := by
  have hmax := maxLogEntry_eq
  apply carries_valid h (by omega) (UInt64.toNat_lt _)
  intro h0
  exact hclock _ (UInt64.toNat_inj.mp h0)

include hcarry

theorem carried_events : ∀ e ∈ events, IsClientEvent e := by
  intro e he
  cases e with
  | tick d => trivial
  | poll => trivial
  | frame f q cpu =>
      obtain ⟨u, hu, hf⟩ := hcarry f (List.mem_filterMap.mpr ⟨_, he, rfl⟩)
      exact ⟨u, hu, carried_frame hclock hu hf⟩

theorem mem_uids_iff {j : Nat} (hj : j ≤ maxLogEntry) :
    j ∈ uids events ↔ ∃ f ∈ frames events, Carries f (ClientRun.datagram j (clock (2 + j)).toNat) := by
  have huids : uids events = (frames events).map frameUid := by
    rw [uids, frames, List.map_filterMap]
    congr 1
    funext e
    cases e <;> rfl
  rw [huids, List.mem_map]
  constructor
  · rintro ⟨f, hm, hf⟩
    obtain ⟨u, hu, hc⟩ := hcarry f hm
    have he : u = j := (carried_frame hclock hu hc).uid_eq.symm.trans hf
    exact ⟨f, hm, he ▸ hc⟩
  · rintro ⟨f, hm, hc⟩
    exact ⟨f, hm, (carried_frame hclock hj hc).uid_eq⟩

end Client

/-- The client, the XDP program and ebpf_measure_user together. However the
network loses, repeats and reorders the client's datagrams and the polls fall
between them, in the end the log has an entry for uid k, made after a frame with
that uid, exactly if no datagram up to that of uid k was lost; every other entry
is as it was. -/
theorem client_run_logged_iff (clock : Nat → UInt64) (hclock : ∀ n, clock n ≠ 0) (fuel : Nat)
    (c : ClientRun.Sender) (r : Option Nat) (hmain : ClientRun.main clock fuel = some (c, r))
    (log : Log) (events : List Event)
    (hcarry : ∀ f ∈ frames events, ∃ d ∈ c.datagrams, Carries f d) (n : Nat) (hn : maxLogEntry ≤ n)
    (k : Nat) (hk : k < maxLogEntry) :
    let s := run step (started log) (events ++ polls n)
    (LoggedAfterArrival s k ↔
      ∀ d ∈ c.datagrams.take (k + 1), ∃ f ∈ frames events, Carries f d) ∧
    (¬ LoggedAfterArrival s k → entry shipped s.log k = entry shipped log k) := by
  intro s
  have hd := ClientRun.main_datagrams hmain
  have hcarry' : ∀ f ∈ frames events, ∃ u, u ≤ maxLogEntry ∧
      Carries f (ClientRun.datagram u (clock (2 + u)).toNat) := by
    intro f hf
    obtain ⟨d, hmem, hc⟩ := hcarry f hf
    rw [hd, List.mem_map] at hmem
    obtain ⟨u, hu, rfl⟩ := hmem
    exact ⟨u, Nat.le_of_lt_succ (List.mem_range.mp hu), hc⟩
  have hinv : PipelineInv log s := inv_run log _
  have hiff : LoggedAfterArrival s k ↔ ∀ j, j ≤ k → j ∈ uids events := by
    rw [loggedAfterArrival_iff hinv]
    exact logged_iff_no_gap log events (carried_events hclock hcarry') n hn hk
  constructor
  · rw [hiff, hd, ← List.map_take, List.take_range, Nat.min_eq_left (by omega), List.forall_mem_map]
    apply forall_congr'
    intro j
    rw [List.mem_range, Nat.lt_succ_iff]
    constructor
    · intro h hj
      exact (mem_uids_iff hclock hcarry' (by omega)).mp (h hj)
    · intro h hj
      exact (mem_uids_iff hclock hcarry' (by omega)).mpr (h hj)
  · intro hno
    apply hinv.untouched
    by_contra hlt
    exact hno ((loggedAfterArrival_iff hinv k).mpr
      ((logged_iff hinv k).mpr (Nat.lt_of_not_le hlt)))

theorem clientFrame_carries {u created : Nat} (hu : u < 2 ^ 64) (hc : created < 2 ^ 64) :
    Carries (clientFrame u created) (ClientRun.datagram u created) := by
  have hf := clientFrame_isClientFrame u created hu hc
  have hlen : (ClientRun.datagram u created).length = sizeofPayload := by
    rw [ClientRun.datagram, List.length_map, List.length_range]
  refine ⟨hf.ethType, hf.version, hf.ihl_eq, hf.protocol, hf.dest, ?_, ?_, ?_⟩
  · rw [hlen, hf.udpLen]
  · rw [hlen]
    exact hf.length
  · intro b hb
    rw [hlen] at hb
    rw [payloadOffset, clientFrame_payload u created hb, ← bytes_payload u created hb]
    rfl

/-- The second datagram, the first one later, the second one again, and polls between them. -/
def twoReordered : List Event :=
  [.frame (clientFrame 1 5) 0 0, .poll, .tick 3, .frame (clientFrame 0 5) 0 1, .poll,
    .frame (clientFrame 1 5) 0 0]

theorem reordered_frame_logged :
    LoggedAfterArrival (run step (started fun _ _ => 0) (twoReordered ++ polls maxLogEntry)) 1 := by
  have hmax := maxLogEntry_eq
  obtain ⟨c, r, hmain⟩ : ∃ c r, ClientRun.main (fun _ => 5) (maxLogEntry + 2) = some (c, r) := by
    have hrun := ClientRun.mainLoop_sentBy (fun _ => 5) 0 (maxLogEntry + 2) (Nat.zero_add _)
    rw [if_pos (Nat.zero_le _), ← ClientRun.main_eq] at hrun
    exact ⟨_, _, hrun⟩
  have hd := ClientRun.main_datagrams hmain
  have hcarry (u : Nat) (hu : u < 2) :
      Carries (clientFrame u 5) (ClientRun.datagram u (5 : UInt64).toNat) :=
    clientFrame_carries (by omega) (by decide)
  have hsent (u : Nat) (hu : u < 2) : ClientRun.datagram u (5 : UInt64).toNat ∈ c.datagrams := by
    rw [hd]
    exact List.mem_map.mpr ⟨u, List.mem_range.mpr (by omega), rfl⟩
  have hfive : (5 : UInt64) ≠ 0 := by decide
  have hframes : frames twoReordered = [clientFrame 1 5, clientFrame 0 5, clientFrame 1 5] := rfl
  refine (client_run_logged_iff (fun _ => 5) (fun _ => hfive) (maxLogEntry + 2) c r hmain
    (fun _ _ => 0) twoReordered ?_ maxLogEntry (Nat.le_refl _) 1 (by omega)).1.mpr ?_
  · intro f hf
    rw [hframes] at hf
    simp only [List.mem_cons, List.not_mem_nil, or_false] at hf
    rcases hf with rfl | rfl | rfl
    · exact ⟨_, hsent 1 (by decide), hcarry 1 (by decide)⟩
    · exact ⟨_, hsent 0 (by decide), hcarry 0 (by decide)⟩
    · exact ⟨_, hsent 1 (by decide), hcarry 1 (by decide)⟩
  · intro d hmem
    rw [hd, ← List.map_take, List.take_range, Nat.min_eq_left (by omega), List.mem_map] at hmem
    obtain ⟨u, hu, rfl⟩ := hmem
    have hu2 : u < 2 := List.mem_range.mp hu
    refine ⟨clientFrame u 5, ?_, hcarry u hu2⟩
    rw [hframes]
    obtain rfl | rfl : u = 0 ∨ u = 1 := by omega
    · simp
    · simp

end PacketIntercept.EbpfRun
