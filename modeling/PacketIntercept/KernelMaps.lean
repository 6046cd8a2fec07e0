import PacketIntercept.ClientFrame
import PacketIntercept.Runs

namespace PacketIntercept.KernelMaps

open ByteMemory Common CheckedLoads XdpSockProg FrameGrammar ClientFrame Runs

def stepXdp (maps : Maps) (ctx : XdpMd) : Maps :=
  match xdpSockProg ctx maps with
  | some r => r.maps
  | none => maps

def lastArrival (k : Nat) (arrivals : List XdpMd) : Option XdpMd :=
  lastWith (fun ctx => frameUid ctx.frame) k arrivals

/-- What the maps are for: entry k belongs to the last arrival with uid k. -/
def TracksLast (arrivals : List XdpMd) (maps : Maps) : Prop :=
  ∀ k : Fin (1 + maxLogEntry),
    maps.uidTimestamps k = ((lastArrival k.val arrivals).map XdpMd.now).getD 0 ∧
    maps.pktPayload k = ((lastArrival k.val arrivals).map fun ctx => framePayload ctx.frame).getD
      (List.replicate sizeofPayload 0)

def IgnoresLarge (maps : Maps) (ctx : XdpMd) : Prop :=
  maxLogEntry < frameUid ctx.frame →
    (stepXdp maps ctx).uidTimestamps = maps.uidTimestamps ∧
    (stepXdp maps ctx).pktPayload = maps.pktPayload

/-- A uid that is too large but has a valid index in its low half. -/
def Aliases (ctx : XdpMd) : Prop :=
  maxLogEntry < frameUid ctx.frame ∧ frameUid ctx.frame % 2 ^ 32 ≤ maxLogEntry

theorem stepXdp_of_accepts {ctx : XdpMd} (maps : Maps) (h : Accepts ctx.frame) :
    stepXdp maps ctx = recorded ctx maps := by
  rw [stepXdp, xdpSockProg_of_accepts maps h]

theorem stepXdp_of_not_accepts {ctx : XdpMd} (maps : Maps) (h : ¬ Accepts ctx.frame) :
    stepXdp maps ctx = maps := by
  rcases xdpSockProg_cases ctx maps with ⟨hacc, _⟩ | ⟨_, hr⟩
  · exact absurd hacc h
  · rw [stepXdp, hr]

theorem index_eq_iff {ctx : XdpMd} (h : ¬ Aliases ctx) (k : Fin (1 + maxLogEntry)) :
    k.val = frameUid ctx.frame % 2 ^ 32 ↔ frameUid ctx.frame = k.val := by
  have hk := k.isLt
  have hmax := maxLogEntry_eq
  rw [Aliases] at h
  omega

theorem stepXdp_client {ctx : XdpMd} {u : Nat} (maps : Maps) (h : IsClientFrame ctx.frame u)
    (hu : u ≤ maxLogEntry) (k : Fin (1 + maxLogEntry)) :
    (stepXdp maps ctx).uidTimestamps k = (if u = k.val then ctx.now else maps.uidTimestamps k) ∧
    (stepXdp maps ctx).pktPayload k =
      if u = k.val then framePayload ctx.frame else maps.pktPayload k := by
  have hna : ¬ Aliases ctx := by
    rw [Aliases, h.uid_eq]
    omega
  rw [stepXdp_of_accepts maps h.accepts, recorded_uidTimestamps, recorded_pktPayload]
  simp only [index_eq_iff hna k]
  rw [h.uid_eq]
  exact ⟨rfl, rfl⟩

theorem tracksLast_zero : TracksLast [] zeroMaps := fun _ => ⟨rfl, rfl⟩

theorem tracksLast_step {past : List XdpMd} {maps : Maps} {ctx : XdpMd}
    (h : Accepts ctx.frame ∧ ¬ Aliases ctx) (ht : TracksLast past maps) :
    TracksLast (past ++ [ctx]) (stepXdp maps ctx) := by
  intro k
  rw [stepXdp_of_accepts maps h.1, recorded_uidTimestamps, recorded_pktPayload, lastArrival,
    lastWith_snoc]
  simp only [index_eq_iff h.2 k]
  by_cases hk : frameUid ctx.frame = k.val
  · simp [hk]
  · simpa [hk, lastArrival] using ht k

theorem tracksLast_run (arrivals : List XdpMd)
    (h : ∀ ctx ∈ arrivals, Accepts ctx.frame ∧ ¬ Aliases ctx) :
    TracksLast arrivals (run stepXdp zeroMaps arrivals) :=
  run_history tracksLast_zero (fun _ _ _ => tracksLast_step) arrivals h

theorem ignoresLarge_of_not_aliases {ctx : XdpMd} (maps : Maps)
    (h : Accepts ctx.frame ∧ ¬ Aliases ctx) : IgnoresLarge maps ctx := by
  intro hlarge
  have hne (k : Fin (1 + maxLogEntry)) : k.val ≠ frameUid ctx.frame % 2 ^ 32 := by
    intro he
    have hk := k.isLt
    rw [index_eq_iff h.2 k] at he
    omega
  rw [stepXdp_of_accepts maps h.1]
  constructor
  · funext k
    rw [recorded_uidTimestamps, if_neg (hne k)]
  · funext k
    rw [recorded_pktPayload, if_neg (hne k)]

theorem framePayload_uid {f : Frame} : uid (bytes (framePayload f)) 0 = frameUid f := by
  apply leNat_congr
  intro i hi
  rw [framePayload, bytes_slice _ _ _ _ (by rw [sizeofPayload]; omega), Nat.zero_add, Nat.add_assoc]

theorem zero_uid : uid (bytes (List.replicate sizeofPayload 0)) 0 = 0 := by
  apply leNat_zero
  intro i hi
  rw [bytes_replicate_zero]

theorem stored_uid_le {past : List XdpMd} {maps : Maps} (ht : TracksLast past maps)
    (k : Fin (1 + maxLogEntry)) : uid (bytes (maps.pktPayload k)) 0 ≤ maxLogEntry := by
  have hk := k.isLt
  rw [(ht k).2]
  cases hl : lastArrival k.val past with
  | none =>
      rw [Option.map_none, Option.getD_none, zero_uid]
      omega
  | some ctx =>
      rw [Option.map_some, Option.getD_some, framePayload_uid, (lastWith_some hl).2]
      omega

theorem aliases_overwrites {past : List XdpMd} {maps : Maps} {ctx : XdpMd}
    (ht : TracksLast past maps) (hacc : Accepts ctx.frame) (ha : Aliases ctx) :
    ¬ IgnoresLarge maps ctx := by
  intro hign
  have hlt : frameUid ctx.frame % 2 ^ 32 < 1 + maxLogEntry := by
    have := ha.2
    omega
  have hle := stored_uid_le ht ⟨_, hlt⟩
  rw [← (hign ha.1).2, stepXdp_of_accepts maps hacc, recorded_pktPayload, if_pos rfl,
    framePayload_uid] at hle
  exact absurd ha.1 (Nat.not_lt.mpr hle)

theorem no_alias_of_ignoresLarge (arrivals : List XdpMd)
    (hacc : ∀ ctx ∈ arrivals, Accepts ctx.frame)
    (h : Along stepXdp IgnoresLarge zeroMaps arrivals) : ∀ ctx ∈ arrivals, ¬ Aliases ctx := by
  induction arrivals using List.reverseRecOn with
  | nil => exact fun _ hctx => absurd hctx List.not_mem_nil
  | append_singleton past ctx ih =>
      rw [along_append] at h
      have hpast : ∀ c ∈ past, Accepts c.frame := fun c hc => hacc c (by simp [hc])
      have hfree := ih hpast h.1
      have ht := tracksLast_run past (fun c hc => ⟨hpast c hc, hfree c hc⟩)
      have hlast : ¬ Aliases ctx := fun ha => aliases_overwrites ht (hacc ctx (by simp)) ha h.2.1
      intro c hc
      rcases List.mem_append.mp hc with hc | hc
      · exact hfree c hc
      · rw [List.mem_singleton.mp hc]
        exact hlast

/-- The maps do what they are for exactly on the sequences without aliasing. -/
theorem maps_track_last_iff (arrivals : List XdpMd) (hacc : ∀ ctx ∈ arrivals, Accepts ctx.frame) :
    (TracksLast arrivals (run stepXdp zeroMaps arrivals) ∧
      Along stepXdp IgnoresLarge zeroMaps arrivals) ↔ ∀ ctx ∈ arrivals, ¬ Aliases ctx := by
  constructor
  · exact fun h => no_alias_of_ignoresLarge arrivals hacc h.2
  · intro h
    have hboth : ∀ ctx ∈ arrivals, Accepts ctx.frame ∧ ¬ Aliases ctx :=
      fun ctx hctx => ⟨hacc ctx hctx, h ctx hctx⟩
    refine ⟨tracksLast_run arrivals hboth, along_of_forall arrivals ?_ zeroMaps⟩
    exact fun ctx hctx maps => ignoresLarge_of_not_aliases maps (hboth ctx hctx)

def smallArrival : XdpMd := ⟨clientFrame 5 1, 0, 0, 10⟩

def largeArrival : XdpMd := ⟨clientFrame (2 ^ 32 + 5) 1, 0, 0, 20⟩

theorem smallArrival_frame : IsClientFrame smallArrival.frame 5 :=
  clientFrame_isClientFrame 5 1 (by decide) (by decide)

theorem largeArrival_frame : IsClientFrame largeArrival.frame (2 ^ 32 + 5) :=
  clientFrame_isClientFrame (2 ^ 32 + 5) 1 (by decide) (by decide)

def otherArrival : XdpMd := ⟨clientFrame 7 2, 0, 0, 20⟩

def lateArrival : XdpMd := ⟨clientFrame 5 1, 0, 0, 30⟩

/-- A frame, one with another uid, and the first one again. -/
theorem maps_track_last_small :
    TracksLast [smallArrival, otherArrival, lateArrival]
        (run stepXdp zeroMaps [smallArrival, otherArrival, lateArrival]) ∧
      Along stepXdp IgnoresLarge zeroMaps [smallArrival, otherArrival, lateArrival] := by
  have hframe (uid created : Nat) (hu : uid < 10) (hc : created < 10) :
      IsClientFrame (clientFrame uid created) uid :=
    clientFrame_isClientFrame uid created (by omega) (by omega)
  have hall : ∀ ctx ∈ [smallArrival, otherArrival, lateArrival],
      ∃ uid, uid < 10 ∧ IsClientFrame ctx.frame uid := by
    intro ctx hctx
    simp only [List.mem_cons, List.not_mem_nil, or_false] at hctx
    rcases hctx with rfl | rfl | rfl
    · exact ⟨5, by decide, hframe 5 1 (by decide) (by decide)⟩
    · exact ⟨7, by decide, hframe 7 2 (by decide) (by decide)⟩
    · exact ⟨5, by decide, hframe 5 1 (by decide) (by decide)⟩
  refine (maps_track_last_iff [smallArrival, otherArrival, lateArrival] ?_).mpr ?_
  · intro ctx hctx
    obtain ⟨_, _, hf⟩ := hall ctx hctx
    exact hf.accepts
  · intro ctx hctx
    obtain ⟨uid, hu, hf⟩ := hall ctx hctx
    rw [Aliases, hf.uid_eq]
    omega

theorem large_uid_overwrites :
    (Accepts smallArrival.frame ∧ Accepts largeArrival.frame) ∧
      smallArrival.now ≤ largeArrival.now ∧
      ¬ (TracksLast [smallArrival, largeArrival]
          (run stepXdp zeroMaps [smallArrival, largeArrival]) ∧
        Along stepXdp IgnoresLarge zeroMaps [smallArrival, largeArrival]) := by
  refine ⟨⟨smallArrival_frame.accepts, largeArrival_frame.accepts⟩, by decide, ?_⟩
  rintro ⟨ht, _⟩
  have hlast : lastArrival 5 [smallArrival, largeArrival] = some smallArrival := by
    simp [lastArrival, lastWith, smallArrival_frame.uid_eq, largeArrival_frame.uid_eq]
  have htime := (ht ⟨5, by decide⟩).1
  rw [hlast, run_cons, run_cons, run_nil, stepXdp_of_accepts _ largeArrival_frame.accepts,
    recorded_uidTimestamps, largeArrival_frame.uid_eq, if_pos (by decide)] at htime
  exact absurd htime (by decide)

end PacketIntercept.KernelMaps
