import PacketIntercept.KernelMaps
import PacketIntercept.ReadProc

namespace PacketIntercept.Comparison

open ByteMemory Common CheckedLoads ArrayMaps LogBuffs RxHandler ReadProc XdpSockProg FrameGrammar
open ClientFrame KernelMaps Runs

/-- The socket buffer the kernel makes of a frame: data is at the IP header. -/
structure SkbOf (f : Frame) (pkt : Skb) : Prop where
  data : ∀ i, 14 + i < f.length → pkt.data i = bytes f (14 + i)
  len : pkt.len + 14 = f.length
  transportHeader : pkt.transportHeader = 20

structure Both where
  module : Module
  reader : Reader
  maps : Maps

inductive Op
  | frame (ctx : XdpMd) (pkt : Skb)
  | reader (off : BitVec 64) (ok : Bool)

def step (s : Both) : Op → Both
  | .frame ctx pkt =>
      { s with module := rxhPacketIn ctx.now pkt s.module, maps := stepXdp s.maps ctx }
  | .reader off ok =>
      { s with
        module := (readerStep off ok (s.module, s.reader)).1
        reader := (readerStep off ok (s.module, s.reader)).2 }

def start (log : Log) (outside : Mem) : Both := ⟨loaded log outside, .idle, zeroMaps⟩

def exportKern (maps : Maps) : List Nat :=
  (List.range maxLogEntry).filterMap (lookup maps.uidTimestamps)

def Op.uid : Op → Option Nat
  | .frame ctx _ => some (frameUid ctx.frame)
  | .reader _ _ => none

def Op.now : Op → Nat
  | .frame ctx _ => ctx.now
  | .reader _ _ => 0

def IsClientOp : Op → Prop
  | .frame ctx pkt => ∃ u, u ≤ maxLogEntry ∧ IsClientFrame ctx.frame u ∧ SkbOf ctx.frame pkt
  | .reader _ _ => True

theorem SkbOf.be16_eq {f : Frame} {pkt : Skb} (h : SkbOf f pkt) {pos : Nat}
    (hl : 14 + (pos + 1) < f.length) : be16 pkt.data pos = be16 (bytes f) (14 + pos) := by
  rw [be16, be16, h.data pos (by omega), h.data (pos + 1) hl, Nat.add_assoc]

theorem SkbOf.uid_eq {f : Frame} {pkt : Skb} {u : Nat} (h : SkbOf f pkt) (hf : IsClientFrame f u) :
    pkt.uid = u := by
  have hl : 42 + 1024 ≤ f.length := hf.length
  rw [← hf.uid_eq]
  apply leNat_congr
  intro i hi
  rw [h.data _ (by omega), payloadOffset]
  congr 1
  omega

theorem SkbOf.passesFilter {f : Frame} {pkt : Skb} {u : Nat} (h : SkbOf f pkt)
    (hf : IsClientFrame f u) : pkt.passesFilter = true := by
  have hl : 42 + 1024 ≤ f.length := hf.length
  have hv : pkt.version = 4 := by
    rw [Skb.version, h.data 0 (by omega)]
    exact hf.version
  have hp : pkt.protocol = 17 := by
    rw [Skb.protocol, h.data 9 (by omega)]
    exact hf.protocol
  have hd : pkt.dest = 8080 := by
    rw [Skb.dest, h.transportHeader, h.be16_eq (by omega)]
    exact hf.dest
  simp [Skb.passesFilter, hv, hp, hd]

theorem exportKern_eq (maps : Maps) :
    exportKern maps = (List.range maxLogEntry).map fun k => (lookup maps.uidTimestamps k).getD 0 := by
  rw [exportKern, ← List.filterMap_eq_map]
  apply List.filterMap_congr
  intro k hk
  have hlt : k < 1 + maxLogEntry := by
    have := List.mem_range.mp hk
    omega
  rw [Function.comp_apply, lookup, dif_pos hlt, Option.getD_some]

theorem exportKern_getElem? (maps : Maps) (k : Fin (1 + maxLogEntry)) (hk : k.val < maxLogEntry) :
    (exportKern maps)[k.val]? = some (maps.uidTimestamps k) := by
  rw [exportKern_eq, List.getElem?_map, List.getElem?_range hk, Option.map_some, lookup_eq,
    Option.getD_some]

def Agrees (log : Log) (past : List Op) (s : Both) : Prop :=
  ∀ k : Fin (1 + maxLogEntry),
    (k.val < maxLogEntry → entry shipped s.module.logBuffs k.val =
      ((lastWith Op.uid (some k.val) past).map Op.now).getD (entry shipped log k.val)) ∧
    s.maps.uidTimestamps k = ((lastWith Op.uid (some k.val) past).map Op.now).getD 0

theorem agrees_start (log : Log) (outside : Mem) : Agrees log [] (start log outside) :=
  fun _ => ⟨fun _ => rfl, rfl⟩

theorem agrees_step {log : Log} (past : List Op) (s : Both) (op : Op) (hop : IsClientOp op)
    (h : Agrees log past s) : Agrees log (past ++ [op]) (step s op) := by
  intro k
  rw [lastWith_snoc]
  cases op with
  | frame ctx pkt =>
      obtain ⟨u, hu, hf, hpkt⟩ := hop
      have hmaps := (stepXdp_client s.maps hf hu k).1
      have hlog : (rxhPacketIn ctx.now pkt s.module).logBuffs =
          record shipped u ctx.now s.module.logBuffs := by
        rw [rxhPacketIn_logBuffs, hpkt.passesFilter hf, if_pos rfl, hpkt.uid_eq hf]
      have hkey : Op.uid (.frame ctx pkt) = some k.val ↔ u = k.val := by
        rw [Op.uid, hf.uid_eq, Option.some.injEq]
      simp only [step, hlog, hmaps, entry_record, hkey]
      by_cases hk : u = k.val
      · refine ⟨fun hlt => ?_, ?_⟩
        · have hu' : u < shipped.maxLogEntry := hk ▸ hlt
          rw [if_pos ⟨hk, hu'⟩, if_pos hk]
          rfl
        · rw [if_pos hk, if_pos hk]
          rfl
      · simpa [hk] using h k
  | reader off ok =>
      have hkey : ¬ Op.uid (.reader off ok) = some k.val := by simp [Op.uid]
      rw [if_neg hkey]
      simp only [step, readerStep_logBuffs]
      exact h k

theorem agrees_run (log : Log) (outside : Mem) (ops : List Op) (hops : ∀ op ∈ ops, IsClientOp op) :
    Agrees log ops (run step (start log outside) ops) :=
  run_history (agrees_start log outside) agrees_step ops hops

def LeavesOthers (s : Both) (op : Op) : Prop :=
  ∀ k, k < maxLogEntry → op.uid ≠ some k →
    (exportLog shipped (step s op).module.logBuffs)[k]? = (exportLog shipped s.module.logBuffs)[k]? ∧
    (exportKern (step s op).maps)[k]? = (exportKern s.maps)[k]?

theorem leavesOthers {op : Op} (hop : IsClientOp op) (s : Both) : LeavesOthers s op := by
  intro k hk hne
  rw [exportLog_getElem? shipped _ hk, exportLog_getElem? shipped _ hk,
    exportKern_getElem? _ ⟨k, by omega⟩ hk, exportKern_getElem? _ ⟨k, by omega⟩ hk]
  cases op with
  | frame ctx pkt =>
      obtain ⟨u, hu, hf, hpkt⟩ := hop
      have hne : u ≠ k := by
        rintro rfl
        exact hne (congrArg some hf.uid_eq)
      rw [step, (stepXdp_client s.maps hf hu _).1, if_neg hne, rxhPacketIn_logBuffs,
        hpkt.passesFilter hf, if_pos rfl, hpkt.uid_eq hf, entry_record, if_neg (fun h => hne h.1)]
      exact ⟨rfl, rfl⟩
  | reader off ok =>
      rw [step, readerStep_logBuffs]
      exact ⟨rfl, rfl⟩

/-- Both interceptors export, on the line of every uid that came, the time of
its last frame, and keep what they had on the line of every other one. -/
theorem interceptors_agree (log : Log) (outside : Mem) (ops : List Op)
    (hops : ∀ op ∈ ops, IsClientOp op) :
    let s := run step (start log outside) ops
    (∀ k, k < maxLogEntry →
      ((∃ op ∈ ops, op.uid = some k) → ∃ last, lastWith Op.uid (some k) ops = some last ∧
        (exportLog shipped s.module.logBuffs)[k]? = some last.now ∧
        (exportKern s.maps)[k]? = some last.now) ∧
      ((∀ op ∈ ops, op.uid ≠ some k) →
        (exportLog shipped s.module.logBuffs)[k]? = (exportLog shipped log)[k]? ∧
        (exportKern s.maps)[k]? = (exportKern zeroMaps)[k]?)) ∧
    Along step LeavesOthers (start log outside) ops := by
  intro s
  refine ⟨fun k hk => ?_, along_of_forall ops (fun op hop => leavesOthers (hops op hop)) _⟩
  obtain ⟨hkm, hebpf⟩ := agrees_run log outside ops hops ⟨k, by omega⟩
  rw [exportLog_getElem? shipped _ hk, exportKern_getElem? _ ⟨k, by omega⟩ hk, hkm hk, hebpf]
  cases hl : lastWith Op.uid (some k) ops with
  | none =>
      rw [lastWith_eq_none] at hl
      refine ⟨fun ⟨op, hop, hu⟩ => absurd hu (hl op hop), fun _ => ?_⟩
      rw [exportLog_getElem? shipped _ hk, exportKern_getElem? _ ⟨k, by omega⟩ hk]
      exact ⟨rfl, rfl⟩
  | some last =>
      obtain ⟨hm, hu⟩ := lastWith_some hl
      exact ⟨fun _ => ⟨last, rfl, rfl, rfl⟩, fun hno => absurd hu (hno last hm)⟩

def clientOp (uid now : Nat) : Op :=
  .frame ⟨clientFrame uid 1, 0, 0, now⟩
    ⟨fun i => bytes (clientFrame uid 1) (14 + i), 28 + sizeofPayload, 20⟩

theorem clientOp_isClientOp (uid now : Nat) (hu : uid ≤ maxLogEntry) :
    IsClientOp (clientOp uid now) := by
  have hmax := maxLogEntry_eq
  refine ⟨uid, hu, clientFrame_isClientFrame uid 1 (by omega) (by decide), fun _ _ => rfl, ?_, rfl⟩
  rw [clientFrame_length, Nat.add_right_comm]

theorem interceptors_agree_duplicate :
    ∃ last, lastWith Op.uid (some 7) [clientOp 7 10, .reader 0 true, clientOp 7 30] = some last ∧
      (exportLog shipped (run step (start (fun _ _ => 0) fun _ => 255)
        [clientOp 7 10, .reader 0 true, clientOp 7 30]).module.logBuffs)[7]? = some last.now ∧
      (exportKern (run step (start (fun _ _ => 0) fun _ => 255)
        [clientOp 7 10, .reader 0 true, clientOp 7 30]).maps)[7]? = some last.now := by
  have hops : ∀ op ∈ [clientOp 7 10, .reader 0 true, clientOp 7 30], IsClientOp op := by
    simp only [List.mem_cons, List.not_mem_nil, or_false]
    rintro op (rfl | rfl | rfl)
    · exact clientOp_isClientOp 7 10 (by decide)
    · trivial
    · exact clientOp_isClientOp 7 30 (by decide)
  have huid := (clientFrame_isClientFrame 7 1 (by decide) (by decide)).uid_eq
  refine ((interceptors_agree (fun _ _ => 0) (fun _ => 255) _ hops).1 7 (by decide)).1 ?_
  exact ⟨clientOp 7 10, by simp, congrArg some huid⟩

end PacketIntercept.Comparison
