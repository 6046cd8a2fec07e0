import PacketIntercept.Client
import PacketIntercept.HandOver

namespace PacketIntercept.CacheContents

open ByteMemory CyclicSlots Common LogBuffs RxHandler ReadProc TrackedCache HandOver Client

def ZeroAt (m : Mem) (pos : Nat) : Prop := ∀ b, b < pktBufferSize → m (pos + b) = 0

def PrefixAt (pkt : Skb) (m : Mem) (pos : Nat) : Prop :=
  ∀ b, b < pktBufferSize → m (pos + b) = pkt.data (28 + b)

/-- The bytes at pos were overwritten with zeros or begin the payload of packet p. -/
def HoldsOwn (stored : List Skb) (p : Nat) (m : Mem) (pos : Nat) : Prop :=
  ZeroAt m pos ∨ ∃ pkt, stored[p]? = some pkt ∧ PrefixAt pkt m pos

def Records (stored : List Skb) (owners : List Nat) (m : Mem) : Prop :=
  ∀ j, j < pktsPerBuffer →
    (∀ p, owners[j]? = some p → HoldsOwn stored p m (j * pktBufferSize)) ∧
    (owners[j]? = none → ZeroAt m (j * pktBufferSize))

structure Contents (s : System) : Prop where
  slots : ∀ i, s.cache.module.status i = true →
    HoldsOwn s.cache.stored (s.cache.owner i) s.cache.module.buffFromHere (i.val * pktBufferSize)
  temp : ∀ l, s.reader = .scan l → Records s.cache.stored s.copiedOwner s.cache.module.buffTemp

theorem getElem?_mono {stored stored' : List Skb} (h : stored <+: stored') {p : Nat} {pkt : Skb}
    (hs : stored[p]? = some pkt) : stored'[p]? = some pkt := by
  obtain ⟨more, rfl⟩ := h
  rw [List.getElem?_append_left (List.getElem?_eq_some_iff.mp hs).1]
  exact hs

theorem HoldsOwn.mono {stored stored' : List Skb} {p : Nat} {m : Mem} {pos : Nat}
    (h : HoldsOwn stored p m pos) (hp : stored <+: stored') : HoldsOwn stored' p m pos := by
  rcases h with h | ⟨pkt, hs, h⟩
  · exact .inl h
  · exact .inr ⟨pkt, getElem?_mono hp hs, h⟩

theorem HoldsOwn.congr {stored : List Skb} {p : Nat} {m m' : Mem} {pos pos' : Nat}
    (h : HoldsOwn stored p m pos)
    (he : ∀ b, b < pktBufferSize → m' (pos' + b) = m (pos + b)) : HoldsOwn stored p m' pos' := by
  rcases h with h | ⟨pkt, hs, h⟩
  · exact .inl fun b hb => (he b hb).trans (h b hb)
  · exact .inr ⟨pkt, hs, fun b hb => (he b hb).trans (h b hb)⟩

theorem Records.mono {stored stored' : List Skb} {owners : List Nat} {m : Mem}
    (h : Records stored owners m) (hp : stored <+: stored') : Records stored' owners m :=
  fun j hj => ⟨fun p ho => ((h j hj).1 p ho).mono hp, (h j hj).2⟩

theorem records_zero (stored : List Skb) {m : Mem} (h : ∀ i, i < bufferSize → m i = 0) :
    Records stored [] m := by
  refine fun j hj => ⟨fun p ho => by simp at ho, fun _ b hb => h _ ?_⟩
  simp only [pktsPerBuffer, bufferSize, pktBufferSize] at *
  omega

/-- A client payload written to slot i is the packet's own beginning there and
clears seven slots behind it; all other slots keep their bytes. -/
theorem client_overwrites {pkt : Skb} {uid created : Nat} (h : IsClientPacket pkt uid created)
    (m : Mem) {i j : Nat} (hij : i ≠ j) :
    ZeroAt (memcpy m (i * pktBufferSize) (fun b => pkt.data (28 + b)) pkt.copyLen)
      (j * pktBufferSize) ∨
    ∀ b, b < pktBufferSize →
      memcpy m (i * pktBufferSize) (fun b => pkt.data (28 + b)) pkt.copyLen (j * pktBufferSize + b) =
        m (j * pktBufferSize + b) := by
  rw [h.copyLen]
  by_cases hin : i < j ∧ j < i + 8
  · left
    intro b hb
    simp only [pktBufferSize] at hb ⊢
    have hb' : j * 128 + b = i * 128 + ((j - i) * 128 + b) := by omega
    rw [hb', memcpy_inside _ _ _ _ _ (by simp only [sizeofPayload]; omega)]
    exact h.zero_tail (by omega) (by simp only [sizeofPayload]; omega)
  · right
    intro b hb
    simp only [pktBufferSize] at hb ⊢
    apply memcpy_outside
    simp only [sizeofPayload]
    omega

theorem records_snoc {stored : List Skb} {owners : List Nat} {m src : Mem} {p pos : Nat}
    (h : Records stored owners m) (hp : HoldsOwn stored p src pos) :
    Records stored (owners ++ [p]) (memcpy m (owners.length * pktBufferSize)
      (fun b => src (pos + b)) pktBufferSize) := by
  intro j hj
  by_cases hjl : j = owners.length
  · subst hjl
    rw [List.getElem?_concat_length]
    refine ⟨fun q hq => ?_, fun hq => by simp at hq⟩
    rw [Option.some.injEq] at hq
    subst hq
    exact hp.congr fun b hb => memcpy_inside _ _ _ _ _ hb
  · have hsame (b : Nat) (hb : b < pktBufferSize) : memcpy m (owners.length * pktBufferSize)
        (fun b => src (pos + b)) pktBufferSize (j * pktBufferSize + b) = m (j * pktBufferSize + b) :=
      memcpy_block_ne _ _ (Ne.symm hjl) (Nat.le_refl _) hb
    have hget : (owners ++ [p])[j]? = owners[j]? := by
      rcases Nat.lt_or_gt_of_ne hjl with hlt | hgt
      · exact List.getElem?_append_left hlt
      · rw [List.getElem?_eq_none (by simp; omega), List.getElem?_eq_none (by omega)]
    rw [hget]
    refine ⟨fun q hq => ((h j hj).1 q hq).congr hsame, fun hq b hb => ?_⟩
    rw [hsame b hb]
    exact (h j hj).2 hq b hb

theorem contents_start (log : Log) (outside : Mem) : Contents (start log outside) :=
  ⟨fun i hi => by simp [start, Cache.empty, loaded] at hi, fun l hl => by simp [start] at hl⟩

theorem contents_packet {s : System} {pkt : Skb} {uid created : Nat} (h : Contents s) (now : Nat)
    (hc : IsClientPacket pkt uid created) : Contents (step s (.packet now pkt)) := by
  have hpre := arrive_extends now pkt s.cache
  refine ⟨fun j hj => ?_, fun l hl => ?_⟩
  · simp only [step] at hj ⊢
    rcases arrive_cases now pkt s.cache with
      ⟨_, hst, ho, hs, _, hb⟩ | ⟨i, _, hfree, hst, ho, hs, _, hb⟩
    · rw [hs] at hj
      rw [hst, ho, hb]
      exact h.slots j hj
    · rw [hs] at hj
      rw [hb, ho]
      by_cases hji : j = i
      · subst hji
        refine .inr ⟨pkt, ?_, fun b hb => ?_⟩
        · rw [hst, Function.update_self, List.getElem?_concat_length]
        · apply memcpy_inside
          rw [hc.copyLen]
          exact Nat.lt_trans hb (by decide)
      · rw [Function.update_of_ne hji] at hj ⊢
        have hne : i.val ≠ j.val := fun he => hji (Fin.ext he.symm)
        rcases client_overwrites hc s.cache.module.buffFromHere hne with hz | hsame
        · exact .inl hz
        · exact ((h.slots j hj).mono hpre).congr hsame
  · have htemp : (s.cache.arrive now pkt).module.buffTemp = s.cache.module.buffTemp := by
      rw [arrive_module, rxhPacketIn_buffTemp]
    simp only [step, htemp]
    exact (h.temp l hl).mono hpre

theorem contents_idle {s : System} (h : Contents s) (hr : s.reader = .idle) (off : BitVec 64)
    (ok : Bool) : Contents (step s (.reader off ok)) := by
  by_cases ho : bufferSize ≤ off.toNat
  · have hstep : readerStep off ok (s.cache.module, s.reader) = (s.cache.module, .idle) := by
      simp [readerStep, hr, ho]
    simp only [step, hstep]
    exact ⟨h.slots, fun l hl => by cases hl⟩
  · have hstep := readerStep_begin ho ok s.cache.module
    rw [← hr] at hstep
    simp only [step, hstep]
    refine ⟨h.slots, fun l _ => ?_⟩
    simp only [nextCopiedOwner, hr]
    apply records_zero
    intro i hi
    simp [beginScan, memset_apply, hi]

theorem contents_scan {s : System} (hinv : Inv s) (h : Contents s) {l : Scan}
    (hr : s.reader = .scan l) (off : BitVec 64) (ok : Bool) :
    Contents (step s (.reader off ok)) := by
  have hlen := (scanned_of_inv hinv hr).length_eq
  have htemp := h.temp l hr
  by_cases hrun : l.running = true
  · have hstep := readerStep_scan hrun off ok s.cache.module
    rw [← hr] at hstep
    simp only [step, hstep]
    refine ⟨fun i hi => ?_, fun _ _ => ?_⟩
    · obtain ⟨temp, he⟩ := scanIteration_frame s.cache.module l
      simp only [he] at hi ⊢
      exact h.slots i hi
    · simp only [nextCopiedOwner, hr, hrun, Bool.true_and, scanIteration]
      split
      next hs =>
        rw [← hlen]
        exact records_snoc htemp (h.slots l.ci hs)
      next => exact htemp
  · have hmod : (readerStep off ok (s.cache.module, s.reader)).1 = s.cache.module := by
      rw [hr, readerStep, if_neg hrun]
      split <;> rfl
    have hread (l' : Scan) : (readerStep off ok (s.cache.module, s.reader)).2 ≠ .scan l' := by
      rw [hr, readerStep, if_neg hrun]
      split <;> exact fun he => by cases he
    simp only [step, hmod]
    exact ⟨h.slots, fun l' hl' => absurd hl' (hread l')⟩

theorem contents_clean {s : System} (h : Contents s) {copied : List Slot} {k : Nat}
    (hr : s.reader = .clean copied k) (off : BitVec 64) (ok : Bool) :
    Contents (step s (.reader off ok)) := by
  have hmod : (readerStep off ok (s.cache.module, s.reader)).1 =
      cleanIteration copied k s.cache.module := by simp [readerStep, hr]
  have hread (l' : Scan) : (readerStep off ok (s.cache.module, s.reader)).2 ≠ .scan l' := by
    simp only [readerStep, hr]
    split <;> exact fun he => by cases he
  simp only [step, hmod]
  refine ⟨fun i hi => ?_, fun l' hl' => absurd hl' (hread l')⟩
  simp only [cleanIteration_status] at hi
  split at hi
  next => exact absurd hi Bool.false_ne_true
  next hne =>
    refine (h.slots i hi).congr fun b hb => ?_
    rw [cleanIteration]
    split
    next c hc =>
      have hci : c.val ≠ i.val := by
        intro he
        exact hne (hc.trans (congrArg some (Fin.ext he)))
      dsimp only
      rw [memset, memcpy_block_ne _ _ hci (Nat.le_refl _) hb]
    next => rfl

theorem contents_reader {s : System} (hinv : Inv s) (h : Contents s) (off : BitVec 64) (ok : Bool) :
    Contents (step s (.reader off ok)) := by
  cases hr : s.reader with
  | idle => exact contents_idle h hr off ok
  | scan l => exact contents_scan hinv h hr off ok
  | clean copied k => exact contents_clean h hr off ok

end PacketIntercept.CacheContents
