import PacketIntercept.HandOver
import Mathlib.Data.Fintype.Basic
import Mathlib.Data.Finset.Card

namespace PacketIntercept.PacketAccounts

open ByteMemory Common LogBuffs RxHandler ReadProc TrackedCache HandOver Runs

def passes : Act → Bool
  | .packet _ pkt => pkt.passesFilter
  | .reader _ _ => false

/-- The frames of a run that get past the filter. -/
def accepted (acts : List Act) : Nat := acts.countP passes

def waiting (m : Module) : Finset Slot := Finset.univ.filter fun i => m.status i = true

theorem mem_waiting {m : Module} {i : Slot} : i ∈ waiting m ↔ m.status i = true := by
  simp [waiting]

structure Counted (past : List Act) (s : System) : Prop where
  stored_le : s.cache.stored.length ≤ accepted past
  countPkt : s.cache.module.countPkt = UInt64.ofNat (accepted past)
  countPktOverflow : s.cache.module.countPktOverflow =
    UInt64.ofNat (accepted past - s.cache.stored.length)

theorem counted_start (log : Log) (outside : Mem) : Counted [] (start log outside) :=
  ⟨Nat.le_refl 0, rfl, rfl⟩

theorem accepted_snoc (past : List Act) (act : Act) :
    accepted (past ++ [act]) = accepted past + if passes act then 1 else 0 := by
  rw [accepted, accepted, List.countP_append, List.countP_singleton]

theorem readerStep_counters (off : BitVec 64) (ok : Bool) (m : Module) (r : Reader) :
    (readerStep off ok (m, r)).1.countPkt = m.countPkt ∧
      (readerStep off ok (m, r)).1.countPktOverflow = m.countPktOverflow := by
  cases r with
  | idle =>
      rw [readerStep]
      split <;> exact ⟨rfl, rfl⟩
  | scan l =>
      obtain ⟨temp, he⟩ := scanIteration_frame m l
      rw [readerStep]
      split
      · rw [he]
        exact ⟨rfl, rfl⟩
      · split <;> exact ⟨rfl, rfl⟩
  | clean copied k =>
      rw [readerStep, cleanIteration]
      split <;> exact ⟨rfl, rfl⟩

theorem counted_packet {past : List Act} {s : System} (h : Counted past s) (now : Nat) (pkt : Skb) :
    Counted (past ++ [.packet now pkt]) (step s (.packet now pkt)) := by
  have hle := h.stored_le
  have hacc := accepted_snoc past (.packet now pkt)
  have hmod : (step s (.packet now pkt)).cache.module = rxhPacketIn now pkt s.cache.module :=
    arrive_module now pkt s.cache
  rcases rxhPacketIn_cases now pkt s.cache.module with ⟨hp, he⟩ | ⟨hp, hf, he⟩ | ⟨hp, i, hf, he⟩
  · have hst : (step s (.packet now pkt)).cache.stored = s.cache.stored := by
      simp [step, Cache.arrive, claimedSlot, hp]
    rw [show passes (.packet now pkt) = false from hp, if_neg Bool.false_ne_true, Nat.add_zero] at hacc
    refine ⟨?_, ?_, ?_⟩
    · rw [hst, hacc]
      exact hle
    · rw [hmod, he, hacc]
      exact h.countPkt
    · rw [hst, hmod, he, hacc]
      exact h.countPktOverflow
  · have hst : (step s (.packet now pkt)).cache.stored = s.cache.stored := by
      simp [step, Cache.arrive, claimedSlot, hp, hf]
    rw [show passes (.packet now pkt) = true from hp, if_pos rfl] at hacc
    refine ⟨?_, ?_, ?_⟩
    · rw [hst, hacc]
      exact Nat.le_succ_of_le hle
    · rw [hmod, he, hacc, UInt64.ofNat_add]
      exact congrArg (· + 1) h.countPkt
    · rw [hst, hmod, he, hacc, Nat.sub_add_comm hle, UInt64.ofNat_add]
      exact congrArg (· + 1) h.countPktOverflow
  · have hst : (step s (.packet now pkt)).cache.stored = s.cache.stored ++ [pkt] := by
      simp [step, Cache.arrive, claimedSlot, hp, hf]
    rw [show passes (.packet now pkt) = true from hp, if_pos rfl] at hacc
    refine ⟨?_, ?_, ?_⟩
    · rw [hst, hacc, List.length_append, List.length_singleton]
      exact Nat.succ_le_succ hle
    · rw [hmod, he, hacc, UInt64.ofNat_add]
      exact congrArg (· + 1) h.countPkt
    · rw [hst, hacc, List.length_append, List.length_singleton, Nat.add_sub_add_right, hmod, he]
      dsimp only [writeLog]
      exact h.countPktOverflow

theorem counted_step (past : List Act) (s : System) (act : Act) (_ : True) (h : Counted past s) :
    Counted (past ++ [act]) (step s act) := by
  cases act with
  | packet now pkt => exact counted_packet h now pkt
  | reader off ok =>
      have hacc : accepted (past ++ [.reader off ok]) = accepted past := by
        rw [accepted_snoc]
        exact Nat.add_zero _
      obtain ⟨hc, ho⟩ := readerStep_counters off ok s.cache.module s.reader
      refine ⟨?_, ?_, ?_⟩
      · rw [hacc]
        exact h.stored_le
      · rw [hacc]
        exact hc.trans h.countPkt
      · rw [hacc]
        exact ho.trans h.countPktOverflow

theorem counted_run (log : Log) (outside : Mem) (acts : List Act) :
    Counted acts (run step (start log outside) acts) :=
  run_history (counted_start log outside) counted_step acts fun _ _ => trivial

/-- The packets that were stored are those handed over and, apart from them,
those in occupied slots. -/
theorem stored_split {s : System} (h : Inv s) :
    s.cache.stored.length = s.handed.flatten.length +
      ((waiting s.cache.module).filter fun i => s.cache.owner i ∉ s.handed.flatten).card := by
  have hinj : Set.InjOn s.cache.owner
      ((waiting s.cache.module).filter fun i => s.cache.owner i ∉ s.handed.flatten) := by
    intro i hi j hj he
    rw [Finset.mem_coe, Finset.mem_filter, mem_waiting] at hi hj
    exact h.owned.owner_inj i j hi.1 hj.1 he
  have hrange : Finset.range s.cache.stored.length = s.handed.flatten.toFinset ∪
      ((waiting s.cache.module).filter fun i => s.cache.owner i ∉ s.handed.flatten).image
        s.cache.owner := by
    ext p
    rw [Finset.mem_range, Finset.mem_union, List.mem_toFinset, Finset.mem_image]
    constructor
    · intro hp
      by_cases hh : p ∈ s.handed.flatten
      · exact .inl hh
      · rcases h.no_loss p hp with ⟨i, hi, rfl⟩ | hm
        · exact .inr ⟨i, Finset.mem_filter.mpr ⟨mem_waiting.mpr hi, hh⟩, rfl⟩
        · exact .inl hm
    · rintro (hh | ⟨i, hi, rfl⟩)
      · exact h.handed_lt p hh
      · exact h.owned.owner_lt i (mem_waiting.mp (Finset.mem_filter.mp hi).1)
  have hdisj : Disjoint s.handed.flatten.toFinset
      (((waiting s.cache.module).filter fun i => s.cache.owner i ∉ s.handed.flatten).image
        s.cache.owner) := by
    rw [Finset.disjoint_left]
    intro p hp hm
    obtain ⟨i, hi, rfl⟩ := Finset.mem_image.mp hm
    exact (Finset.mem_filter.mp hi).2 (List.mem_toFinset.mp hp)
  have hcard := congrArg Finset.card hrange
  rwa [Finset.card_range, Finset.card_union_of_disjoint hdisj,
    List.toFinset_card_of_nodup h.handed_nodup, Finset.card_image_of_injOn hinj] at hcard

/-- Unless a clean-up is running no occupied slot has been handed over. -/
theorem waiting_not_handed {s : System} (h : Inv s) (hr : ∀ copied k, s.reader ≠ .clean copied k) :
    ((waiting s.cache.module).filter fun i => s.cache.owner i ∉ s.handed.flatten) =
      waiting s.cache.module := by
  rw [Finset.filter_eq_self]
  exact fun i hi => not_handed h hr (mem_waiting.mp hi)

/-- What the module's counters say when it is unloaded: in every interleaving
count_pkt counts the frames that got past the filter, count_pkt_overflow those
that found no slot, and all others were handed over once or are still cached. -/
theorem frames_accounted_for (log : Log) (outside : Mem) (acts : List Act) :
    let s := run step (start log outside) acts
    s.cache.module.countPkt.toNat = accepted acts % 2 ^ 64 ∧
    s.cache.stored.length ≤ accepted acts ∧
    s.cache.module.countPktOverflow.toNat = (accepted acts - s.cache.stored.length) % 2 ^ 64 ∧
    s.cache.stored.length = s.handed.flatten.length +
      ((waiting s.cache.module).filter fun i => s.cache.owner i ∉ s.handed.flatten).card ∧
    ((∀ copied k, s.reader ≠ .clean copied k) → accepted acts =
      (accepted acts - s.cache.stored.length) + s.handed.flatten.length +
        (waiting s.cache.module).card) := by
  intro s
  have hc : Counted acts s := counted_run log outside acts
  have hinv : Inv s := inv_run log outside acts
  have hsplit := stored_split hinv
  have hle := hc.stored_le
  refine ⟨?_, hle, ?_, hsplit, fun hr => ?_⟩
  · rw [hc.countPkt, UInt64.toNat_ofNat']
  · rw [hc.countPktOverflow, UInt64.toNat_ofNat']
  · rw [waiting_not_handed hinv hr] at hsplit
    omega

end PacketIntercept.PacketAccounts
