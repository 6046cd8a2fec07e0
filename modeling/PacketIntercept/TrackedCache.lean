import PacketIntercept.ReadProc
import PacketIntercept.Runs

namespace PacketIntercept.TrackedCache

open ByteMemory CyclicSlots Common LogBuffs RxHandler

/-- The module together with its history: stored lists the packets that got a
slot, in order of arrival, and owner gives for every slot the position in
stored of the packet that claimed it last. That position identifies the packet. -/
structure Cache where
  module : Module
  stored : List Skb
  owner : Slot → Nat

def claimedSlot (pkt : Skb) (m : Module) : Option Slot :=
  if pkt.passesFilter then m.freeSlot else none

def Cache.arrive (now : Nat) (pkt : Skb) (c : Cache) : Cache :=
  match claimedSlot pkt c.module with
  | some i =>
      ⟨rxhPacketIn now pkt c.module, c.stored ++ [pkt],
        Function.update c.owner i c.stored.length⟩
  | none => { c with module := rxhPacketIn now pkt c.module }

def Cache.empty (log : Log) (outside : Mem) : Cache := ⟨loaded log outside, [], fun _ => 0⟩

def Cache.cached (c : Cache) (p : Nat) : Prop := ∃ i, c.module.status i = true ∧ c.owner i = p

/-- Different occupied slots belong to different packets that were stored. -/
structure Owned (c : Cache) : Prop where
  owner_lt : ∀ i, c.module.status i = true → c.owner i < c.stored.length
  owner_inj : ∀ i j, c.module.status i = true → c.module.status j = true →
    c.owner i = c.owner j → i = j

theorem arrive_module (now : Nat) (pkt : Skb) (c : Cache) :
    (c.arrive now pkt).module = rxhPacketIn now pkt c.module := by
  rw [Cache.arrive]
  split <;> rfl

theorem arrive_cases (now : Nat) (pkt : Skb) (c : Cache) :
    (claimedSlot pkt c.module = none ∧ (c.arrive now pkt).stored = c.stored ∧
      (c.arrive now pkt).owner = c.owner ∧
      (c.arrive now pkt).module.status = c.module.status ∧
      (c.arrive now pkt).module.currentIndex = c.module.currentIndex ∧
      (c.arrive now pkt).module.buffFromHere = c.module.buffFromHere) ∨
    (∃ i, claimedSlot pkt c.module = some i ∧ c.module.status i = false ∧
      (c.arrive now pkt).stored = c.stored ++ [pkt] ∧
      (c.arrive now pkt).owner = Function.update c.owner i c.stored.length ∧
      (c.arrive now pkt).module.status = Function.update c.module.status i true ∧
      (c.arrive now pkt).module.currentIndex = shift i 1 ∧
      (c.arrive now pkt).module.buffFromHere = memcpy c.module.buffFromHere
        (i.val * pktBufferSize) (fun b => pkt.data (28 + b)) pkt.copyLen) := by
  rcases rxhPacketIn_cases now pkt c.module with ⟨hp, h⟩ | ⟨hp, hf, h⟩ | ⟨hp, i, hf, h⟩
  · left
    have hc : claimedSlot pkt c.module = none := by simp [claimedSlot, hp]
    rw [arrive_module, h]
    simp [Cache.arrive, hc]
  · left
    have hc : claimedSlot pkt c.module = none := by simp [claimedSlot, hp, hf]
    rw [arrive_module, h]
    simp [Cache.arrive, hc, writeLog]
  · right
    have hc : claimedSlot pkt c.module = some i := by simp [claimedSlot, hp, hf]
    refine ⟨i, hc, freeSlot_free hf, ?_⟩
    rw [arrive_module, h]
    simp [Cache.arrive, hc]

theorem owned_empty (log : Log) (outside : Mem) : Owned (Cache.empty log outside) :=
  ⟨fun i h => by simp [Cache.empty, loaded] at h, fun i j h => by simp [Cache.empty, loaded] at h⟩

theorem owned_arrive {c : Cache} (h : Owned c) (now : Nat) (pkt : Skb) :
    Owned (c.arrive now pkt) := by
  rcases arrive_cases now pkt c with ⟨_, hst, ho, hs, _⟩ | ⟨i, _, _, hst, ho, hs, _⟩
  · exact ⟨by rw [hst, ho, hs]; exact h.owner_lt, by rw [ho, hs]; exact h.owner_inj⟩
  · constructor
    · intro j hj
      rw [hs] at hj
      rw [hst, ho, List.length_append, List.length_singleton]
      by_cases hji : j = i
      · simp [hji]
      · rw [Function.update_of_ne hji] at hj ⊢
        exact Nat.lt_succ_of_lt (h.owner_lt j hj)
    · intro j k hj hk he
      rw [hs] at hj hk
      rw [ho] at he
      by_cases hji : j = i <;> by_cases hki : k = i
      · rw [hji, hki]
      · subst j
        rw [Function.update_of_ne hki] at hk he
        rw [Function.update_self] at he
        exact absurd (h.owner_lt k hk) (by omega)
      · subst k
        rw [Function.update_of_ne hji] at hj he
        rw [Function.update_self] at he
        exact absurd (h.owner_lt j hj) (by omega)
      · rw [Function.update_of_ne hji] at hj he
        rw [Function.update_of_ne hki] at hk he
        exact h.owner_inj j k hj hk he

theorem owned_of_status_le {c : Cache} (h : Owned c) {m : Module}
    (hm : ∀ i, m.status i = true → c.module.status i = true) : Owned { c with module := m } :=
  ⟨fun i hi => h.owner_lt i (hm i hi), fun i j hi hj => h.owner_inj i j (hm i hi) (hm j hj)⟩

theorem arrive_keeps {c : Cache} (now : Nat) (pkt : Skb) {i : Slot}
    (hi : c.module.status i = true) :
    (c.arrive now pkt).module.status i = true ∧ (c.arrive now pkt).owner i = c.owner i := by
  rcases arrive_cases now pkt c with ⟨_, _, ho, hs, _⟩ | ⟨j, _, hfree, _, ho, hs, _⟩
  · rw [hs, ho]
    exact ⟨hi, rfl⟩
  · have hij : i ≠ j := by
      rintro rfl
      rw [hi] at hfree
      exact Bool.noConfusion hfree
    rw [hs, ho, Function.update_of_ne hij, Function.update_of_ne hij]
    exact ⟨hi, rfl⟩

theorem arrive_extends (now : Nat) (pkt : Skb) (c : Cache) :
    c.stored <+: (c.arrive now pkt).stored := by
  rcases arrive_cases now pkt c with ⟨_, hst, _⟩ | ⟨i, _, _, hst, _⟩
  · exact hst.symm ▸ List.prefix_refl c.stored
  · exact hst.symm ▸ List.prefix_append c.stored [pkt]

end PacketIntercept.TrackedCache
