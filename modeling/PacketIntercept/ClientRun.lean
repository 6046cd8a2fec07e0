import PacketIntercept.EventualLogging

namespace PacketIntercept.ClientRun

open ByteMemory CyclicSlots Common LogBuffs RxHandler TrackedCache HandOver Client
open UserProcessing CausalOrder Delivery EventualLogging Runs

/-- The variables of the client's main loop: reads counts the calls of
get_nsecs, and datagrams lists what was given to sendto. -/
structure Sender where
  uid : UInt64
  countI : UInt64
  reads : Nat
  datagrams : List (List UInt8)

def datagram (uid created : Nat) : List UInt8 :=
  (List.range sizeofPayload).map (clientPayload uid created)

/-- The clock is the sequence of the values get_nsecs returns. -/
def send (clock : Nat → UInt64) (c : Sender) : Sender where
  uid := c.uid + 1
  countI := c.countI + 1
  reads := c.reads + 1
  datagrams := c.datagrams ++ [datagram c.uid.toNat (clock c.reads).toNat]

/-- MAX_LOG_ENTRY/((stop-start)/1000000UL); none is the division by zero. -/
def rate (start stop : UInt64) : Option Nat :=
  if (stop - start) / 1000000 = 0 then none else some (maxLogEntry / ((stop - start) / 1000000).toNat)

def mainLoop (clock : Nat → UInt64) : Nat → Sender → Option (Sender × Option Nat)
  | 0, _ => none
  | fuel + 1, c =>
      if maxLogEntry < c.uid.toNat then some (c, rate (clock 1) (clock c.reads))
      else mainLoop clock fuel (send clock c)

/-- begin_sent and start are read before the loop. -/
def main (clock : Nat → UInt64) (fuel : Nat) : Option (Sender × Option Nat) :=
  mainLoop clock fuel ⟨0, 0, 2, []⟩

def sentBy (clock : Nat → UInt64) (n : Nat) : Sender where
  uid := UInt64.ofNat n
  countI := UInt64.ofNat n
  reads := 2 + n
  datagrams := (List.range n).map fun u => datagram u (clock (2 + u)).toNat

theorem sentBy_datagrams (clock : Nat → UInt64) (n : Nat) :
    (sentBy clock n).datagrams = (List.range n).map fun u => datagram u (clock (2 + u)).toNat := rfl

theorem main_eq (clock : Nat → UInt64) (fuel : Nat) :
    main clock fuel = mainLoop clock fuel (sentBy clock 0) := rfl

theorem send_sentBy (clock : Nat → UInt64) {n : Nat} (hn : n < 2 ^ 64) :
    send clock (sentBy clock n) = sentBy clock (n + 1) := by
  have hu : (UInt64.ofNat n).toNat = n := UInt64.toNat_ofNat_of_lt' hn
  simp only [send, sentBy, hu, UInt64.ofNat_add, List.range_succ, List.map_append, List.map_cons,
    List.map_nil, Nat.add_assoc]
  rfl

theorem mainLoop_sentBy (clock : Nat → UInt64) (n fuel : Nat) (hn : n + fuel = maxLogEntry + 2) :
    mainLoop clock fuel (sentBy clock n) = if n ≤ maxLogEntry + 1 then
      some (sentBy clock (maxLogEntry + 1), rate (clock 1) (clock (2 + (maxLogEntry + 1)))) else none := by
  have hmax := maxLogEntry_eq
  induction fuel generalizing n with
  | zero => rw [mainLoop, if_neg (by omega)]
  | succ fuel ih =>
      have hu : (sentBy clock n).uid.toNat = n := UInt64.toNat_ofNat_of_lt' (by
        show n < 2 ^ 64
        omega)
      rw [mainLoop, hu]
      by_cases hlast : maxLogEntry < n
      · have he : n = maxLogEntry + 1 := by omega
        rw [if_pos hlast, if_pos (by omega), he]
        rfl
      · rw [if_neg hlast, send_sentBy clock (by omega), ih (n + 1) (by omega), if_pos (by omega),
          if_pos (by omega)]

theorem mainLoop_more (clock : Nat → UInt64) {fuel : Nat} {c : Sender} {r : Sender × Option Nat}
    (h : mainLoop clock fuel c = some r) (more : Nat) : mainLoop clock (fuel + more) c = some r := by
  induction fuel generalizing c with
  | zero => cases h
  | succ fuel ih =>
      rw [Nat.succ_add, mainLoop]
      rw [mainLoop] at h
      split at h
      next hlast => rw [if_pos hlast, h]
      next hlast => rw [if_neg hlast, ih h]

/-- Whatever the clock says, the client sends one datagram for each uid up to
and including MAX_LOG_ENTRY, in order, and then ends, either with the rate or,
if sending took less than a millisecond, in a division by zero. -/
theorem client_sends_each_uid_once (clock : Nat → UInt64) (fuel : Nat) (hfuel : maxLogEntry + 2 ≤ fuel) :
    ∃ c r, main clock fuel = some (c, r) ∧
      c.datagrams = ((List.range (maxLogEntry + 1)).map fun u => datagram u (clock (2 + u)).toNat) ∧
      (r = none ↔ (clock (maxLogEntry + 3) - clock 1).toNat < 1000000) := by
  have hrun := mainLoop_sentBy clock 0 (maxLogEntry + 2) (Nat.zero_add _)
  rw [if_pos (Nat.zero_le _)] at hrun
  have hmore := mainLoop_more clock hrun (fuel - (maxLogEntry + 2))
  rw [Nat.add_sub_cancel' hfuel] at hmore
  rw [main_eq]
  refine ⟨_, _, hmore, sentBy_datagrams clock _, ?_⟩
  have hdiv : (clock (maxLogEntry + 3) - clock 1) / 1000000 = 0 ↔
      (clock (maxLogEntry + 3) - clock 1).toNat < 1000000 := by
    rw [← UInt64.toNat_inj, UInt64.toNat_div]
    show _ / 1000000 = 0 ↔ _
    omega
  rw [← hdiv, show 2 + (maxLogEntry + 1) = maxLogEntry + 3 by omega, rate]
  split
  next h0 => simp [h0]
  next h0 => simp [h0]

theorem client_rate_example :
    ∃ c r, main (fun n => UInt64.ofNat (n * 1000)) (maxLogEntry + 2) = some (c, r) ∧
      c.datagrams.length = maxLogEntry + 1 := by
  obtain ⟨c, r, hmain, hd, _⟩ := client_sends_each_uid_once (fun n => UInt64.ofNat (n * 1000))
    (maxLogEntry + 2) (Nat.le_refl _)
  refine ⟨c, r, hmain, ?_⟩
  rw [hd, List.length_map, List.length_range]

/-- An IPv4 packet without options that carries a datagram to DEST_PORT. -/
structure Carries (pkt : Skb) (d : List UInt8) : Prop where
  version : pkt.version = 4
  ihl : pkt.ihl = 5
  protocol : pkt.protocol = 17
  transportHeader : pkt.transportHeader = 20
  dest : pkt.dest = destPort
  udpLen : pkt.udpLen = 8 + d.length
  len : pkt.len = 28 + d.length
  payload : ∀ b, b < d.length → pkt.data (28 + b) = d.getD b 0

def packets (events : List Event) : List Skb :=
  events.filterMap fun
    | .packet pkt => some pkt
    | _ => none

/-- A frame that comes finds a free slot, and no packet waits where it runs to. -/
def HasRoom (s : State) : Event → Prop
  | .packet pkt => Spaced pkt s.sys.cache.module ∧ ∃ i, s.sys.cache.module.status i = false
  | _ => True

theorem carries_client {pkt : Skb} {u created : Nat} (h : Carries pkt (datagram u created)) :
    IsClientPacket pkt u created := by
  have hlen : (datagram u created).length = sizeofPayload := by
    rw [datagram, List.length_map, List.length_range]
  refine ⟨h.version, h.ihl, h.protocol, h.transportHeader, h.dest, hlen ▸ h.udpLen, hlen ▸ h.len, ?_⟩
  intro b hb
  rw [h.payload b (by rw [hlen]; exact hb), datagram, List.getD_eq_getElem?_getD, List.getElem?_map,
    List.getElem?_range hb]
  rfl

theorem main_datagrams {clock : Nat → UInt64} {fuel : Nat} {c : Sender} {r : Option Nat}
    (h : main clock fuel = some (c, r)) :
    c.datagrams = (List.range (maxLogEntry + 1)).map fun u => datagram u (clock (2 + u)).toNat := by
  have hrun := mainLoop_sentBy clock 0 (maxLogEntry + 2) (Nat.zero_add _)
  rw [if_pos (Nat.zero_le _)] at hrun
  have hmore := mainLoop_more clock hrun fuel
  rw [main_eq] at h
  have hother := mainLoop_more clock h (maxLogEntry + 2)
  rw [Nat.add_comm fuel, hmore, Option.some.injEq, Prod.mk.injEq] at hother
  rw [← hother.1]
  exact sentBy_datagrams clock _

theorem uids_eq_map (events : List Event) : uids events = (packets events).map Skb.uid := by
  rw [uids, packets, List.map_filterMap]
  congr 1
  funext e
  cases e <;> rfl

/-- While there is room every frame that comes is stored. -/
theorem stored_run (events : List Event) (s : State)
    (hp : ∀ pkt ∈ packets events, pkt.passesFilter = true)
    (hroom : Along UserProcessing.step HasRoom s events) :
    (run UserProcessing.step s events).sys.cache.stored = s.sys.cache.stored ++ packets events := by
  induction events generalizing s with
  | nil => simp [packets]
  | cons e events ih =>
      obtain ⟨hhead, htail⟩ := hroom
      rw [run_cons, ih _ (fun pkt hm => hp pkt ?_) htail]
      · cases e with
        | tick d => rfl
        | user ok => rw [stored_user]; rfl
        | packet pkt =>
            obtain ⟨_, i, hi⟩ := hhead
            have hpass := hp pkt (by simp [packets])
            have hstored : (s.sys.cache.arrive s.clock pkt).stored = s.sys.cache.stored ++ [pkt] := by
              rcases arrive_cases s.clock pkt s.sys.cache with ⟨hnone, _⟩ | ⟨_, _, _, hst, _⟩
              · rw [claimedSlot, if_pos hpass, freeSlot_eq_none] at hnone
                rw [hnone i] at hi
                cases hi
              · exact hst
            simp only [UserProcessing.step, HandOver.step, hstored, packets, List.filterMap_cons,
              List.append_assoc, List.singleton_append]
      · cases e with
        | tick d => exact hm
        | user ok => exact hm
        | packet pkt' => exact List.mem_cons_of_mem _ hm

/-- What the network leaves of the client's datagrams are valid packets, and
their uids are those the client has sent. -/
theorem client_packets {clock : Nat → UInt64} (hclock : ∀ n, clock n ≠ 0) {pkts : List Skb} {n : Nat}
    (hn : n ≤ 2 ^ 64) (hcarry : List.Forall₂ Carries pkts (sentBy clock n).datagrams) :
    (∀ pkt ∈ pkts, IsValidPacket pkt) ∧ pkts.map Skb.uid = List.range n := by
  rw [sentBy_datagrams, List.forall₂_map_right_iff] at hcarry
  have hvalid : List.Forall₂ (fun pkt u => IsValidPacket pkt ∧ pkt.uid = u) pkts (List.range n) := by
    rw [List.forall₂_iff_get] at hcarry ⊢
    refine ⟨hcarry.1, fun i hi hi' => ?_⟩
    have hc := carries_client (hcarry.2 i hi hi')
    have hlt : (List.range n).get ⟨i, hi'⟩ < n := List.mem_range.mp (List.get_mem _ _)
    have hcreated := (clock (2 + (List.range n).get ⟨i, hi'⟩)).toNat_lt
    refine ⟨⟨_, _, hc, by omega, hcreated, ?_⟩, hc.uid_eq (by omega) hcreated⟩
    intro h0
    exact hclock _ (UInt64.toNat_inj.mp h0)
  rw [List.forall₂_and_left] at hvalid
  refine ⟨hvalid.1, ?_⟩
  rw [← List.forall₂_eq_eq_eq, List.forall₂_map_left_iff]
  exact hvalid.2

/-- The client and the machine under test together: if the network loses and
repeats none of the client's datagrams, in whatever order they come, and each
finds room in the cache, then in the end the module and user-processing have
both logged every uid below MAX_LOG_ENTRY. -/
theorem lossless_run_is_complete (clock : Nat → UInt64) (hclock : ∀ n, clock n ≠ 0) (fuel : Nat)
    (c : Sender) (r : Option Nat) (hmain : main clock fuel = some (c, r)) (kmLog log : Log)
    (outside : Mem) (events : List Event) (pkts : List Skb)
    (hcarry : List.Forall₂ Carries pkts c.datagrams) (harrive : (packets events).Perm pkts)
    (hroom : Along UserProcessing.step HasRoom (UserProcessing.start kmLog log outside) events) :
    ∃ n, ∀ k, k < maxLogEntry → LoggedTwice
      (run UserProcessing.step (UserProcessing.start kmLog log outside) (events ++ left n)) k := by
  have hmax := maxLogEntry_eq
  rw [main_datagrams hmain, ← sentBy_datagrams] at hcarry
  obtain ⟨hpkts, huids⟩ := client_packets hclock (by omega) hcarry
  have hpackets : ∀ pkt ∈ packets events, IsValidPacket pkt :=
    fun pkt hm => hpkts pkt (harrive.mem_iff.mp hm)
  have hmap : ((packets events).map Skb.uid).Perm (List.range (maxLogEntry + 1)) :=
    huids ▸ harrive.map Skb.uid
  have hvalid : ∀ e ∈ events, IsValidEvent e := by
    intro e he
    cases e with
    | tick d => trivial
    | packet pkt => exact hpackets pkt (List.mem_filterMap.mpr ⟨_, he, rfl⟩)
    | user ok => trivial
  have honce : (uids events).Nodup := by
    rw [uids_eq_map]
    exact hmap.nodup_iff.mpr List.nodup_range
  have hspaced : Along UserProcessing.step SpacedEvent (UserProcessing.start kmLog log outside) events := by
    refine along_mono (fun s e hr => ?_) events hroom
    cases e with
    | tick d => trivial
    | packet pkt => exact hr.1
    | user ok => trivial
  have hstored := stored_run events (UserProcessing.start kmLog log outside) (by
    intro pkt hm
    obtain ⟨uid, created, hc, _⟩ := hpackets pkt hm
    exact hc.passesFilter) hroom
  obtain ⟨n, hn⟩ := eventually_logged kmLog log outside events hvalid honce hspaced
  refine ⟨n, fun k hk => ?_⟩
  have hmem : k ∈ (packets events).map Skb.uid :=
    hmap.mem_iff.mpr (List.mem_range.mpr (Nat.lt_succ_of_lt hk))
  obtain ⟨pkt, hm, rfl⟩ := List.mem_map.mp hmem
  rw [run_append]
  refine hn pkt ?_ hk
  rw [hstored]
  exact List.mem_append_right _ hm

/-- Read to the end after each frame, user-processing always leaves room. -/
theorem room_when_drained (pkts : List Skb) (h : ∀ pkt ∈ pkts, IsValidPacket pkt) {s : State}
    (hacc : Accounted s) (hempty : PacketAccounts.waiting s.sys.cache.module = ∅) :
    ∃ events, packets events = pkts ∧ Along UserProcessing.step HasRoom s events := by
  induction pkts generalizing s with
  | nil => exact ⟨[], rfl, trivial⟩
  | cons pkt pkts ih =>
      have hfree (i : Slot) : s.sys.cache.module.status i = false := by
        rw [← Bool.not_eq_true, ← PacketAccounts.mem_waiting, hempty]
        exact Finset.notMem_empty i
      have hsp : Spaced pkt s.sys.cache.module := fun _ _ j _ _ => hfree j
      have hnext := accounted_packet hacc (h pkt (by simp)) hsp
      obtain ⟨n, _, hacc', hempty'⟩ := drains _ hnext (Nat.le_refl _)
      obtain ⟨events, hp, hr⟩ := ih (fun q hq => h q (by simp [hq])) hacc' hempty'
      refine ⟨.packet pkt :: (left n ++ events), ?_, ⟨hsp, ⟨0, by decide⟩, hfree _⟩, ?_⟩
      · have hleft : packets (left n) = [] := List.filterMap_replicate_of_none rfl
        have happ : packets (left n ++ events) = packets (left n) ++ packets events :=
          List.filterMap_append
        rw [← hp, ← List.nil_append (packets events), ← hleft, ← happ]
        rfl
      · rw [along_append]
        refine ⟨along_of_forall _ (fun e he s => ?_) _, hr⟩
        rw [List.eq_of_mem_replicate he]
        trivial

theorem clientSkb_carries (u created : Nat) : Carries (clientSkb u created) (datagram u created) := by
  have hc := clientSkb_isClientPacket u created
  have hlen : (datagram u created).length = sizeofPayload := by
    rw [datagram, List.length_map, List.length_range]
  refine ⟨hc.version, hc.ihl, hc.protocol, hc.transportHeader, hc.dest, hlen ▸ hc.udpLen,
    hlen ▸ hc.len, ?_⟩
  intro b hb
  rw [hlen] at hb
  rw [hc.payload b hb, datagram, List.getD_eq_getElem?_getD, List.getElem?_map,
    List.getElem?_range hb]
  rfl

theorem lossless_run_exists :
    ∃ events n, ∀ k, k < maxLogEntry → LoggedTwice (run UserProcessing.step
      (UserProcessing.start (fun _ _ => 0) (fun _ _ => 0) fun _ => 255) (events ++ left n)) k := by
  have hmax := maxLogEntry_eq
  have hrun := mainLoop_sentBy (fun _ => 5) 0 (maxLogEntry + 2) (Nat.zero_add _)
  rw [if_pos (Nat.zero_le _), ← main_eq] at hrun
  have hcarry : List.Forall₂ Carries ((List.range (maxLogEntry + 1)).map fun u => clientSkb u 5)
      (sentBy (fun _ => 5) (maxLogEntry + 1)).datagrams := by
    rw [sentBy_datagrams, List.forall₂_map_left_iff, List.forall₂_map_right_iff, List.forall₂_same]
    intro u _
    exact clientSkb_carries u 5
  have hfive : (5 : UInt64) ≠ 0 := by decide
  have hclock : ∀ n : Nat, (fun _ => 5 : Nat → UInt64) n ≠ 0 := fun _ => hfive
  have hvalid := (client_packets hclock (by omega) hcarry).1
  obtain ⟨events, hp, hroom⟩ := room_when_drained _ hvalid
    (accounted_start (fun _ _ => 0) (fun _ _ => 0) fun _ => 255) (by
      rw [Finset.eq_empty_iff_forall_notMem]
      intro i hi
      exact Bool.noConfusion (PacketAccounts.mem_waiting.mp hi))
  obtain ⟨n, hn⟩ := lossless_run_is_complete (fun _ => 5) hclock (maxLogEntry + 2) _ _
    hrun (fun _ _ => 0) (fun _ _ => 0) (fun _ => 255) events _ hcarry (hp ▸ List.Perm.refl _) hroom
  exact ⟨events, n, hn⟩

end PacketIntercept.ClientRun
