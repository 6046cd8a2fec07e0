import Mathlib.Data.List.Induction
import Mathlib.Data.List.Nodup
import PacketIntercept.Runs

namespace PacketIntercept.RxRegistration

open Runs

inductive Handler
  | rxhPacketIn
  | other (owner : Nat)
deriving DecidableEq

structure Device where
  ifindex : Nat
  name : String
  noRxHandler : Bool
  rxHandler : Option Handler
deriving DecidableEq

def ebusy : Int := 16
def einval : Int := 22

/-- The kernel lets a device have one handler, and some devices none. -/
def netdevRxHandlerRegister (d : Device) (h : Handler) : Int × Device :=
  if d.rxHandler.isSome then (-ebusy, d)
  else if d.noRxHandler then (-einval, d)
  else (0, { d with rxHandler := some h })

def netdevRxHandlerUnregister (d : Device) : Device := { d with rxHandler := none }

/-- The loop of both functions: it goes through the devices up to the first called
ens33. -/
def onEns33 (act : Device → Device) : List Device → List Device
  | [] => []
  | d :: ds => if d.name = "ens33" then act d :: ds else d :: onEns33 act ds

/-- An error of the registration is only printed. -/
def registerRxHandlers : List Device → List Device :=
  onEns33 (fun d => (netdevRxHandlerRegister d .rxhPacketIn).2)

def unregisterRxHandlers : List Device → List Device := onEns33 netdevRxHandlerUnregister

structure State where
  devices : List Device
  loaded : Bool

/-- Loading and unloading the module, between whatever else happens to the
machine's devices and their handlers. -/
inductive Event
  | insmod
  | rmmod
  | added (ifindex : Nat) (name : String) (noRxHandler : Bool)
  | removed (ifindex : Nat)
  | renamed (ifindex : Nat) (name : String)
  | claimed (ifindex owner : Nat)
  | released (ifindex owner : Nat)

def Taken (ds : List Device) (ifindex : Nat) (name : String) : Prop :=
  ∃ d ∈ ds, d.ifindex = ifindex ∨ d.name = name

instance (ds : List Device) (ifindex : Nat) (name : String) : Decidable (Taken ds ifindex name) :=
  inferInstanceAs (Decidable (∃ d ∈ ds, _))

def rename (ifindex : Nat) (name : String) (d : Device) : Device :=
  if d.ifindex = ifindex then { d with name := name } else d

def claim (ifindex owner : Nat) (d : Device) : Device :=
  if d.ifindex = ifindex then (netdevRxHandlerRegister d (.other owner)).2 else d

def giveUp (ifindex owner : Nat) (d : Device) : Device :=
  if d.ifindex = ifindex ∧ d.rxHandler = some (.other owner) then netdevRxHandlerUnregister d else d

def step (s : State) : Event → State
  | .insmod => if s.loaded then s else ⟨registerRxHandlers s.devices, true⟩
  | .rmmod => if s.loaded then ⟨unregisterRxHandlers s.devices, false⟩ else s
  | .added ifindex name noRxHandler =>
      if Taken s.devices ifindex name then s
      else { s with devices := s.devices ++ [⟨ifindex, name, noRxHandler, none⟩] }
  | .removed ifindex => { s with devices := s.devices.filter (fun d => d.ifindex ≠ ifindex) }
  | .renamed ifindex name =>
      if ∃ d ∈ s.devices, d.name = name then s
      else { s with devices := s.devices.map (rename ifindex name) }
  | .claimed ifindex owner => { s with devices := s.devices.map (claim ifindex owner) }
  | .released ifindex owner => { s with devices := s.devices.map (giveUp ifindex owner) }

def Device.Ours (d : Device) : Prop := d.rxHandler = some .rxhPacketIn

def Device.Others (d : Device) : Prop := ∃ owner, d.rxHandler = some (.other owner)

/-- A frame on some device would be handed to code that is no longer there. -/
def Stale (s : State) : Prop := s.loaded = false ∧ ∃ d ∈ s.devices, d.Ours

/-- A handler of someone else is gone after the step. -/
def Deprives (s : State) (e : Event) : Prop :=
  ∃ d ∈ s.devices, d.Others ∧ ∃ d' ∈ (step s e).devices, d'.ifindex = d.ifindex ∧ ¬ d'.Others

def Distinct (ds : List Device) : Prop :=
  ds.Pairwise (fun d e => d.ifindex ≠ e.ifindex ∧ d.name ≠ e.name)

def here (act : Device → Device) (d : Device) : Device := if d.name = "ens33" then act d else d

theorem onEns33_eq_map (act : Device → Device) {ds : List Device} (hds : Distinct ds) :
    onEns33 act ds = ds.map (here act) := by
  induction ds with
  | nil => rfl
  | cons d ds ih =>
      obtain ⟨hd, hrest⟩ := List.pairwise_cons.mp hds
      rw [onEns33, List.map_cons, here]
      by_cases hname : d.name = "ens33"
      · have hsame : ds.map (here act) = ds.map id := by
          apply List.map_congr_left
          intro e he
          exact if_neg (fun h => (hd e he).2 (hname.trans h.symm))
        rw [if_pos hname, if_pos hname, hsame, List.map_id]
      · rw [if_neg hname, if_neg hname, ih hrest]

theorem Distinct.eq_of_ifindex {ds : List Device} (hds : Distinct ds) {d e : Device} (hd : d ∈ ds)
    (he : e ∈ ds) (h : d.ifindex = e.ifindex) : d = e := by
  have hnodup : (ds.map Device.ifindex).Nodup := List.pairwise_map.mpr (hds.imp And.left)
  exact List.inj_on_of_nodup_map hnodup hd he h

/-- Changes of single devices that leave their indices and names as they are. -/
theorem Distinct.map {ds : List Device} (hds : Distinct ds) {f : Device → Device}
    (hindex : ∀ d, (f d).ifindex = d.ifindex) (hname : ∀ d, (f d).name = d.name) :
    Distinct (ds.map f) := by
  apply List.Pairwise.map f _ hds
  intro d e hde
  rwa [hindex, hindex, hname, hname]

theorem register_ifindex (d : Device) (h : Handler) : (netdevRxHandlerRegister d h).2.ifindex = d.ifindex := by
  rw [netdevRxHandlerRegister]
  split
  · rfl
  · split <;> rfl

theorem register_name (d : Device) (h : Handler) : (netdevRxHandlerRegister d h).2.name = d.name := by
  rw [netdevRxHandlerRegister]
  split
  · rfl
  · split <;> rfl

theorem unregister_ifindex (d : Device) : (netdevRxHandlerUnregister d).ifindex = d.ifindex := rfl

/-- Registering changes a device only if it had no handler. -/
theorem register_handler (d : Device) (h : Handler) :
    (netdevRxHandlerRegister d h).2.rxHandler = d.rxHandler ∨
      d.rxHandler = none ∧ (netdevRxHandlerRegister d h).2.rxHandler = some h := by
  rw [netdevRxHandlerRegister]
  split
  · exact .inl rfl
  · rename_i hnone
    split
    · exact .inl rfl
    · exact .inr ⟨Option.not_isSome_iff_eq_none.mp hnone, rfl⟩

theorem rename_distinct {ds : List Device} (hds : Distinct ds) (ifindex : Nat) {name : String}
    (hfree : ¬ ∃ d ∈ ds, d.name = name) : Distinct (ds.map (rename ifindex name)) := by
  rw [Distinct, List.pairwise_map]
  apply List.Pairwise.imp_of_mem _ hds
  intro d e hd he hde
  have hnd : d.name ≠ name := fun h => hfree ⟨d, hd, h⟩
  have hne : e.name ≠ name := fun h => hfree ⟨e, he, h⟩
  rw [rename, rename]
  by_cases h1 : d.ifindex = ifindex
  · have h2 : e.ifindex ≠ ifindex := fun h2 => hde.1 (h1.trans h2.symm)
    rw [if_pos h1, if_neg h2]
    exact ⟨hde.1, hne.symm⟩
  · rw [if_neg h1]
    by_cases h2 : e.ifindex = ifindex
    · rw [if_pos h2]
      exact ⟨hde.1, hnd⟩
    · rw [if_neg h2]
      exact hde

theorem here_ifindex {act : Device → Device} (h : ∀ d, (act d).ifindex = d.ifindex) (d : Device) :
    (here act d).ifindex = d.ifindex := by
  rw [here]
  split
  · exact h d
  · rfl

theorem here_name {act : Device → Device} (h : ∀ d, (act d).name = d.name) (d : Device) :
    (here act d).name = d.name := by
  rw [here]
  split
  · exact h d
  · rfl

theorem step_distinct (s : State) (e : Event) (hs : Distinct s.devices) : Distinct (step s e).devices := by
  cases e with
  | insmod =>
      rw [step]
      split
      · exact hs
      · rw [registerRxHandlers, onEns33_eq_map _ hs]
        exact hs.map (here_ifindex (fun d => register_ifindex d _)) (here_name (fun d => register_name d _))
  | rmmod =>
      rw [step]
      split
      · rw [unregisterRxHandlers, onEns33_eq_map _ hs]
        exact hs.map (here_ifindex (fun _ => rfl)) (here_name (fun _ => rfl))
      · exact hs
  | added ifindex name noRxHandler =>
      rw [step]
      split
      · exact hs
      · rename_i hfree
        apply List.pairwise_append.mpr
        refine ⟨hs, List.pairwise_singleton _ _, ?_⟩
        intro d hd e he
        rw [List.mem_singleton] at he
        subst he
        exact ⟨fun h => hfree ⟨d, hd, .inl h⟩, fun h => hfree ⟨d, hd, .inr h⟩⟩
  | removed ifindex => exact hs.sublist List.filter_sublist
  | renamed ifindex name =>
      rw [step]
      split
      · exact hs
      · rename_i hfree
        exact rename_distinct hs ifindex hfree
  | claimed ifindex owner =>
      apply hs.map
      · intro d
        rw [claim]
        split
        · exact register_ifindex d _
        · rfl
      · intro d
        rw [claim]
        split
        · exact register_name d _
        · rfl
  | released ifindex owner =>
      apply hs.map
      · intro d
        rw [giveUp]
        split <;> rfl
      · intro d
        rw [giveUp]
        split <;> rfl

theorem ours_of_same {d d' : Device} (h : d'.rxHandler = d.rxHandler) (ho : d'.Ours) : d.Ours := by
  rw [Device.Ours, ← h]
  exact ho

theorem claim_ours (ifindex owner : Nat) (d : Device) (h : (claim ifindex owner d).Ours) : d.Ours := by
  rw [claim] at h
  split at h
  · rcases register_handler d (.other owner) with hsame | ⟨_, hnew⟩
    · exact ours_of_same hsame h
    · cases hnew.symm.trans h
  · exact h

theorem giveUp_ours (ifindex owner : Nat) (d : Device) (h : (giveUp ifindex owner d).Ours) : d.Ours := by
  rw [giveUp] at h
  split at h
  · cases h
  · exact h

theorem rename_ours (ifindex : Nat) (name : String) (d : Device) (h : (rename ifindex name d).Ours) :
    d.Ours := by
  rw [rename] at h
  split at h
  · exact h
  · exact h

/-- What happens to the devices by itself puts the handler on none of them. -/
def Outside : Event → Prop
  | .insmod => False
  | .rmmod => False
  | _ => True

theorem outside_loaded (s : State) {e : Event} (he : Outside e) : (step s e).loaded = s.loaded := by
  cases e with
  | insmod => exact he.elim
  | rmmod => exact he.elim
  | added ifindex name noRxHandler =>
      rw [step]
      split <;> rfl
  | removed ifindex => rfl
  | renamed ifindex name =>
      rw [step]
      split <;> rfl
  | claimed ifindex owner => rfl
  | released ifindex owner => rfl

theorem outside_ours (s : State) {e : Event} (he : Outside e) {d : Device} (hd : d ∈ (step s e).devices)
    (ho : d.Ours) : ∃ d' ∈ s.devices, d'.Ours := by
  cases e with
  | insmod => exact he.elim
  | rmmod => exact he.elim
  | added ifindex name noRxHandler =>
      rw [step] at hd
      split at hd
      · exact ⟨d, hd, ho⟩
      · rcases List.mem_append.mp hd with hd | hd
        · exact ⟨d, hd, ho⟩
        · rw [List.mem_singleton.mp hd] at ho
          cases ho
  | removed ifindex => exact ⟨d, List.mem_of_mem_filter hd, ho⟩
  | renamed ifindex name =>
      rw [step] at hd
      split at hd
      · exact ⟨d, hd, ho⟩
      · obtain ⟨d', hd', rfl⟩ := List.mem_map.mp hd
        exact ⟨d', hd', rename_ours ifindex name d' ho⟩
  | claimed ifindex owner =>
      obtain ⟨d', hd', rfl⟩ := List.mem_map.mp hd
      exact ⟨d', hd', claim_ours ifindex owner d' ho⟩
  | released ifindex owner =>
      obtain ⟨d', hd', rfl⟩ := List.mem_map.mp hd
      exact ⟨d', hd', giveUp_ours ifindex owner d' ho⟩

/-- Every device with the handler can be found again. -/
def Findable (s : State) : Prop := ∀ d ∈ s.devices, d.Ours → d.name = "ens33"

theorem rmmod_stale {s : State} (hs : Distinct s.devices) (hl : s.loaded = true) :
    ¬ Stale (step s .rmmod) ↔ Findable s := by
  have hdev : (step s .rmmod) = ⟨s.devices.map (here netdevRxHandlerUnregister), false⟩ := by
    rw [step, if_pos hl, unregisterRxHandlers, onEns33_eq_map _ hs]
  rw [hdev]
  constructor
  · intro hclean d hd ho
    by_contra hname
    refine hclean ⟨rfl, d, List.mem_map.mpr ⟨d, hd, if_neg hname⟩, ho⟩
  · rintro hfind ⟨_, d', hd', ho⟩
    obtain ⟨d, hd, rfl⟩ := List.mem_map.mp hd'
    rw [here] at ho
    split at ho
    · cases ho
    · rename_i hname
      exact hname (hfind d hd ho)

theorem rmmod_deprives {s : State} (hs : Distinct s.devices) (hl : s.loaded = true) :
    ¬ Deprives s .rmmod ↔ ∀ d ∈ s.devices, d.name = "ens33" → ¬ d.Others := by
  have hdev : (step s .rmmod).devices = s.devices.map (here netdevRxHandlerUnregister) := by
    rw [step, if_pos hl, unregisterRxHandlers, onEns33_eq_map _ hs]
  rw [Deprives, hdev]
  constructor
  · intro hnone d hd hname ho
    refine hnone ⟨d, hd, ho, here netdevRxHandlerUnregister d, List.mem_map_of_mem hd, ?_, ?_⟩
    · exact here_ifindex unregister_ifindex d
    · rw [here, if_pos hname]
      rintro ⟨owner, h⟩
      cases h
  · rintro hall ⟨d, hd, ho, d', hd', hidx, hno⟩
    obtain ⟨e, he, rfl⟩ := List.mem_map.mp hd'
    rw [here_ifindex unregister_ifindex] at hidx
    obtain rfl := hs.eq_of_ifindex he hd hidx
    rw [here] at hno
    split at hno
    · rename_i hname
      exact hall e he hname ho
    · exact hno ho

theorem insmod_deprives {s : State} (hs : Distinct s.devices) : ¬ Deprives s .insmod := by
  rintro ⟨d, hd, ho, d', hd', hidx, hno⟩
  rw [step] at hd'
  split at hd'
  · obtain rfl := hs.eq_of_ifindex hd' hd hidx
    exact hno ho
  · rw [registerRxHandlers, onEns33_eq_map _ hs] at hd'
    obtain ⟨e, he, rfl⟩ := List.mem_map.mp hd'
    rw [here_ifindex (fun d => register_ifindex d _)] at hidx
    obtain rfl := hs.eq_of_ifindex he hd hidx
    obtain ⟨owner, ho⟩ := ho
    refine hno ⟨owner, ?_⟩
    rw [here]
    split
    · rcases register_handler e .rxhPacketIn with hsame | ⟨hnone, _⟩
      · exact hsame.trans ho
      · cases hnone.symm.trans ho
    · exact ho

/-- The event gives a device with the handler another name. -/
def Hides (s : State) (e : Event) : Prop :=
  ∃ ifindex name, e = .renamed ifindex name ∧ ∃ d ∈ s.devices, d.ifindex = ifindex ∧ d.Ours

theorem step_findable {s : State} (hs : Distinct s.devices) (hf : Findable s) {e : Event}
    (he : ¬ Hides s e) : Findable (step s e) := by
  intro d hd ho
  cases e with
  | insmod =>
      rw [step] at hd
      split at hd
      · exact hf d hd ho
      · rw [registerRxHandlers, onEns33_eq_map _ hs] at hd
        obtain ⟨d', hd', rfl⟩ := List.mem_map.mp hd
        rw [here_name (fun d => register_name d _)]
        by_contra hname
        rw [here, if_neg hname] at ho
        exact hname (hf d' hd' ho)
  | rmmod =>
      rw [step] at hd
      split at hd
      · rw [unregisterRxHandlers, onEns33_eq_map _ hs] at hd
        obtain ⟨d', hd', rfl⟩ := List.mem_map.mp hd
        rw [here] at ho
        split at ho
        · cases ho
        · rename_i hname
          exact absurd (hf d' hd' ho) hname
      · exact hf d hd ho
  | added ifindex name noRxHandler =>
      rw [step] at hd
      split at hd
      · exact hf d hd ho
      · rcases List.mem_append.mp hd with hd | hd
        · exact hf d hd ho
        · rw [List.mem_singleton.mp hd] at ho
          cases ho
  | removed ifindex => exact hf d (List.mem_of_mem_filter hd) ho
  | renamed ifindex name =>
      rw [step] at hd
      split at hd
      · exact hf d hd ho
      · obtain ⟨d', hd', rfl⟩ := List.mem_map.mp hd
        have ho' := rename_ours ifindex name d' ho
        by_cases hidx : d'.ifindex = ifindex
        · exact absurd ⟨ifindex, name, rfl, d', hd', hidx, ho'⟩ he
        · rw [rename, if_neg hidx]
          exact hf d' hd' ho'
  | claimed ifindex owner =>
      obtain ⟨d', hd', rfl⟩ := List.mem_map.mp hd
      have hname := hf d' hd' (claim_ours ifindex owner d' ho)
      rw [claim]
      split
      · rw [register_name]
        exact hname
      · exact hname
  | released ifindex owner =>
      obtain ⟨d', hd', rfl⟩ := List.mem_map.mp hd
      have hname := hf d' hd' (giveUp_ours ifindex owner d' ho)
      rw [giveUp]
      split
      · exact hname
      · exact hname

theorem step_clean {s : State} (hs : Distinct s.devices) (hclean : ¬ Stale s) {e : Event}
    (he : e = .rmmod → s.loaded = true → Findable s) : ¬ Stale (step s e) := by
  cases hk : e with
  | insmod =>
      rw [step]
      split
      · exact hclean
      · exact fun h => Bool.noConfusion h.1
  | rmmod =>
      by_cases hl : s.loaded = true
      · exact (rmmod_stale hs hl).mpr (he hk hl)
      · rw [step, if_neg hl]
        exact hclean
  | added | removed | renamed | claimed | released =>
      have hout : Outside e := by
        rw [hk]
        trivial
      rw [← hk]
      rintro ⟨hl, d, hd, ho⟩
      rw [outside_loaded s hout] at hl
      obtain ⟨d', hd', ho'⟩ := outside_ours s hout hd ho
      exact hclean ⟨hl, d', hd', ho'⟩

section Runs

variable {s : State} (hs : Distinct s.devices) (hnone : ∀ d ∈ s.devices, ¬ d.Ours) (acts : List Event)
include hs

theorem run_distinct (past : List Event) : Distinct (run step s past).devices :=
  @run_invariant State Event step (fun s => Distinct s.devices) s hs step_distinct past

include hnone

theorem run_clean (h : ∀ past rest, acts = past ++ .rmmod :: rest → (run step s past).loaded = true →
    Findable (run step s past)) (past rest : List Event) (hacts : acts = past ++ rest) :
    ¬ Stale (run step s past) := by
  induction past using List.reverseRecOn generalizing rest with
  | nil =>
      rintro ⟨_, d, hd, ho⟩
      exact hnone d hd ho
  | append_singleton past e ih =>
      rw [List.append_assoc, List.singleton_append] at hacts
      rw [run_snoc]
      apply step_clean (run_distinct hs past) (ih (e :: rest) hacts)
      rintro rfl hl
      exact h past rest hacts hl

theorem run_findable (h : ∀ past e rest, acts = past ++ e :: rest → ¬ Hides (run step s past) e)
    (past rest : List Event) (hacts : acts = past ++ rest) : Findable (run step s past) := by
  induction past using List.reverseRecOn generalizing rest with
  | nil => exact fun d hd ho => absurd ho (hnone d hd)
  | append_singleton past e ih =>
      rw [List.append_assoc, List.singleton_append] at hacts
      rw [run_snoc]
      exact step_findable (run_distinct hs past) (ih (e :: rest) hacts) (h past e rest hacts)

end Runs

/-- Whatever happens to the devices between loading and unloading the module: no
frame can be handed to it when it is gone exactly if at every unloading all devices
with its handler are called ens33, so in particular if none is renamed while it has
the handler; and the module takes away a handler of someone else exactly if at some
unloading ens33 has one. -/
theorem unload_safety {s : State} (hs : Distinct s.devices) (hnone : ∀ d ∈ s.devices, ¬ d.Ours)
    (acts : List Event) :
    ((∀ past rest, acts = past ++ rest → ¬ Stale (run step s past)) ↔
      ∀ past rest, acts = past ++ .rmmod :: rest → (run step s past).loaded = true →
        Findable (run step s past)) ∧
    ((∀ past e rest, acts = past ++ e :: rest → ¬ Hides (run step s past) e) →
      ∀ past rest, acts = past ++ rest → ¬ Stale (run step s past)) ∧
    ((∀ past e rest, acts = past ++ e :: rest → ¬ Outside e → ¬ Deprives (run step s past) e) ↔
      ∀ past rest, acts = past ++ .rmmod :: rest → (run step s past).loaded = true →
        ∀ d ∈ (run step s past).devices, d.name = "ens33" → ¬ d.Others) := by
  refine ⟨⟨?_, run_clean hs hnone acts⟩, ?_, ?_, ?_⟩
  · intro h past rest hacts hl
    apply (rmmod_stale (run_distinct hs past) hl).mp
    rw [← run_snoc step s past .rmmod]
    exact h _ rest (by rw [hacts, List.append_assoc, List.singleton_append])
  · intro h
    apply run_clean hs hnone acts
    intro past rest hacts _
    exact run_findable hs hnone acts h past _ hacts
  · intro h past rest hacts hl
    exact (rmmod_deprives (run_distinct hs past) hl).mp (h past .rmmod rest hacts id)
  · intro h past e rest hacts he
    cases e with
    | insmod => exact insmod_deprives (run_distinct hs past)
    | rmmod =>
        by_cases hl : (run step s past).loaded = true
        · exact (rmmod_deprives (run_distinct hs past) hl).mpr (h past rest hacts hl)
        · rintro ⟨d, hd, ho, d', hd', hidx, hno⟩
          rw [step, if_neg hl] at hd'
          obtain rfl := (run_distinct hs past).eq_of_ifindex hd' hd hidx
          exact hno ho
    | added | removed | renamed | claimed | released => exact absurd trivial he

def oneDevice : State := ⟨[⟨2, "ens33", false, none⟩], false⟩

theorem renamed_device_goes_stale :
    ¬ ∀ past rest, [Event.insmod, .renamed 2 "eth0", .rmmod] = past ++ rest →
      ¬ Stale (run step oneDevice past) := by
  have hs : Distinct oneDevice.devices := List.pairwise_singleton _ _
  have hnone : ∀ d ∈ oneDevice.devices, ¬ d.Ours := by
    intro d hd
    rw [List.mem_singleton.mp hd]
    exact fun h => (by cases h)
  intro h
  have hfind := (unload_safety hs hnone [.insmod, .renamed 2 "eth0", .rmmod]).1.mp h
    [.insmod, .renamed 2 "eth0"] [] rfl rfl ⟨2, "eth0", false, some .rxhPacketIn⟩
    (by decide) rfl
  exact absurd hfind (by decide)

end PacketIntercept.RxRegistration
