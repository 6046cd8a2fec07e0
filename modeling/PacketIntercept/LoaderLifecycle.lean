import PacketIntercept.Params
import PacketIntercept.ResourceLedger

namespace PacketIntercept.LoaderLifecycle

open ResourceLedger Params Runs

def exitFail : Int := 1
def exitFailXdp : Int := 30
def exitFailBpf : Int := 40
def eexist : Int := 17
def einval : Int := 22

/-- Where on an interface a program can be. -/
inductive Mode
  | skb
  | drv
  | hw
deriving DecidableEq

/-- The program of this run, or one that was there before. -/
inductive Owner
  | ours
  | other
deriving DecidableEq

abbrev Link := Mode → Option Owner

/-- The modes at which the interface has a program when the run starts, the mode
the kernel takes where the flags name none, and what the calls of one run return:
malloc for the options, loading the object, the fd of the program found in it (if
any), the three calls of bpf_set_link_xdp_fd that attach (zero or a negative error),
the fds of the two maps, malloc for the log buffers, whether every clock_gettime of
the fetch loop works, fopen, and the two calls that detach. -/
structure Environment where
  others : Mode → Bool
  autoMode : Mode
  optionsMalloc : Bool
  loadBpf : Bool
  progFd : Option Int
  attach : Int
  unloadOther : Int
  attachAgain : Int
  attach_le : attach ≤ 0
  unloadOther_le : unloadOther ≤ 0
  attachAgain_le : attachAgain ≤ 0
  timeMapFd : Int
  pktMapFd : Int
  malloc : Nat → Bool
  clockGettime : Bool
  fopenUs : Bool
  fopenKern : Bool
  getLinkXdpId : Int × Nat
  detach : Int
  detach_le : detach ≤ 0

/-- The log buffers a run holds, and the interface, whose programs outlive it. -/
structure Held where
  buffers : Ledger Nat
  link : Link

def Environment.link (env : Environment) : Link := fun m => if env.others m then some .other else none

def Environment.start (env : Environment) : Held := ⟨.empty, env.link⟩

inductive Ending
  | exited (code : Int)
  | crashed
deriving DecidableEq

/-- The process goes on with what it holds, or it has ended with it. -/
abbrev Stage := Except (Ending × Held) Held

/-- The mode the kernel takes the flags for. -/
def xdpMode (env : Environment) (flags : BitVec 32) : Mode :=
  if flags &&& xdpFlagsHwMode ≠ 0 then .hw
  else if flags &&& xdpFlagsDrvMode ≠ 0 then .drv
  else if flags &&& xdpFlagsSkbMode ≠ 0 then .skb
  else env.autoMode

/-- A call that works puts the program of the fd, or none for -1, where the flags say,
whatever was there; one that fails changes nothing. -/
def bpfSetLinkXdpFd (env : Environment) (result : Int) (program : Option Owner) (flags : BitVec 32)
    (s : Held) : Int × Held :=
  if result = 0 then (0, { s with link := Function.update s.link (xdpMode env flags) program })
  else (result, s)

/-- The flags of the other mode, for a program that stands in the way. -/
def otherFlags (flags : BitVec 32) : BitVec 32 :=
  (flags &&& ~~~xdpFlagsModes) |||
    (if flags &&& xdpFlagsSkbMode ≠ 0 then xdpFlagsDrvMode else xdpFlagsSkbMode)

def linkSet (cfg : Config) (env : Environment) (s : Held) : Int × Held :=
  let first := bpfSetLinkXdpFd env env.attach (some .ours) cfg.xdpFlags s
  if first.1 = -eexist ∧ cfg.xdpFlags &&& xdpFlagsUpdateIfNoexist = 0 then
    let unloaded := bpfSetLinkXdpFd env env.unloadOther none (otherFlags cfg.xdpFlags) first.2
    if unloaded.1 = 0 then bpfSetLinkXdpFd env env.attachAgain (some .ours) cfg.xdpFlags unloaded.2
    else unloaded
  else first

def xdpLinkAttach (cfg : Config) (env : Environment) (s : Held) : Int × Held :=
  if (linkSet cfg env s).1 < 0 then (exitFailXdp, (linkSet cfg env s).2)
  else (0, (linkSet cfg env s).2)

/-- The check bpf_get_link_xdp_info makes on the flags. -/
def flagsAdmitted (flags : BitVec 32) : Bool :=
  flags &&& ~~~xdpFlagsMask == 0 &&
    (flags &&& xdpFlagsModes == 0 || (flags &&& xdpFlagsModes) &&& ((flags &&& xdpFlagsModes) - 1) == 0)

def bpfGetLinkXdpId (cfg : Config) (env : Environment) : Int × Nat :=
  if !flagsAdmitted cfg.xdpFlags then (-einval, 0) else env.getLinkXdpId

/-- Both of its callers expect no particular program. -/
def xdpLinkDetach (cfg : Config) (env : Environment) (expectedProgId : Nat) (s : Held) : Int × Held :=
  if (bpfGetLinkXdpId cfg env).1 ≠ 0 then (exitFailXdp, s)
  else if (bpfGetLinkXdpId cfg env).2 = 0 then (0, s)
  else if expectedProgId ≠ 0 ∧ (bpfGetLinkXdpId cfg env).2 ≠ expectedProgId then (exitFail, s)
  else
    let removed := bpfSetLinkXdpFd env env.detach none cfg.xdpFlags s
    if removed.1 < 0 then (exitFailXdp, removed.2) else (0, removed.2)

def loadBpfAndXdpAttach (cfg : Config) (env : Environment) (s : Held) : Stage :=
  if !env.loadBpf then .error (.exited exitFailBpf, s)
  else
    match env.progFd with
    | none => .error (.exited exitFailBpf, s)
    | some progFd =>
        if progFd ≤ 0 then .error (.exited exitFailBpf, s)
        else if (xdpLinkAttach cfg env s).1 ≠ 0 then
          .error (.exited (xdpLinkAttach cfg env s).1, (xdpLinkAttach cfg env s).2)
        else .ok (xdpLinkAttach cfg env s).2

def loadCustomProgram (cfg : Config) (env : Environment) (s : Held) : Stage :=
  if cfg.filename.headD 0 = 0 then .ok s
  else do
    let s ← loadBpfAndXdpAttach cfg env s
    if env.timeMapFd < 0 then throw (.exited exitFail, s)
    else if env.pktMapFd < 0 then throw (.exited exitFail, s)
    else pure s

def allocLogBuffs (env : Environment) (numLogBuff : Nat) (s : Held) : Stage :=
  match s.buffers.acquireEach id env.malloc (List.range numLogBuff) with
  | (true, buffers) => .ok { s with buffers }
  | (false, buffers) => .error (.exited (-1), { s with buffers })

/-- The fetch loop, in a run that is told to stop at some time: gettime ends the
process when the clock cannot be read. -/
def fetchPackets (env : Environment) (s : Held) : Stage :=
  if env.clockGettime then .ok s else .error (.exited exitFail, s)

/-- The two log files; neither result of fopen is looked at before it is used. -/
def exportLogs (env : Environment) (numLogBuff : Nat) (s : Held) : Stage :=
  if !env.fopenUs then .error (.crashed, s)
  else
    let s := { s with buffers := s.buffers.releaseAll (row id numLogBuff) }
    if !env.fopenKern then .error (.crashed, s) else .ok s

/-- From the buffers to the log files. -/
def record (env : Environment) (numLogBuff : Nat) (s : Held) : Stage := do
  let s ← allocLogBuffs env numLogBuff s
  let s ← fetchPackets env s
  exportLogs env numLogBuff s

def measure (cfg : Config) (env : Environment) (numLogBuff : Nat) : Ending × Held :=
  match loadCustomProgram cfg env env.start >>= record env numLogBuff with
  | .error e => e
  | .ok s => (.exited 0, (xdpLinkDetach cfg env 0 s).2)

def main (host : Host) (opts : List Opt) (env : Environment) (numLogBuff : Nat) : Ending × Held :=
  match parseCmdlineArgs host env.optionsMalloc opts initial with
  | .error code => (.exited code, env.start)
  | .ok cfg =>
      if cfg.ifindex = -1 then (.exited exitFailOption, env.start)
      else if cfg.doUnload then
        (.exited (xdpLinkDetach cfg env 0 env.start).1, (xdpLinkDetach cfg env 0 env.start).2)
      else measure cfg env numLogBuff

/-- A program has been loaded. -/
structure Loaded (env : Environment) : Prop where
  object : env.loadBpf = true
  program : ∃ fd, env.progFd = some fd ∧ 0 < fd

/-- A program stands in the way of the attaching and the other mode is emptied. -/
def Replaces (env : Environment) : Prop := env.attach = -eexist ∧ env.unloadOther = 0

/-- The loaded program gets onto the interface. -/
def Links (env : Environment) : Prop :=
  env.attach = 0 ∨ Replaces env ∧ env.attachAgain = 0

instance (env : Environment) : Decidable (Replaces env) := inferInstanceAs (Decidable (_ ∧ _))

instance (env : Environment) : Decidable (Links env) := inferInstanceAs (Decidable (_ ∨ _))

def MapsFound (env : Environment) : Prop := 0 ≤ env.timeMapFd ∧ 0 ≤ env.pktMapFd

def Allocates (env : Environment) (numLogBuff : Nat) : Prop :=
  ∀ i, i < numLogBuff → env.malloc i = true

/-- The run gets from the log buffers to the end of the second log file. -/
structure Recorded (env : Environment) (numLogBuff : Nat) : Prop where
  memory : Allocates env numLogBuff
  clock : env.clockGettime = true
  us : env.fopenUs = true
  kern : env.fopenKern = true

/-- The interface is seen to have a program, and the removal works. -/
structure Detaches (env : Environment) : Prop where
  known : env.getLinkXdpId.1 = 0
  present : env.getLinkXdpId.2 ≠ 0
  removed : env.detach = 0

/-- The interface is seen to have no program. -/
def Bare (env : Environment) : Prop := env.getLinkXdpId.1 = 0 ∧ env.getLinkXdpId.2 = 0

/-- The mode that the last of the mode options asks for. -/
def modeAsked (env : Environment) : Option Opt → Mode
  | some .skbMode => .skb
  | some .nativeMode => .drv
  | some .offloadMode => .hw
  | _ => env.autoMode

/-- The mode that is emptied when a program stands in the way. -/
def modeOpposed : Option Opt → Mode
  | some .skbMode => .drv
  | _ => .skb

theorem xdpMode_modeFlags (env : Environment) (o : Option Opt) :
    xdpMode env (modeFlags o) = modeAsked env o := by
  cases o with
  | none => rfl
  | some o => cases o <;> simp only [modeFlags, modeAsked] <;> rfl

theorem xdpMode_otherFlags (env : Environment) (o : Option Opt) :
    xdpMode env (otherFlags (modeFlags o)) = modeOpposed o := by
  cases o with
  | none => rfl
  | some o => cases o <;> simp only [modeFlags, modeOpposed] <;> rfl

theorem modeFlags_admitted (o : Option Opt) : flagsAdmitted (modeFlags o) = true := by
  rcases modeFlags_cases o with h | h | h | h <;> rw [h] <;> decide

/-- The interface after an attaching. -/
def attached (env : Environment) (o : Option Opt) (l : Link) : Link :=
  let l := if Replaces env then Function.update l (modeOpposed o) none else l
  if Links env then Function.update l (modeAsked env o) (some .ours) else l

theorem link_ours (env : Environment) (m : Mode) : env.link m ≠ some .ours := by
  rw [Environment.link]
  split
  · exact fun h => (by cases h)
  · exact fun h => (by cases h)

theorem link_other (env : Environment) (m : Mode) : env.link m = some .other ↔ env.others m = true := by
  simp [Environment.link]

theorem attached_ours (env : Environment) (o : Option Opt) (m : Mode) :
    attached env o env.link m = some .ours ↔ Links env ∧ m = modeAsked env o := by
  have hno := link_ours env m
  simp only [attached]
  split_ifs <;> grind [Function.update_apply]

theorem attached_other (env : Environment) (o : Option Opt) (m : Mode) :
    attached env o env.link m = some .other ↔ env.others m = true ∧
      ¬ (Replaces env ∧ m = modeOpposed o ∨ Links env ∧ m = modeAsked env o) := by
  rw [← link_other]
  simp only [attached]
  split_ifs <;> grind [Function.update_apply]

theorem loadBpfAndXdpAttach_unloaded (cfg : Config) {env : Environment} (h : ¬ Loaded env) (s : Held) :
    loadBpfAndXdpAttach cfg env s = .error (.exited exitFailBpf, s) := by
  rw [loadBpfAndXdpAttach]
  cases hload : env.loadBpf with
  | false => rfl
  | true =>
      cases hfd : env.progFd with
      | none => rfl
      | some fd =>
          have hle : fd ≤ 0 := by
            by_contra hgt
            exact h ⟨hload, fd, hfd, by omega⟩
          exact if_pos hle

section Flags

variable {cfg : Config} {o : Option Opt} (hflags : cfg.xdpFlags = modeFlags o) (env : Environment)
include hflags

theorem linkSet_eq (s : Held) :
    linkSet cfg env s =
      (if env.attach = -eexist then if env.unloadOther = 0 then env.attachAgain else env.unloadOther
        else env.attach,
      { s with link := attached env o s.link }) := by
  simp only [linkSet, bpfSetLinkXdpFd, hflags, modeFlags_noexist, xdpMode_modeFlags,
    xdpMode_otherFlags, attached, Links, Replaces, and_true]
  by_cases he : env.attach = -eexist
  · by_cases hu : env.unloadOther = 0
    · by_cases ha : env.attachAgain = 0 <;> simp [he, hu, ha, eexist]
    · simp [he, hu, eexist]
  · by_cases ha : env.attach = 0
    · simp [ha, eexist]
    · simp [he, ha]

theorem xdpLinkAttach_eq (s : Held) :
    xdpLinkAttach cfg env s =
      (if Links env then 0 else exitFailXdp, { s with link := attached env o s.link }) := by
  have h0 := env.attach_le
  have h1 := env.unloadOther_le
  have h2 := env.attachAgain_le
  rw [xdpLinkAttach, linkSet_eq hflags]
  have hlinks : (if env.attach = -eexist then if env.unloadOther = 0 then env.attachAgain
      else env.unloadOther else env.attach) < 0 ↔ ¬ Links env := by
    simp only [Links, Replaces, eexist]
    split_ifs <;> omega
  simp only [hlinks]
  by_cases hl : Links env
  · rw [if_neg (not_not.mpr hl), if_pos hl]
  · rw [if_pos hl, if_neg hl]

theorem xdpLinkDetach_cases (s : Held) :
    Detaches env ∧ xdpLinkDetach cfg env 0 s =
        (0, { s with link := Function.update s.link (modeAsked env o) none }) ∨
      ¬ Detaches env ∧ ∃ code, (code = 0 ↔ Bare env) ∧ xdpLinkDetach cfg env 0 s = (code, s) := by
  have hdet := env.detach_le
  have hid : bpfGetLinkXdpId cfg env = env.getLinkXdpId := by
    rw [bpfGetLinkXdpId, hflags, modeFlags_admitted]
    rfl
  rw [xdpLinkDetach, hid]
  by_cases hk : env.getLinkXdpId.1 = 0
  · rw [if_neg (not_not.mpr hk)]
    by_cases hp : env.getLinkXdpId.2 = 0
    · rw [if_pos hp]
      exact .inr ⟨fun h => h.present hp, 0, by simp [Bare, hk, hp], rfl⟩
    · rw [if_neg hp, if_neg (fun h => h.1 rfl)]
      by_cases hd : env.detach = 0
      · refine .inl ⟨⟨hk, hp, hd⟩, ?_⟩
        simp [bpfSetLinkXdpFd, hd, hflags, xdpMode_modeFlags]
      · refine .inr ⟨fun h => hd h.removed, exitFailXdp, by simp [Bare, hp, exitFailXdp], ?_⟩
        simp only [bpfSetLinkXdpFd, if_neg hd, if_pos (show env.detach < 0 by omega)]
  · rw [if_pos hk]
    exact .inr ⟨fun h => hk h.known, exitFailXdp, by simp [Bare, hk, exitFailXdp], rfl⟩

theorem loadBpfAndXdpAttach_loaded (h : Loaded env) (s : Held) :
    loadBpfAndXdpAttach cfg env s =
      if Links env then .ok { s with link := attached env o s.link }
      else .error (.exited exitFailXdp, { s with link := attached env o s.link }) := by
  obtain ⟨fd, hfd, hpos⟩ := h.program
  simp only [loadBpfAndXdpAttach, h.object, hfd, Int.not_le.mpr hpos, Bool.not_true, Bool.false_eq_true,
    if_false, xdpLinkAttach_eq hflags]
  by_cases hl : Links env
  · simp [hl]
  · simp [hl, exitFailXdp]

/-- What the loading comes to when a program is to be loaded. -/
theorem loadCustomProgram_cases (hname : cfg.filename.headD 0 ≠ 0) (s : Held) :
    (¬ Loaded env ∧ loadCustomProgram cfg env s = .error (.exited exitFailBpf, s)) ∨
    (Loaded env ∧ ¬ Links env ∧ loadCustomProgram cfg env s =
      .error (.exited exitFailXdp, { s with link := attached env o s.link })) ∨
    (Loaded env ∧ Links env ∧ ¬ MapsFound env ∧ loadCustomProgram cfg env s =
      .error (.exited exitFail, { s with link := attached env o s.link })) ∨
    (Loaded env ∧ Links env ∧ MapsFound env ∧ loadCustomProgram cfg env s =
      .ok { s with link := attached env o s.link }) := by
  rw [loadCustomProgram, if_neg hname]
  by_cases hl : Loaded env
  · rw [loadBpfAndXdpAttach_loaded hflags env hl]
    by_cases hlink : Links env
    · rw [if_pos hlink]
      by_cases ht : env.timeMapFd < 0
      · exact .inr (.inr (.inl ⟨hl, hlink, fun h => absurd h.1 (Int.not_le.mpr ht), if_pos ht⟩))
      · by_cases hp : env.pktMapFd < 0
        · exact .inr (.inr (.inl ⟨hl, hlink, fun h => absurd h.2 (Int.not_le.mpr hp),
            (if_neg ht).trans (if_pos hp)⟩))
        · exact .inr (.inr (.inr ⟨hl, hlink, ⟨Int.not_lt.mp ht, Int.not_lt.mp hp⟩,
            (if_neg ht).trans (if_neg hp)⟩))
    · rw [if_neg hlink]
      exact .inr (.inl ⟨hl, hlink, rfl⟩)
  · rw [loadBpfAndXdpAttach_unloaded cfg hl]
    exact .inl ⟨hl, rfl⟩

end Flags

/-- The run got as far as the log buffers. -/
def Reaches (asked : Prop) (env : Environment) : Prop := asked → Loaded env ∧ Links env ∧ MapsFound env

/-- How a measuring run ends. -/
inductive EndsAs (asked : Prop) (env : Environment) (numLogBuff : Nat) : Ending → Prop
  | unloaded (hask : asked) (hload : ¬ Loaded env) : EndsAs asked env numLogBuff (.exited exitFailBpf)
  | unlinked (hask : asked) (hload : Loaded env) (hlink : ¬ Links env) :
      EndsAs asked env numLogBuff (.exited exitFailXdp)
  | noMaps (hask : asked) (hload : Loaded env) (hlink : Links env) (hmaps : ¬ MapsFound env) :
      EndsAs asked env numLogBuff (.exited exitFail)
  | noMemory (hreach : Reaches asked env) (hmem : ¬ Allocates env numLogBuff) :
      EndsAs asked env numLogBuff (.exited (-1))
  | noClock (hreach : Reaches asked env) (hmem : Allocates env numLogBuff)
      (hclock : env.clockGettime = false) : EndsAs asked env numLogBuff (.exited exitFail)
  | noFile (hreach : Reaches asked env) (hmem : Allocates env numLogBuff)
      (hclock : env.clockGettime = true) (hfile : env.fopenUs = false ∨ env.fopenKern = false) :
      EndsAs asked env numLogBuff .crashed
  | finished (hreach : Reaches asked env) (hrec : Recorded env numLogBuff) :
      EndsAs asked env numLogBuff (.exited 0)

section Ends

variable {asked : Prop} {env : Environment} {numLogBuff : Nat} {e : Ending}

theorem EndsAs.exited_zero_iff (h : EndsAs asked env numLogBuff e) :
    e = .exited 0 ↔ Reaches asked env ∧ Recorded env numLogBuff := by
  cases h with
  | unloaded hask hload => exact iff_of_false (by decide) (fun h => hload (h.1 hask).1)
  | unlinked hask hload hlink => exact iff_of_false (by decide) (fun h => hlink (h.1 hask).2.1)
  | noMaps hask hload hlink hmaps => exact iff_of_false (by decide) (fun h => hmaps (h.1 hask).2.2)
  | noMemory hreach hmem => exact iff_of_false (by decide) (fun h => hmem h.2.memory)
  | noClock hreach hmem hclock =>
      exact iff_of_false (by decide) (fun h => by simp [h.2.clock] at hclock)
  | noFile hreach hmem hclock hfile =>
      exact iff_of_false (by decide) (fun h => by simp [h.2.us, h.2.kern] at hfile)
  | finished hreach hrec => exact iff_of_true rfl ⟨hreach, hrec⟩

/-- Only a file that cannot be opened makes the process crash. -/
theorem EndsAs.crashed_iff (h : EndsAs asked env numLogBuff e) :
    e = .crashed ↔ Reaches asked env ∧ Allocates env numLogBuff ∧ env.clockGettime = true ∧
      (env.fopenUs = false ∨ env.fopenKern = false) := by
  cases h with
  | unloaded hask hload => exact iff_of_false (by decide) (fun h => hload (h.1 hask).1)
  | unlinked hask hload hlink => exact iff_of_false (by decide) (fun h => hlink (h.1 hask).2.1)
  | noMaps hask hload hlink hmaps => exact iff_of_false (by decide) (fun h => hmaps (h.1 hask).2.2)
  | noMemory hreach hmem => exact iff_of_false (by decide) (fun h => hmem h.2.1)
  | noClock hreach hmem hclock =>
      exact iff_of_false (by decide) (fun h => by simp [h.2.2.1] at hclock)
  | noFile hreach hmem hclock hfile => exact iff_of_true rfl ⟨hreach, hmem, hclock, hfile⟩
  | finished hreach hrec =>
      exact iff_of_false (by decide) (fun h => by simp [hrec.us, hrec.kern] at h)

end Ends

/-- The buffers at the end of a run that gets as far as them. -/
structure Buffered (env : Environment) (numLogBuff : Nat) (buffers : Ledger Nat) : Prop where
  proper : buffers.misused = false
  held : ∀ i, buffers.held i = true ↔
    i < numLogBuff ∧ Allocates env numLogBuff ∧ (env.clockGettime = false ∨ env.fopenUs = false)

theorem allocLogBuffs_cases (env : Environment) (numLogBuff : Nat) (l : Link) :
    (Allocates env numLogBuff ∧ ∃ b, allocLogBuffs env numLogBuff ⟨.empty, l⟩ = .ok ⟨b, l⟩ ∧
        b.Holds (∅ ∪ {i | i ∈ row id numLogBuff})) ∨
      (¬ Allocates env numLogBuff ∧ ∃ b,
        allocLogBuffs env numLogBuff ⟨.empty, l⟩ = .error (.exited (-1), ⟨b, l⟩) ∧ b.Holds ∅) := by
  rcases Ledger.acquireEach_cases Function.injective_id (fun i : Nat => Set.notMem_empty (id i)) env.malloc
    numLogBuff Ledger.holds_empty with ⟨hall, b, hres, hb⟩ | ⟨⟨i, hi, hfail⟩, b, hres, hb⟩
  · exact .inl ⟨hall, b, by simp only [allocLogBuffs, hres], hb⟩
  · refine .inr ⟨fun h => ?_, b, by simp only [allocLogBuffs, hres], hb⟩
    rw [h i hi] at hfail
    cases hfail

theorem record_cases {asked : Prop} {env : Environment} (hreach : Reaches asked env) (numLogBuff : Nat)
    (l : Link) :
    (Recorded env numLogBuff ∧ ∃ b, record env numLogBuff ⟨.empty, l⟩ = .ok ⟨b, l⟩ ∧
        Buffered env numLogBuff b) ∨
      (¬ Recorded env numLogBuff ∧ ∃ e b, record env numLogBuff ⟨.empty, l⟩ = .error (e, ⟨b, l⟩) ∧
        Buffered env numLogBuff b ∧ EndsAs asked env numLogBuff e) := by
  rcases allocLogBuffs_cases env numLogBuff l with ⟨hall, b, hres, hb⟩ | ⟨hno, b, hres, hb⟩
  · have hheld (i : Nat) : b.held i = true ↔ i < numLogBuff := by
      rw [hb.held_iff]
      simp [mem_row]
    have hfreed := hb.release_row Function.injective_id (fun i => Set.notMem_empty (id i))
    rw [record, hres]
    cases hclock : env.clockGettime with
    | false =>
        refine .inr ⟨fun h => ?_, _, b, ?_, ⟨hb.proper, fun i => ?_⟩, .noClock hreach hall hclock⟩
        · rw [h.clock] at hclock
          cases hclock
        · simp only [fetchPackets, hclock]
          rfl
        · simp [hheld, hall, hclock]
    | true =>
        cases hus : env.fopenUs with
        | false =>
            refine .inr ⟨fun h => ?_, _, b, ?_, ⟨hb.proper, fun i => ?_⟩,
              .noFile hreach hall hclock (.inl hus)⟩
            · rw [h.us] at hus
              cases hus
            · simp only [fetchPackets, hclock, exportLogs, hus]
              rfl
            · simp [hheld, hall, hus]
        | true =>
            have hbuf : Buffered env numLogBuff (b.releaseAll (row id numLogBuff)) := by
              refine ⟨hfreed.proper, fun i => ?_⟩
              rw [hfreed.held_iff]
              simp [hclock, hus]
            cases hkern : env.fopenKern with
            | false =>
                refine .inr ⟨fun h => ?_, _, _, ?_, hbuf, .noFile hreach hall hclock (.inr hkern)⟩
                · rw [h.kern] at hkern
                  cases hkern
                · simp only [fetchPackets, hclock, exportLogs, hus, hkern]
                  rfl
            | true =>
                refine .inl ⟨⟨hall, hclock, hus, hkern⟩, _, ?_, hbuf⟩
                simp only [fetchPackets, hclock, exportLogs, hus, hkern]
                rfl
  · rw [record, hres]
    refine .inr ⟨fun h => hno h.memory, _, b, rfl, ⟨hb.proper, fun i => ?_⟩, .noMemory hreach hno⟩
    rw [hb.held_iff]
    simp [hno]

/-- The run takes the program at a mode off the interface, which was another's. -/
def Displaces (asked : Prop) (o : Option Opt) (env : Environment) (numLogBuff : Nat) (m : Mode) : Prop :=
  asked ∧ Loaded env ∧ (Replaces env ∧ m = modeOpposed o ∨ Links env ∧ m = modeAsked env o) ∨
    ¬ asked ∧ Recorded env numLogBuff ∧ Detaches env ∧ m = modeAsked env o

/-- What a measuring run is left with, in terms of what its calls returned; o is
the last of the mode options. -/
structure Leaves (asked : Prop) (o : Option Opt) (env : Environment) (numLogBuff : Nat)
    (r : Ending × Held) : Prop where
  proper : r.2.buffers.misused = false
  ours : ∀ m, r.2.link m = some .ours ↔ m = modeAsked env o ∧ asked ∧ Loaded env ∧ Links env ∧
    ¬ (MapsFound env ∧ Recorded env numLogBuff ∧ Detaches env)
  other : ∀ m, r.2.link m = some .other ↔
    env.others m = true ∧ ¬ Displaces asked o env numLogBuff m
  buffers : ∀ i, r.2.buffers.held i = true ↔ i < numLogBuff ∧ Reaches asked env ∧
    Allocates env numLogBuff ∧ (env.clockGettime = false ∨ env.fopenUs = false)
  ending : EndsAs asked env numLogBuff r.1
  code : r.1 = .exited 0 ↔ Reaches asked env ∧ Recorded env numLogBuff
  crashed : r.1 = .crashed ↔ Reaches asked env ∧ Allocates env numLogBuff ∧
    env.clockGettime = true ∧ (env.fopenUs = false ∨ env.fopenKern = false)

def ended (cfg : Config) (env : Environment) : Stage → Ending × Held
  | .error e => e
  | .ok s => (.exited 0, (xdpLinkDetach cfg env 0 s).2)

theorem measure_eq (cfg : Config) (env : Environment) (numLogBuff : Nat) :
    measure cfg env numLogBuff =
      ended cfg env ((loadCustomProgram cfg env env.start).bind (record env numLogBuff)) := by
  rw [measure]
  cases hrun : loadCustomProgram cfg env env.start >>= record env numLogBuff with
  | error e => exact (congrArg (ended cfg env) hrun).symm
  | ok s => exact (congrArg (ended cfg env) hrun).symm

/-- A run that ends before the log buffers, with the interface it has then. -/
theorem leaves_early {asked : Prop} {o : Option Opt} {env : Environment} {numLogBuff : Nat} {s : Held}
    {e : Ending} (hs : s.buffers = .empty) (hreach : ¬ Reaches asked env)
    (hend : EndsAs asked env numLogBuff e)
    (hours : ∀ m, s.link m = some .ours ↔ m = modeAsked env o ∧ asked ∧ Loaded env ∧ Links env ∧
      ¬ (MapsFound env ∧ Recorded env numLogBuff ∧ Detaches env))
    (hother : ∀ m, s.link m = some .other ↔ env.others m = true ∧ ¬ Displaces asked o env numLogBuff m) :
    Leaves asked o env numLogBuff (e, s) := by
  refine ⟨by rw [hs]; rfl, hours, hother, fun i => ?_, hend, hend.exited_zero_iff, hend.crashed_iff⟩
  rw [hs]
  simp [Ledger.empty, hreach]

section Measuring

variable {cfg : Config} {o : Option Opt} (hflags : cfg.xdpFlags = modeFlags o) (env : Environment)
  (numLogBuff : Nat) {asked : Prop}
include hflags

/-- The end of a run that gets as far as the log buffers, with the interface it has then. -/
theorem ended_record (hreach : Reaches asked env) (l : Link) :
    let r := ended cfg env (record env numLogBuff ⟨.empty, l⟩)
    Buffered env numLogBuff r.2.buffers ∧ EndsAs asked env numLogBuff r.1 ∧
      (Recorded env numLogBuff ∧ Detaches env ∧ r.2.link = Function.update l (modeAsked env o) none ∨
        ¬ (Recorded env numLogBuff ∧ Detaches env) ∧ r.2.link = l) := by
  rcases record_cases hreach numLogBuff l with ⟨hrec, b, hres, hb⟩ | ⟨hno, e, b, hres, hb, he⟩
  · rw [hres]
    rcases xdpLinkDetach_cases hflags env ⟨b, l⟩ with ⟨hdet, hd⟩ | ⟨hdet, _, _, hd⟩
    · rw [ended, hd]
      exact ⟨hb, .finished hreach hrec, .inl ⟨hrec, hdet, rfl⟩⟩
    · rw [ended, hd]
      exact ⟨hb, .finished hreach hrec, .inr ⟨fun h => hdet h.2, rfl⟩⟩
  · rw [hres, ended]
    exact ⟨hb, he, .inr ⟨fun h => hno h.1, rfl⟩⟩

theorem measure_bare (hname : cfg.filename.headD 0 = 0) (hask : ¬ asked) :
    Leaves asked o env numLogBuff (measure cfg env numLogBuff) := by
  have hload : loadCustomProgram cfg env env.start = .ok env.start := if_pos hname
  have hreach : Reaches asked env := fun h => absurd h hask
  obtain ⟨hbuf, hend, hlink⟩ := ended_record hflags env numLogBuff hreach env.link
  rw [measure_eq, hload]
  change Leaves asked o env numLogBuff (ended cfg env (record env numLogBuff ⟨.empty, env.link⟩))
  refine ⟨hbuf.proper, fun m => ?_, fun m => ?_, fun i => (hbuf.held i).trans ?_, hend,
    hend.exited_zero_iff, hend.crashed_iff⟩
  · rcases hlink with ⟨-, -, hl⟩ | ⟨-, hl⟩
    · simp [hl, hask, Function.update_apply, link_ours]
    · simp [hl, hask, link_ours]
  · rcases hlink with ⟨hrec, hdet, hl⟩ | ⟨hno, hl⟩
    · simp [Displaces, hl, hask, hrec, hdet, Function.update_apply, link_other, and_comm]
    · have hkept : ¬ (Recorded env numLogBuff ∧ Detaches env ∧ m = modeAsked env o) :=
        fun h => hno ⟨h.1, h.2.1⟩
      simp only [Displaces, hl, hask, hkept, link_other, false_and, and_false, or_false,
        not_false_eq_true, and_true]
  · simp [hreach]

theorem measure_loaded (hname : cfg.filename.headD 0 ≠ 0) (hask : asked) :
    Leaves asked o env numLogBuff (measure cfg env numLogBuff) := by
  rw [measure_eq]
  rcases loadCustomProgram_cases hflags env hname env.start with ⟨hl, hload⟩ | ⟨hl, hk, hload⟩ |
    ⟨hl, hk, hm, hload⟩ | ⟨hl, hk, hm, hload⟩
  · rw [hload]
    refine leaves_early rfl (fun h => hl (h hask).1) (.unloaded hask hl) (fun m => ?_)
      (fun m => ?_)
    · simp [Environment.start, link_ours, hl]
    · simp [Environment.start, link_other, Displaces, hl, hask]
  · rw [hload]
    refine leaves_early rfl (fun h => hk (h hask).2.1) (.unlinked hask hl hk) (fun m => ?_)
      (fun m => ?_)
    · simp [Environment.start, attached_ours, hk]
    · simp [Environment.start, attached_other, Displaces, hl, hask]
  · rw [hload]
    refine leaves_early rfl (fun h => hm (h hask).2.2) (.noMaps hask hl hk hm) (fun m => ?_)
      (fun m => ?_)
    · simp [Environment.start, attached_ours, hl, hk, hm, hask]
    · simp [Environment.start, attached_other, Displaces, hl, hask]
  · have hreach : Reaches asked env := fun _ => ⟨hl, hk, hm⟩
    obtain ⟨hbuf, hend, hlink⟩ := ended_record hflags env numLogBuff hreach (attached env o env.link)
    rw [hload]
    change Leaves asked o env numLogBuff
      (ended cfg env (record env numLogBuff ⟨.empty, attached env o env.link⟩))
    refine ⟨hbuf.proper, fun m => ?_, fun m => ?_, fun i => (hbuf.held i).trans ?_, hend,
      hend.exited_zero_iff, hend.crashed_iff⟩
    · rcases hlink with ⟨hrec, hdet, hlink⟩ | ⟨hno, hlink⟩
      · simp [hlink, hk, hm, hrec, hdet, Function.update_apply, attached_ours]
      · simp [hlink, attached_ours, hl, hk, hm, hask, hno]
    · rcases hlink with ⟨hrec, hdet, hlink⟩ | ⟨hno, hlink⟩
      · simp [hlink, Displaces, hl, hk, hask, Function.update_apply, attached_other]
      · simp [hlink, Displaces, hl, hk, hask, attached_other]
    · simp [hreach]

end Measuring

/-- A file to load the program from has been named, and the last one counts. -/
def Asked (opts : List Opt) : Prop :=
  ∃ arg, lastWith kind .filename opts = some (.filename arg) ∧ arg.chars ≠ []

def Ready (host : Host) (malloc : Bool) (opts : List Opt) : Prop :=
  Parsable host malloc opts ∧ ∃ o ∈ opts, kind o = .dev

theorem kind_eq_dev {o : Opt} (h : kind o = .dev) : ∃ name, o = .dev name := by
  cases o with
  | dev name => exact ⟨name, rfl⟩
  | _ => cases h

theorem kind_eq_filename {o : Opt} (h : kind o = .filename) : ∃ arg, o = .filename arg := by
  cases o with
  | filename arg => exact ⟨arg, rfl⟩
  | _ => cases h

theorem summary_ifindex (host : Host) (opts : List Opt) :
    (summary host opts).ifindex = -1 ↔ ¬ ∃ o ∈ opts, kind o = .dev := by
  change devIndex host (-1) (lastWith kind .dev opts) = -1 ↔ _
  cases hlast : lastWith kind .dev opts with
  | none =>
      have hnone := lastWith_eq_none.mp hlast
      refine ⟨fun _ => ?_, fun _ => rfl⟩
      rintro ⟨o, ho, hk⟩
      exact hnone o ho hk
  | some o =>
      obtain ⟨ho, hk⟩ := lastWith_some hlast
      obtain ⟨name, rfl⟩ := kind_eq_dev hk
      refine ⟨fun h => ?_, fun h => absurd ⟨_, ho, hk⟩ h⟩
      rw [devIndex] at h
      omega

theorem summary_filename (host : Host) (opts : List Opt) :
    (summary host opts).filename.headD 0 ≠ 0 ↔ Asked opts := by
  change (buffer 512 (zeroed 512) (lastWith kind .filename opts)).headD 0 ≠ 0 ↔ _
  rw [Asked]
  cases hlast : lastWith kind .filename opts with
  | none => exact ⟨fun h => absurd rfl h, fun ⟨_, h, _⟩ => (by cases h)⟩
  | some o =>
      obtain ⟨arg, rfl⟩ := kind_eq_filename (lastWith_some hlast).2
      have hiff : (buffer 512 (zeroed 512) (some (.filename arg))).headD 0 ≠ 0 ↔ arg.chars ≠ [] := by
        rw [buffer, strncpy]
        cases harg : arg.chars with
        | nil => exact ⟨fun h => absurd rfl h, fun h => absurd rfl h⟩
        | cons c cs =>
            have hc : c ≠ 0 := by
              rintro rfl
              exact arg.noNul (by simp [harg])
            exact ⟨fun _ => by simp, fun _ => hc⟩
      rw [hiff]
      constructor
      · intro h
        exact ⟨arg, rfl, h⟩
      · rintro ⟨arg', he, h⟩
        cases he
        exact h

theorem main_unready {host : Host} {opts : List Opt} {env : Environment}
    (h : ¬ Ready host env.optionsMalloc opts) (numLogBuff : Nat) :
    main host opts env numLogBuff = (.exited exitFailOption, env.start) := by
  rw [main]
  by_cases hall : Parsable host env.optionsMalloc opts
  · have hif := (summary_ifindex host opts).mpr (fun hd => h ⟨hall, hd⟩)
    rw [(parse_initial host env.optionsMalloc opts).1 hall]
    exact if_pos hif
  · rw [(parse_initial host env.optionsMalloc opts).2 hall]

theorem main_ready {host : Host} {opts : List Opt} {env : Environment}
    (h : Ready host env.optionsMalloc opts) (numLogBuff : Nat) :
    main host opts env numLogBuff =
      if .unload ∈ opts then
        (.exited (xdpLinkDetach (summary host opts) env 0 env.start).1,
          (xdpLinkDetach (summary host opts) env 0 env.start).2)
      else measure (summary host opts) env numLogBuff := by
  have hif : (summary host opts).ifindex ≠ -1 := fun he => (summary_ifindex host opts).mp he h.2
  have hun : (summary host opts).doUnload = decide (.unload ∈ opts) := rfl
  rw [main, (parse_initial host env.optionsMalloc opts).1 h.1]
  simp only [hif, hun, decide_eq_true_eq, if_false]

/-- For every command line, every interface and every way the calls of the run turn
out: a run that cannot use its options or has no device ends before it does anything;
with --unload the program at the mode of the flags is taken off, whoever's it is; and a
measuring run leaves its program there exactly if it had put it on and did not get to a
detaching that worked. A program of another that is at the same mode is lost as soon as
the run's own gets onto the interface. -/
theorem main_leaves (host : Host) (opts : List Opt) (env : Environment) (numLogBuff : Nat) :
    (¬ Ready host env.optionsMalloc opts →
      main host opts env numLogBuff = (.exited exitFailOption, env.start)) ∧
    (Ready host env.optionsMalloc opts ∧ .unload ∈ opts →
      (main host opts env numLogBuff).2.buffers = .empty ∧
      (∀ m, (main host opts env numLogBuff).2.link m ≠ some .ours) ∧
      (∀ m, (main host opts env numLogBuff).2.link m = some .other ↔
        env.others m = true ∧ ¬ (Detaches env ∧ m = modeAsked env (lastWith kind .mode opts))) ∧
      ((main host opts env numLogBuff).1 = .exited 0 ↔ Detaches env ∨ Bare env)) ∧
    (Ready host env.optionsMalloc opts ∧ .unload ∉ opts →
      Leaves (Asked opts) (lastWith kind .mode opts) env numLogBuff (main host opts env numLogBuff)) := by
  have hflags : (summary host opts).xdpFlags = modeFlags (lastWith kind .mode opts) := rfl
  refine ⟨fun h => main_unready h numLogBuff, ?_, ?_⟩
  · rintro ⟨hready, hun⟩
    rw [main_ready hready, if_pos hun]
    rcases xdpLinkDetach_cases hflags env env.start with ⟨hdet, hd⟩ | ⟨hdet, code, hcode, hd⟩
    · rw [hd]
      simp [hdet, Environment.start, Function.update_apply, link_ours, link_other, and_comm]
    · rw [hd]
      simp [hdet, hcode, Environment.start, link_ours, link_other]
  · rintro ⟨hready, hun⟩
    rw [main_ready hready, if_neg hun]
    by_cases hask : Asked opts
    · exact measure_loaded hflags env numLogBuff ((summary_filename host opts).mpr hask) hask
    · have hname : (summary host opts).filename.headD 0 = 0 := by
        by_contra hne
        exact hask ((summary_filename host opts).mp hne)
      exact measure_bare hflags env numLogBuff hname hask

/-- Another's program is at the mode of the run's, which replaces it, and then the
log buffers cannot be had. -/
def noMemory : Environment where
  others := fun m => decide (m = .skb)
  autoMode := .skb
  optionsMalloc := true
  loadBpf := true
  progFd := some 5
  attach := 0
  unloadOther := 0
  attachAgain := 0
  attach_le := Int.le_refl 0
  unloadOther_le := Int.le_refl 0
  attachAgain_le := Int.le_refl 0
  timeMapFd := 6
  pktMapFd := 7
  malloc := fun i => decide (i = 0)
  clockGettime := true
  fopenUs := true
  fopenKern := true
  getLinkXdpId := (0, 1)
  detach := 0
  detach_le := Int.le_refl 0

def oneInterface : Host := ⟨fun _ => 2, fun _ => by decide⟩

def eth0 : CString := ⟨[101, 116, 104, 48], by decide⟩

def kernO : CString := ⟨[107, 101, 114, 110, 46, 111], by decide⟩

theorem noMemory_leaves_program :
    (main oneInterface [.dev eth0, .filename kernO] noMemory 2).2.link .skb = some .ours ∧
      (main oneInterface [.dev eth0, .filename kernO] noMemory 2).1 ≠ .exited 0 := by
  have hready : Ready oneInterface noMemory.optionsMalloc [.dev eth0, .filename kernO] := by
    refine ⟨⟨rfl, ?_⟩, .dev eth0, by simp, rfl⟩
    intro o ho
    rcases List.mem_pair.mp ho with rfl | rfl
    · exact ⟨by decide, by decide⟩
    · trivial
  have hno : ¬ Recorded noMemory 2 := by
    intro hrec
    have hmem := hrec.memory 1 (by decide)
    cases hmem
  have hleaves := (main_leaves oneInterface [.dev eth0, .filename kernO] noMemory 2).2.2
    ⟨hready, by simp⟩
  constructor
  · refine (hleaves.ours .skb).mpr ⟨rfl, ⟨kernO, rfl, by decide⟩, ⟨rfl, 5, rfl, by decide⟩, .inl rfl, ?_⟩
    exact fun h => hno h.2.1
  · exact fun h => hno (hleaves.code.mp h).2

end PacketIntercept.LoaderLifecycle
