import PacketIntercept.DecimalText
import PacketIntercept.Runs

namespace PacketIntercept.Params

open DecimalText Runs

def ifNamesize : Nat := 16
def exitFailOption : Int := 2

def xdpFlagsUpdateIfNoexist : BitVec 32 := 1
def xdpFlagsSkbMode : BitVec 32 := 2
def xdpFlagsDrvMode : BitVec 32 := 4
def xdpFlagsHwMode : BitVec 32 := 8
def xdpFlagsModes : BitVec 32 := xdpFlagsSkbMode ||| xdpFlagsDrvMode ||| xdpFlagsHwMode
def xdpFlagsMask : BitVec 32 := xdpFlagsUpdateIfNoexist ||| xdpFlagsModes

def xdpCopy : BitVec 16 := 2
def xdpZerocopy : BitVec 16 := 4

structure CString where
  chars : List UInt8
  noNul : 0 ∉ chars
deriving DecidableEq

def zeroed (n : Nat) : List UInt8 := List.replicate n 0

/-- All n bytes of the destination are written. -/
def strncpy (n : Nat) (s : CString) : List UInt8 :=
  s.chars.take n ++ zeroed (n - s.chars.length)

def isspace (c : UInt8) : Bool := c == 32 || 9 ≤ c && c ≤ 13

def digits (cs : List UInt8) : Int :=
  (cs.takeWhile isDigit).foldl (fun n c => 10 * n + digitValue c) 0

def longMax : Int := 9223372036854775807
def longMin : Int := -9223372036854775808

/-- A number too large for a long becomes the largest or the smallest one. -/
def strtol (s : CString) : Int :=
  let n := match s.chars.dropWhile isspace with
    | 45 :: cs => -digits cs
    | 43 :: cs => digits cs
    | cs => digits cs
  max longMin (min longMax n)

/-- (int) strtol(s, NULL, 10), as in glibc. -/
def atoi (s : CString) : BitVec 32 := BitVec.ofInt 32 (strtol s)

/-- What getopt_long returns, with the argument where there is one. -/
inductive Opt
  | dev (name : CString)
  | redirectDev (name : CString)
  | autoMode
  | skbMode
  | nativeMode
  | offloadMode
  | force
  | reuseMaps
  | unload
  | pollMode
  | quiet
  | queue (arg : CString)
  | filename (arg : CString)
  | progsec (arg : CString)
  | srcMac (arg : CString)
  | destMac (arg : CString)
  | copy
  | zeroCopy
  | help
  | unknown
deriving DecidableEq

structure Config where
  xdpFlags : BitVec 32
  ifindex : Int
  ifname : Option (List UInt8)
  redirectIfindex : Int
  redirectIfname : Option (List UInt8)
  doUnload : Bool
  reuseMaps : Bool
  filename : List UInt8
  progsec : List UInt8
  srcMac : List UInt8
  destMac : List UInt8
  xskBindFlags : BitVec 16
  xskIfQueue : BitVec 32
  xskPollMode : Bool

def xdpSock : CString := ⟨[120, 100, 112, 95, 115, 111, 99, 107], by decide⟩

/-- The configuration main starts with. -/
def initial : Config where
  xdpFlags := 0
  ifindex := -1
  ifname := none
  redirectIfindex := 0
  redirectIfname := none
  doUnload := false
  reuseMaps := false
  filename := zeroed 512
  progsec := strncpy 32 xdpSock
  srcMac := zeroed 18
  destMac := zeroed 18
  xskBindFlags := 0
  xskIfQueue := 0
  xskPollMode := false

/-- The interfaces of the machine: zero stands for a name there is none of. -/
structure Host where
  ifNametoindex : CString → Nat
  index_le : ∀ name, ifNametoindex name ≤ 2147483647

/-- One round of the loop, or the status the process exits with. -/
def parseOpt (host : Host) (cfg : Config) : Opt → Except Int Config
  | .dev name =>
      if ifNamesize ≤ name.chars.length then .error exitFailOption
      else if host.ifNametoindex name = 0 then .error exitFailOption
      else .ok { cfg with ifname := some (strncpy ifNamesize name), ifindex := host.ifNametoindex name }
  | .redirectDev name =>
      if ifNamesize ≤ name.chars.length then .error exitFailOption
      else if host.ifNametoindex name = 0 then .error exitFailOption
      else .ok { cfg with redirectIfname := some (strncpy ifNamesize name),
                          redirectIfindex := host.ifNametoindex name }
  | .autoMode => .ok { cfg with xdpFlags := cfg.xdpFlags &&& ~~~xdpFlagsModes }
  | .skbMode =>
      .ok { cfg with xdpFlags := (cfg.xdpFlags &&& ~~~xdpFlagsModes) ||| xdpFlagsSkbMode,
                     xskBindFlags := (cfg.xskBindFlags &&& xdpZerocopy) ||| xdpCopy }
  | .nativeMode => .ok { cfg with xdpFlags := (cfg.xdpFlags &&& ~~~xdpFlagsModes) ||| xdpFlagsDrvMode }
  | .offloadMode => .ok { cfg with xdpFlags := (cfg.xdpFlags &&& ~~~xdpFlagsModes) ||| xdpFlagsHwMode }
  | .force => .ok { cfg with xdpFlags := cfg.xdpFlags &&& ~~~xdpFlagsUpdateIfNoexist }
  | .reuseMaps => .ok { cfg with reuseMaps := true }
  | .unload => .ok { cfg with doUnload := true }
  | .pollMode => .ok { cfg with xskPollMode := true }
  | .quiet => .ok cfg
  | .queue arg => .ok { cfg with xskIfQueue := atoi arg }
  | .filename arg => .ok { cfg with filename := strncpy 512 arg }
  | .progsec arg => .ok { cfg with progsec := strncpy 32 arg }
  | .srcMac arg => .ok { cfg with srcMac := strncpy 18 arg }
  | .destMac arg => .ok { cfg with destMac := strncpy 18 arg }
  | .copy => .ok { cfg with xskBindFlags := (cfg.xskBindFlags &&& xdpZerocopy) ||| xdpCopy }
  | .zeroCopy => .ok { cfg with xskBindFlags := (cfg.xskBindFlags &&& xdpCopy) ||| xdpZerocopy }
  | .help => .error exitFailOption
  | .unknown => .error exitFailOption

def parseOptions (host : Host) : List Opt → Config → Except Int Config
  | [], cfg => .ok cfg
  | o :: opts, cfg => do
      let cfg ← parseOpt host cfg o
      parseOptions host opts cfg

/-- The options are what getopt_long returns one after the other; malloc is whether
option_wrappers_to_options gets its memory. -/
def parseCmdlineArgs (host : Host) (malloc : Bool) (opts : List Opt) (cfg : Config) : Except Int Config :=
  if malloc then parseOptions host opts cfg else .error exitFailOption

/-- Options that write the same field. -/
inductive Kind
  | dev
  | redirectDev
  | mode
  | queue
  | filename
  | progsec
  | srcMac
  | destMac
  | other
deriving DecidableEq

def kind : Opt → Kind
  | .dev _ => .dev
  | .redirectDev _ => .redirectDev
  | .autoMode => .mode
  | .skbMode => .mode
  | .nativeMode => .mode
  | .offloadMode => .mode
  | .queue _ => .queue
  | .filename _ => .filename
  | .progsec _ => .progsec
  | .srcMac _ => .srcMac
  | .destMac _ => .destMac
  | _ => .other

def NameKnown (host : Host) (name : CString) : Prop :=
  name.chars.length < ifNamesize ∧ host.ifNametoindex name ≠ 0

instance (host : Host) (name : CString) : Decidable (NameKnown host name) :=
  inferInstanceAs (Decidable (_ ∧ _))

def Usable (host : Host) : Opt → Prop
  | .dev name => NameKnown host name
  | .redirectDev name => NameKnown host name
  | .help => False
  | .unknown => False
  | _ => True

def modeFlags : Option Opt → BitVec 32
  | some .skbMode => xdpFlagsSkbMode
  | some .nativeMode => xdpFlagsDrvMode
  | some .offloadMode => xdpFlagsHwMode
  | _ => 0

def devIndex (host : Host) (none : Int) : Option Opt → Int
  | some (.dev name) => host.ifNametoindex name
  | some (.redirectDev name) => host.ifNametoindex name
  | _ => none

def devName : Option Opt → Option (List UInt8)
  | some (.dev name) => some (strncpy ifNamesize name)
  | some (.redirectDev name) => some (strncpy ifNamesize name)
  | _ => none

def buffer (n : Nat) (none : List UInt8) : Option Opt → List UInt8
  | some (.filename arg) => strncpy n arg
  | some (.progsec arg) => strncpy n arg
  | some (.srcMac arg) => strncpy n arg
  | some (.destMac arg) => strncpy n arg
  | _ => none

def queueIndex : Option Opt → BitVec 32
  | some (.queue arg) => atoi arg
  | _ => 0

/-- The configuration an option list stands for: of each kind the last option
counts, and the copy flags add up. -/
def summary (host : Host) (opts : List Opt) : Config where
  xdpFlags := modeFlags (lastWith kind .mode opts)
  ifindex := devIndex host (-1) (lastWith kind .dev opts)
  ifname := devName (lastWith kind .dev opts)
  redirectIfindex := devIndex host 0 (lastWith kind .redirectDev opts)
  redirectIfname := devName (lastWith kind .redirectDev opts)
  doUnload := decide (.unload ∈ opts)
  reuseMaps := decide (.reuseMaps ∈ opts)
  filename := buffer 512 (zeroed 512) (lastWith kind .filename opts)
  progsec := buffer 32 (strncpy 32 xdpSock) (lastWith kind .progsec opts)
  srcMac := buffer 18 (zeroed 18) (lastWith kind .srcMac opts)
  destMac := buffer 18 (zeroed 18) (lastWith kind .destMac opts)
  xskBindFlags := (if .copy ∈ opts ∨ .skbMode ∈ opts then xdpCopy else 0) |||
    (if .zeroCopy ∈ opts then xdpZerocopy else 0)
  xskIfQueue := queueIndex (lastWith kind .queue opts)
  xskPollMode := decide (.pollMode ∈ opts)

theorem modeFlags_cases (o : Option Opt) :
    modeFlags o = 0 ∨ modeFlags o = xdpFlagsSkbMode ∨ modeFlags o = xdpFlagsDrvMode ∨
      modeFlags o = xdpFlagsHwMode := by
  rw [modeFlags.eq_def]
  split
  · exact .inr (.inl rfl)
  · exact .inr (.inr (.inl rfl))
  · exact .inr (.inr (.inr rfl))
  · exact .inl rfl

theorem modeFlags_clear (o : Option Opt) : modeFlags o &&& ~~~xdpFlagsModes = 0 := by
  rcases modeFlags_cases o with h | h | h | h <;> rw [h] <;> rfl

theorem modeFlags_force (o : Option Opt) :
    modeFlags o &&& ~~~xdpFlagsUpdateIfNoexist = modeFlags o := by
  rcases modeFlags_cases o with h | h | h | h <;> rw [h] <;> rfl

theorem modeFlags_noexist (o : Option Opt) : modeFlags o &&& xdpFlagsUpdateIfNoexist = 0 := by
  rcases modeFlags_cases o with h | h | h | h <;> rw [h] <;> rfl

theorem bindFlags_copy (c z : Prop) [Decidable c] [Decidable z] :
    (((if c then xdpCopy else 0#16) ||| (if z then xdpZerocopy else 0#16)) &&& xdpZerocopy) ||| xdpCopy =
      xdpCopy ||| (if z then xdpZerocopy else 0#16) := by
  by_cases hc : c <;> by_cases hz : z <;> simp only [hc, hz, if_true, if_false] <;> decide

theorem bindFlags_zeroCopy (c z : Prop) [Decidable c] [Decidable z] :
    (((if c then xdpCopy else 0#16) ||| (if z then xdpZerocopy else 0#16)) &&& xdpCopy) ||| xdpZerocopy =
      (if c then xdpCopy else 0#16) ||| xdpZerocopy := by
  by_cases hc : c <;> by_cases hz : z <;> simp only [hc, hz, if_true, if_false] <;> decide

theorem parseOpt_name (host : Host) (name : CString) (cfg : Config) :
    (if ifNamesize ≤ name.chars.length then .error exitFailOption
      else if host.ifNametoindex name = 0 then .error exitFailOption else (.ok cfg : Except Int Config)) =
    if NameKnown host name then .ok cfg else .error exitFailOption := by
  by_cases hlen : ifNamesize ≤ name.chars.length
  · rw [if_pos hlen, if_neg (fun h => Nat.not_lt.mpr hlen h.1)]
  · rw [if_neg hlen]
    by_cases hz : host.ifNametoindex name = 0
    · rw [if_pos hz, if_neg (fun h => h.2 hz)]
    · rw [if_neg hz, if_pos ⟨Nat.not_le.mp hlen, hz⟩]

theorem parseOpt_summary (host : Host) (opts : List Opt) {o : Opt} (ho : Usable host o) :
    parseOpt host (summary host opts) o = .ok (summary host (opts ++ [o])) := by
  cases o
  case dev name =>
    rw [parseOpt, parseOpt_name, if_pos (show NameKnown host name from ho)]
    simp [summary, lastWith_snoc, kind, devIndex, devName]
  case redirectDev name =>
    rw [parseOpt, parseOpt_name, if_pos (show NameKnown host name from ho)]
    simp [summary, lastWith_snoc, kind, devIndex, devName]
  case help => exact ho.elim
  case unknown => exact ho.elim
  case autoMode | skbMode | nativeMode | offloadMode =>
    simp [parseOpt, summary, lastWith_snoc, kind, modeFlags_clear, bindFlags_copy]
    rfl
  all_goals
    simp [parseOpt, summary, lastWith_snoc, kind, modeFlags_force, bindFlags_copy, bindFlags_zeroCopy,
      queueIndex, buffer]

theorem parseOpt_unusable (host : Host) (cfg : Config) {o : Opt} (ho : ¬ Usable host o) :
    parseOpt host cfg o = .error exitFailOption := by
  cases o
  case dev name => rw [parseOpt, parseOpt_name, if_neg (show ¬ NameKnown host name from ho)]
  case redirectDev name => rw [parseOpt, parseOpt_name, if_neg (show ¬ NameKnown host name from ho)]
  case help => rfl
  case unknown => rfl
  all_goals exact absurd trivial ho

theorem parse_from_summary (host : Host) (past opts : List Opt) :
    ((∀ o ∈ opts, Usable host o) →
      parseOptions host opts (summary host past) = .ok (summary host (past ++ opts))) ∧
    ((∃ o ∈ opts, ¬ Usable host o) →
      parseOptions host opts (summary host past) = .error exitFailOption) := by
  induction opts generalizing past with
  | nil => simp [parseOptions]
  | cons o opts ih =>
      rw [parseOptions]
      by_cases ho : Usable host o
      · rw [parseOpt_summary host past ho]
        have hrest := ih (past ++ [o])
        rw [List.append_assoc, List.singleton_append] at hrest
        refine ⟨fun h => hrest.1 (fun o' ho' => h o' (List.mem_cons_of_mem o ho')), ?_⟩
        rintro ⟨o', ho', hno⟩
        rcases List.mem_cons.mp ho' with rfl | ho'
        · exact absurd ho hno
        · exact hrest.2 ⟨o', ho', hno⟩
      · rw [parseOpt_unusable host _ ho]
        exact ⟨fun h => absurd (h o List.mem_cons_self) ho, fun _ => rfl⟩

/-- What a command line and the machine must have for the parsing to get through. -/
def Parsable (host : Host) (malloc : Bool) (opts : List Opt) : Prop :=
  malloc = true ∧ ∀ o ∈ opts, Usable host o

theorem parse_initial (host : Host) (malloc : Bool) (opts : List Opt) :
    (Parsable host malloc opts → parseCmdlineArgs host malloc opts initial = .ok (summary host opts)) ∧
    (¬ Parsable host malloc opts → parseCmdlineArgs host malloc opts initial = .error exitFailOption) := by
  have hparse := parse_from_summary host [] opts
  cases malloc with
  | false => exact ⟨fun h => absurd h.1 Bool.false_ne_true, fun _ => rfl⟩
  | true =>
      refine ⟨fun h => hparse.1 h.2, fun h => hparse.2 ?_⟩
      by_contra hno
      exact h ⟨rfl, fun o ho => by_contra fun hu => hno ⟨o, ho, hu⟩⟩

/-- Parsing ends the process exactly if some option cannot be used or the memory for
the options is not to be had; otherwise the configuration is the one the options
stand for together. -/
theorem parse_is_summary (host : Host) (malloc : Bool) (opts : List Opt) :
    (∀ cfg, parseCmdlineArgs host malloc opts initial = .ok cfg ↔
      (malloc = true ∧ ∀ o ∈ opts, Usable host o) ∧ cfg = summary host opts) ∧
    (∀ code, parseCmdlineArgs host malloc opts initial = .error code ↔
      (malloc = false ∨ ∃ o ∈ opts, ¬ Usable host o) ∧ code = exitFailOption) := by
  have hparse := parse_initial host malloc opts
  have hnot : ¬ Parsable host malloc opts ↔ malloc = false ∨ ∃ o ∈ opts, ¬ Usable host o := by
    simp only [Parsable, not_and_or, Bool.not_eq_true, not_forall, exists_prop]
  by_cases hall : Parsable host malloc opts
  · rw [hparse.1 hall, ← hnot]
    refine ⟨fun cfg => ⟨fun h => ⟨hall, (Except.ok.inj h).symm⟩, fun h => by rw [h.2]⟩, ?_⟩
    exact fun code => ⟨fun h => (by cases h), fun h => absurd hall h.1⟩
  · rw [hparse.2 hall, ← hnot]
    refine ⟨fun cfg => ⟨fun h => (by cases h), fun h => absurd h.1 hall⟩, ?_⟩
    exact fun code => ⟨fun h => ⟨hall, (Except.error.inj h).symm⟩, fun h => by rw [h.2]⟩

example (host : Host) : (summary host [.nativeMode, .skbMode, .zeroCopy]).xskBindFlags = 6 := rfl

end PacketIntercept.Params
