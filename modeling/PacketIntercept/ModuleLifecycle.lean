import PacketIntercept.Common
import PacketIntercept.ResourceLedger

namespace PacketIntercept.ModuleLifecycle

open ResourceLedger

/-- What myinit acquires: the two kmalloc buffers, the block each turn of the
loop stores in log_buffs, the proc entry and the rx handler's registration. -/
inductive Resource
  | buffFromHere
  | buffTemp
  | logBuff (i : Nat)
  | procEntry
  | rxHandler
deriving DecidableEq

structure Environment where
  getFreePages : Nat → Bool
  filpOpen : Bool

def logBuffs (i : Nat) : List Resource := row .logBuff i

/-- The allocation loop: a failure frees the blocks before it and leaves myinit. -/
def allocLogBuffs (env : Environment) (is : List Nat) (l : Ledger Resource) : Bool × Ledger Resource :=
  l.acquireEach .logBuff env.getFreePages is

def myinit (env : Environment) (numLogBuff : Nat) (l : Ledger Resource) : Int × Ledger Resource :=
  match allocLogBuffs env (List.range numLogBuff) ((l.acquire .buffFromHere).acquire .buffTemp) with
  | (false, l) => (-1, l)
  | (true, l) => (0, (l.acquire .procEntry).acquire .rxHandler)

def myexit (env : Environment) (numLogBuff : Nat) (l : Ledger Resource) : Ledger Resource :=
  let l := l.release .rxHandler
  if env.filpOpen then
    (((l.release .procEntry).release .buffFromHere).release .buffTemp).releaseAll (logBuffs numLogBuff)
  else l

/-- A load that fails leaves nothing behind, and neither does a load and an
unload; nothing is released twice on the way. -/
structure ReleasesAll (env : Environment) (numLogBuff : Nat) : Prop where
  failed : (myinit env numLogBuff .empty).1 ≠ 0 → (myinit env numLogBuff .empty).2.Holds ∅
  unloaded : (myinit env numLogBuff .empty).1 = 0 →
    (myexit env numLogBuff (myinit env numLogBuff .empty).2).Holds ∅

/-- The buffers of the cache and of read, which no failure of myinit frees. -/
def buffers : Set Resource := {.buffFromHere, .buffTemp}

theorem logBuff_injective : Function.Injective Resource.logBuff := by
  intro i j he
  injection he

theorem logBuff_notMem_buffers (i : Nat) : .logBuff i ∉ buffers := by simp [buffers]

def loaded (numLogBuff : Nat) : Set Resource :=
  insert .rxHandler (insert .procEntry (buffers ∪ {r | r ∈ logBuffs numLogBuff}))

/-- The two ends of myinit: a failure frees the blocks, but not the two buffers. -/
theorem myinit_cases (env : Environment) (numLogBuff : Nat) :
    ((∀ i, i < numLogBuff → env.getFreePages i = true) ∧ (myinit env numLogBuff .empty).1 = 0 ∧
        (myinit env numLogBuff .empty).2.Holds (loaded numLogBuff)) ∨
      ((∃ i, i < numLogBuff ∧ env.getFreePages i = false) ∧ (myinit env numLogBuff .empty).1 = -1 ∧
        (myinit env numLogBuff .empty).2.Holds buffers) := by
  have hstart : ((Ledger.empty.acquire .buffFromHere).acquire .buffTemp).Holds buffers := by
    have h := (Ledger.holds_empty.acquire (r := Resource.buffFromHere) (by simp)).acquire
      (r := .buffTemp) (by simp)
    have hset : insert .buffTemp (insert .buffFromHere ∅) = buffers := by
      ext r
      simp [buffers, or_comm]
    rwa [hset] at h
  rw [myinit, allocLogBuffs]
  rcases Ledger.acquireEach_cases logBuff_injective logBuff_notMem_buffers env.getFreePages numLogBuff
    hstart with ⟨hall, l, hres, hholds⟩ | ⟨hfail, l, hres, hholds⟩
  · rw [hres]
    refine .inl ⟨hall, rfl, (hholds.acquire ?_).acquire ?_⟩
    · simp [buffers, mem_row]
    · simp [buffers, mem_row]
  · rw [hres]
    exact .inr ⟨hfail, rfl, hholds⟩

theorem myexit_holds (env : Environment) (numLogBuff : Nat) {l : Ledger Resource}
    (hl : l.Holds (loaded numLogBuff)) :
    (myexit env numLogBuff l).Holds (if env.filpOpen then ∅ else loaded numLogBuff \ {.rxHandler}) := by
  have hrx := hl.release (r := .rxHandler) (by simp [loaded])
  rw [myexit]
  cases env.filpOpen with
  | false => exact hrx
  | true =>
      have hproc := hrx.release (r := .procEntry) (by simp [loaded])
      have hcache := hproc.release (r := .buffFromHere) (by simp [loaded, buffers])
      have htemp := hcache.release (r := .buffTemp) (by simp [loaded, buffers])
      have hblocks : (((loaded numLogBuff \ {.rxHandler}) \ {.procEntry}) \ {.buffFromHere}) \
          {.buffTemp} = ∅ ∪ {r | r ∈ logBuffs numLogBuff} := by
        ext r
        cases r <;> simp [loaded, buffers, logBuffs, mem_row]
      rw [hblocks] at htemp
      exact htemp.release_row logBuff_injective (fun i => Set.notMem_empty _)

/-- A load that fails leaks the two buffers, an unload that cannot open its
file leaks all but the handler; every other path releases what it acquired. -/
theorem releasesAll_iff (env : Environment) (numLogBuff : Nat) :
    ReleasesAll env numLogBuff ↔
      (∀ i, i < numLogBuff → env.getFreePages i = true) ∧ env.filpOpen = true := by
  rcases myinit_cases env numLogBuff with ⟨hall, hres, hholds⟩ | ⟨⟨i, hi, hfail⟩, hres, hholds⟩
  · have hexit := myexit_holds env numLogBuff hholds
    constructor
    · intro h
      refine ⟨hall, ?_⟩
      by_contra hopen
      rw [if_neg hopen] at hexit
      have hleak : Resource.buffTemp ∈ loaded numLogBuff \ {.rxHandler} := by simp [loaded, buffers]
      rw [hexit.set_eq (h.unloaded hres)] at hleak
      exact hleak
    · rintro ⟨_, hopen⟩
      rw [if_pos hopen] at hexit
      exact ⟨fun hne => absurd hres hne, fun _ => hexit⟩
  · constructor
    · intro h
      have hleak : Resource.buffTemp ∈ buffers := .inr rfl
      rw [hholds.set_eq (h.failed (by rw [hres]; decide))] at hleak
      exact absurd hleak (Set.notMem_empty _)
    · rintro ⟨hall, _⟩
      rw [hall i hi] at hfail
      cases hfail

/-- The one block of the shipped module is refused; or it is not, and the log
file cannot be opened at the end. -/
theorem shipped_leaks :
    ¬ ReleasesAll ⟨fun _ => false, true⟩ Common.shipped.numLogBuff ∧
      ¬ ReleasesAll ⟨fun _ => true, false⟩ Common.shipped.numLogBuff := by
  constructor
  · intro h
    have hleak := ((h.failed (by decide)).held_iff .buffFromHere).mp (by decide)
    exact hleak
  · intro h
    have hleak := ((h.unloaded (by decide)).held_iff .procEntry).mp (by decide)
    exact hleak

end PacketIntercept.ModuleLifecycle
