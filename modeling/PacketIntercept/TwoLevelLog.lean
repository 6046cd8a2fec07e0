import PacketIntercept.BlockGrids
import PacketIntercept.Runs
import PacketIntercept.LogBuffs

namespace PacketIntercept.TwoLevelLog

open BlockGrids Common LogBuffs Runs

inductive Program
  | interceptModule
  | userProcessing
  | ebpfMeasureUser
  | server

/-- The width of buff_index: unsigned int, and unsigned long in the server. -/
def Program.indexBits : Program → Nat
  | .server => 64
  | _ => 32

/-- The module asks for 2^PAGES_ORDER pages, the others for the entries they count. -/
def Program.blockBytes (t : Tuning) : Program → Nat
  | .interceptModule => 2 ^ t.pagesOrder * 4096
  | _ => t.maxEntriesPerLogBuff * 8

variable (p : Program) (t : Tuning)

abbrev LogBuffs := Grid t.numLogBuff (p.blockBytes t / 8) UInt64

def buffIndex (uid : Nat) : Nat := uid / t.maxEntriesPerLogBuff % 2 ^ p.indexBits

def offset (uid : Nat) : Nat := uid % t.maxEntriesPerLogBuff

structure Write where
  uid : UInt64
  now : UInt64

/-- The guarded write. It has no result where C leaves the array. -/
def write (g : LogBuffs p t) (w : Write) : Option (LogBuffs p t) :=
  if w.uid.toNat < t.maxLogEntry then
    store g (buffIndex p t w.uid.toNat) (offset t w.uid.toNat) w.now
  else some g

def writes (g : LogBuffs p t) (ws : List Write) : Option (LogBuffs p t) := ws.foldlM (write p t) g

def line (g : LogBuffs p t) (k : Nat) : Option UInt64 := fetch g (buffIndex p t k) (offset t k)

def exportLines (g : LogBuffs p t) : Option (List UInt64) :=
  (List.range t.maxLogEntry).mapM (line p t g)

structure Admissible : Prop where
  pagesOrder_pos : 1 ≤ t.pagesOrder
  maxLogEntry_fits : t.maxLogEntry < 2 ^ 31
  blockBytes_fits : (2 <<< (t.pagesOrder - 1)) * sizeOfPageHc < 2 ^ 31

/-- The two levels of buffers serve as one array of MAX_LOG_ENTRY entries. -/
structure Faithful : Prop where
  inside : ∀ uid : UInt64, uid.toNat < t.maxLogEntry →
    buffIndex p t uid.toNat < t.numLogBuff ∧ offset t uid.toNat < t.maxEntriesPerLogBuff ∧
      8 * offset t uid.toNat + 8 ≤ p.blockBytes t
  apart : ∀ u v : UInt64, u.toNat < t.maxLogEntry → v.toNat < t.maxLogEntry → u ≠ v →
    (buffIndex p t u.toNat, offset t u.toNat) ≠ (buffIndex p t v.toNat, offset t v.toNat)
  unguarded : ∀ (g : LogBuffs p t) (w : Write), t.maxLogEntry ≤ w.uid.toNat →
    write p t g w = some g
  exported : ∀ (g : LogBuffs p t) (ws : List Write), ∃ g' before after,
    writes p t g ws = some g' ∧ exportLines p t g = some before ∧
      exportLines p t g' = some after ∧ after.length = t.maxLogEntry ∧
      ∀ k, k < t.maxLogEntry →
        after[k]? = ((lastWith (fun w => w.uid.toNat) k ws).map Write.now).or before[k]?

variable {p t}

theorem mapM_eq_some_iff {α β : Type} (f : α → Option β) (l : List α) (r : List β) :
    l.mapM f = some r ↔ l.map f = r.map some := by
  induction l generalizing r with
  | nil => cases r <;> simp
  | cons a l ih =>
      cases r with
      | nil => cases hf : f a <;> cases hl : l.mapM f <;> simp [hf, hl]
      | cons b r =>
          rw [List.mapM_cons, List.map_cons, List.map_cons, List.cons.injEq, ← ih]
          cases hf : f a <;> cases hl : l.mapM f <;> simp

theorem exportLines_eq_some {g : LogBuffs p t} {lines : List UInt64} :
    exportLines p t g = some lines ↔ (List.range t.maxLogEntry).map (line p t g) = lines.map some :=
  mapM_eq_some_iff _ _ _

theorem exportLines_getElem? {g : LogBuffs p t} {lines : List UInt64}
    (h : exportLines p t g = some lines) :
    lines.length = t.maxLogEntry ∧ ∀ k, k < t.maxLogEntry → lines[k]? = line p t g k := by
  have hmap := exportLines_eq_some.mp h
  constructor
  · have hlen := congrArg List.length hmap
    rwa [List.length_map, List.length_range, List.length_map, eq_comm] at hlen
  · intro k hk
    have hget := congrArg (fun l => l[k]?) hmap
    simp only [List.getElem?_map, List.getElem?_range hk, Option.map_some] at hget
    cases hl : lines[k]? with
    | none => simp [hl] at hget
    | some x => simpa [hl] using hget.symm

theorem maxLogEntry_eq_pow : t.maxLogEntry = 2 ^ (t.maxLogEntryShift + 1) := by
  rw [Tuning.maxLogEntry, Nat.shiftLeft_eq, Nat.pow_succ, Nat.mul_comm]

section Admissible

variable (ht : Admissible t)

include ht

theorem two_shiftLeft_pred : 2 <<< (t.pagesOrder - 1) = 2 ^ t.pagesOrder := by
  obtain ⟨q, hq⟩ := Nat.exists_eq_add_of_le ht.pagesOrder_pos
  rw [hq, Nat.add_sub_cancel_left, Nat.shiftLeft_eq, Nat.pow_add, Nat.pow_one]

theorem maxEntriesPerLogBuff_eq_pow : t.maxEntriesPerLogBuff = 2 ^ (t.pagesOrder + 9) := by
  rw [Tuning.maxEntriesPerLogBuff, two_shiftLeft_pred ht, sizeOfPageHc, Nat.pow_add]
  omega

theorem blockBytes_eq (p : Program) : p.blockBytes t = t.maxEntriesPerLogBuff * 8 := by
  cases p with
  | interceptModule =>
      rw [Program.blockBytes, maxEntriesPerLogBuff_eq_pow ht, Nat.pow_add]
      omega
  | userProcessing => rfl
  | ebpfMeasureUser => rfl
  | server => rfl

theorem numLogBuff_eq_zero (hs : t.maxLogEntryShift < t.pagesOrder + 8) : t.numLogBuff = 0 := by
  rw [Tuning.numLogBuff, maxLogEntry_eq_pow, maxEntriesPerLogBuff_eq_pow ht]
  exact Nat.div_eq_of_lt (Nat.pow_lt_pow_right (by decide) (by omega))

/-- No uid that passes the guard makes buff_index wrap around. -/
theorem buffIndex_eq (p : Program) {uid : Nat} (hu : uid < t.maxLogEntry) :
    buffIndex p t uid = uid / t.maxEntriesPerLogBuff := by
  have hle : uid / t.maxEntriesPerLogBuff ≤ uid := Nat.div_le_self _ _
  have hfit := ht.maxLogEntry_fits
  apply Nat.mod_eq_of_lt
  cases p <;> simp only [Program.indexBits] <;> omega

theorem cell_apart (p : Program) {u v : Nat} (hu : u < t.maxLogEntry)
    (hv : v < t.maxLogEntry) (hi : buffIndex p t u = buffIndex p t v)
    (ho : offset t u = offset t v) : u = v := by
  rw [buffIndex_eq ht p hu, buffIndex_eq ht p hv] at hi
  exact cell_injective hi ho

variable (hs : t.pagesOrder + 8 ≤ t.maxLogEntryShift)

include hs

theorem numLogBuff_mul : t.numLogBuff * t.maxEntriesPerLogBuff = t.maxLogEntry := by
  rw [Tuning.numLogBuff, maxLogEntry_eq_pow, maxEntriesPerLogBuff_eq_pow ht]
  exact Nat.div_mul_cancel (Nat.pow_dvd_pow 2 (by omega))

theorem cell_inside (p : Program) {uid : Nat} (hu : uid < t.maxLogEntry) :
    buffIndex p t uid < t.numLogBuff ∧ offset t uid < t.maxEntriesPerLogBuff := by
  rw [buffIndex_eq ht p hu]
  exact cell_lt (by rwa [numLogBuff_mul ht hs])

theorem cell_inside_block (p : Program) {uid : Nat} (hu : uid < t.maxLogEntry) :
    buffIndex p t uid < t.numLogBuff ∧ offset t uid < p.blockBytes t / 8 := by
  rw [blockBytes_eq ht, Nat.mul_div_cancel _ (by decide)]
  exact cell_inside ht hs p hu

theorem line_isSome (g : LogBuffs p t) {k : Nat} (hk : k < t.maxLogEntry) : (line p t g k).isSome = true :=
  (fetch_isSome g _ _).mpr (cell_inside_block ht hs p hk)

theorem write_line (g : LogBuffs p t) (w : Write) : ∃ g', write p t g w = some g' ∧
      ∀ k, k < t.maxLogEntry → line p t g' k = if w.uid.toNat = k then some w.now else line p t g k := by
  by_cases hw : w.uid.toNat < t.maxLogEntry
  · obtain ⟨g', hg'⟩ := Option.isSome_iff_exists.mp
      ((store_isSome g _ _ w.now).mpr (cell_inside_block ht hs p hw))
    refine ⟨g', by rw [write, if_pos hw, hg'], ?_⟩
    intro k hk
    rw [line, fetch_store hg']
    by_cases hkw : w.uid.toNat = k
    · rw [if_pos hkw, if_pos ⟨by rw [hkw], by rw [hkw]⟩]
    · rw [if_neg hkw, if_neg, line]
      rintro ⟨hi, ho⟩
      exact hkw (cell_apart ht p hk hw hi ho).symm
  · refine ⟨g, if_neg hw, ?_⟩
    intro k hk
    have hne : w.uid.toNat ≠ k := fun he => hw (by rwa [he])
    rw [if_neg hne]

theorem writes_line (g : LogBuffs p t) (ws : List Write) : ∃ g', writes p t g ws = some g' ∧
      ∀ k, k < t.maxLogEntry →
        line p t g' k = ((lastWith (fun w => w.uid.toNat) k ws).map Write.now).or (line p t g k) := by
  induction ws generalizing g with
  | nil => exact ⟨g, rfl, fun k _ => rfl⟩
  | cons w ws ih =>
      obtain ⟨g₁, hg₁, hline₁⟩ := write_line ht hs g w
      obtain ⟨g₂, hg₂, hline₂⟩ := ih g₁
      refine ⟨g₂, ?_, ?_⟩
      · rw [writes, List.foldlM_cons, hg₁]
        exact hg₂
      · intro k hk
        rw [hline₂ k hk, hline₁ k hk, lastWith_cons]
        cases lastWith (fun w => w.uid.toNat) k ws with
        | some a => rfl
        | none => by_cases hkw : w.uid.toNat = k <;> simp [hkw]

theorem exportLines_isSome (g : LogBuffs p t) : ∃ lines, exportLines p t g = some lines := by
  refine ⟨(List.range t.maxLogEntry).map (fun k => (line p t g k).getD 0), ?_⟩
  rw [exportLines_eq_some, List.map_map]
  apply List.map_congr_left
  intro k hk
  obtain ⟨x, hx⟩ := Option.isSome_iff_exists.mp (line_isSome ht hs g (List.mem_range.mp hk))
  rw [Function.comp_apply, hx, Option.getD_some]

end Admissible

/-- The contents as the unbounded log the programs are described with. -/
def logOf (g : LogBuffs p t) : Log := fun i j => ((fetch g i j).map UInt64.toNat).getD 0

theorem write_refines_record (ht : Admissible t) {g g' : LogBuffs p t} {w : Write}
    (h : write p t g w = some g') : logOf g' = record t w.uid.toNat w.now.toNat (logOf g) := by
  rw [write] at h
  by_cases hw : w.uid.toNat < t.maxLogEntry
  · rw [if_pos hw, buffIndex_eq ht p hw] at h
    funext i j
    rw [logOf, fetch_store h, record, if_pos hw]
    by_cases hi : i = w.uid.toNat / t.maxEntriesPerLogBuff
    · rw [hi, Function.update_self]
      by_cases hj : j = w.uid.toNat % t.maxEntriesPerLogBuff
      · rw [hj, Function.update_self, if_pos ⟨rfl, rfl⟩]
        rfl
      · rw [Function.update_of_ne hj, if_neg (fun hc => hj hc.2), logOf]
    · rw [Function.update_of_ne hi, if_neg (fun hc => hi hc.1), logOf]
  · rw [if_neg hw, Option.some.injEq] at h
    rw [record, if_neg hw, h]

theorem writes_refine_records (ht : Admissible t) {g g' : LogBuffs p t} {ws : List Write}
    (h : writes p t g ws = some g') :
    logOf g' = ws.foldl (fun log w => record t w.uid.toNat w.now.toNat log) (logOf g) := by
  induction ws generalizing g with
  | nil => exact congrArg logOf (Option.some.inj h).symm
  | cons w ws ih =>
      rw [writes, List.foldlM_cons] at h
      obtain ⟨g₁, hg₁, hrest⟩ := Option.bind_eq_some_iff.mp h
      rw [List.foldl_cons, ← write_refines_record ht hg₁]
      exact ih hrest

theorem exportLines_refines_exportLog (ht : Admissible t) {g : LogBuffs p t} {lines : List UInt64}
    (h : exportLines p t g = some lines) : lines.map UInt64.toNat = exportLog t (logOf g) := by
  obtain ⟨hlen, hget⟩ := exportLines_getElem? h
  apply List.ext_getElem?
  intro k
  by_cases hk : k < t.maxLogEntry
  · rw [exportLog_getElem? t _ hk, List.getElem?_map]
    have hx := List.getElem?_eq_getElem (hlen ▸ hk)
    have hline := hx.symm.trans (hget k hk)
    rw [line, buffIndex_eq ht p hk, offset] at hline
    rw [hx, entry, logOf, ← hline]
    rfl
  · rw [List.getElem?_eq_none (by rw [List.length_map]; omega),
      List.getElem?_eq_none (by rw [exportLog, List.length_map, List.length_range]; omega)]

theorem faithful_of_le (ht : Admissible t) (hs : t.pagesOrder + 8 ≤ t.maxLogEntryShift)
    (p : Program) : Faithful p t := by
  constructor
  · intro uid hu
    obtain ⟨hi, ho⟩ := cell_inside ht hs p hu
    refine ⟨hi, ho, ?_⟩
    rw [blockBytes_eq ht]
    omega
  · intro u v hu hv hne he
    obtain ⟨hi, ho⟩ := Prod.mk.inj he
    exact hne (UInt64.toNat_inj.mp (cell_apart ht p hu hv hi ho))
  · intro g w hw
    exact if_neg (Nat.not_lt.mpr hw)
  · intro g ws
    obtain ⟨g', hg', hline⟩ := writes_line ht hs g ws
    obtain ⟨before, hbefore⟩ := exportLines_isSome ht hs g
    obtain ⟨after, hafter⟩ := exportLines_isSome ht hs g'
    obtain ⟨hlen, hget⟩ := exportLines_getElem? hafter
    refine ⟨g', before, after, hg', hbefore, hafter, hlen, ?_⟩
    intro k hk
    rw [hget k hk, hline k hk, (exportLines_getElem? hbefore).2 k hk]

theorem le_of_faithful (ht : Admissible t) (hf : Faithful p t) :
    t.pagesOrder + 8 ≤ t.maxLogEntryShift := by
  by_contra hs
  have hzero := numLogBuff_eq_zero ht (Nat.lt_of_not_le hs)
  have hpos : 0 < t.maxLogEntry := by
    rw [maxLogEntry_eq_pow]
    exact Nat.two_pow_pos _
  have hin := (hf.inside 0 hpos).1
  rw [hzero] at hin
  exact Nat.not_lt_zero _ hin

/-- NUM_LOG_BUFF is rounded down, so the log is an array of MAX_LOG_ENTRY
entries exactly for the tunings that fill one buffer at least. -/
theorem faithful_iff (p : Program) (t : Tuning) (ht : Admissible t) :
    Faithful p t ↔ t.pagesOrder + 8 ≤ t.maxLogEntryShift :=
  ⟨le_of_faithful ht, fun hs => faithful_of_le ht hs p⟩

theorem shipped_faithful :
    Admissible shipped ∧ Faithful .interceptModule shipped ∧ Faithful .server shipped :=
  have hshipped : Admissible shipped := by constructor <;> decide
  ⟨hshipped, (faithful_iff .interceptModule shipped hshipped).mpr (by decide),
    (faithful_iff .server shipped hshipped).mpr (by decide)⟩

/-- Half of the shipped entries: the guard lets uid 0 through, and there is no buffer. -/
theorem half_shipped_not_faithful :
    Admissible ⟨13, 6⟩ ∧ ¬ Faithful .interceptModule ⟨13, 6⟩ ∧ ¬ Faithful .server ⟨13, 6⟩ :=
  ⟨by constructor <;> decide,
    fun h => absurd (h.inside 0 (by decide)).1 (by decide),
    fun h => absurd (h.inside 0 (by decide)).1 (by decide)⟩

end PacketIntercept.TwoLevelLog
