import PacketIntercept.DecimalText
import PacketIntercept.LogBuffs

namespace PacketIntercept.KmLogFile

open Common DecimalText LogBuffs

structure OpenFile where
  bytes : List UInt8
  pos : Nat

/-- filp_open with O_RDWR | O_CREAT: a file that exists keeps its bytes. -/
def filpOpen (old : Option (List UInt8)) : OpenFile := ⟨old.getD [], 0⟩

def vfsWrite (fp : OpenFile) (data : List UInt8) : OpenFile :=
  let padded := fp.bytes ++ List.replicate (fp.pos - fp.bytes.length) 0
  ⟨padded.take fp.pos ++ data ++ padded.drop (fp.pos + data.length), fp.pos + data.length⟩

/-- The 128 bytes of temp after snprintf(temp, 100, "%lu\n", v). -/
def temp (v : UInt64) : List UInt8 :=
  let text := (decimal v.toNat ++ [newline]).take 99
  text ++ List.replicate (128 - text.length) 0

def strlen (s : List UInt8) : Nat := (s.takeWhile (· != 0)).length

def exportEntry (t : Tuning) (logBuffs : Nat → Nat → UInt64) (fp : OpenFile) (i : Nat) : OpenFile :=
  let line := temp (logBuffs (i / t.maxEntriesPerLogBuff) (i % t.maxEntriesPerLogBuff))
  vfsWrite fp (line.take (strlen line))

/-- The bytes of the file at path_km once myexit has exported the log. -/
def myexit (t : Tuning) (old : Option (List UInt8)) (logBuffs : Nat → Nat → UInt64) : List UInt8 :=
  ((List.range t.maxLogEntry).foldl (exportEntry t logBuffs) (filpOpen old)).bytes

def values (logBuffs : Nat → Nat → UInt64) : Log := fun i j => (logBuffs i j).toNat

/-- Loading the exported file gives back the entries of the log. -/
def LoadsLog (t : Tuning) (other : List UInt8 → Option Int) (old : Option (List UInt8))
    (logBuffs : Nat → Nat → UInt64) : Prop :=
  load other (myexit t old logBuffs) = some ((exportLog t (values logBuffs)).map Int.ofNat)

def textLength (t : Tuning) (log : Log) : Nat := ((exportLog t log).map fun v => Nat.log 10 v + 2).sum

def overwritten (old text : List UInt8) : OpenFile := ⟨text ++ old.drop text.length, text.length⟩

theorem vfsWrite_overwritten (old text data : List UInt8) :
    vfsWrite (overwritten old text) data = overwritten old (text ++ data) := by
  have hpos : text.length - (text ++ old.drop text.length).length = 0 := by
    rw [List.length_append]
    omega
  rw [vfsWrite, overwritten, overwritten, hpos, List.replicate_zero, List.append_nil, List.take_left,
    List.drop_length_add_append, List.drop_drop, List.length_append]

theorem ne_zero_of_mem_line (v : UInt64) : ∀ c ∈ decimal v.toNat ++ [newline], c ≠ 0 := by
  intro c hc
  rcases List.mem_append.mp hc with hc | hc
  · exact isDigit_ne (isDigit_of_mem_decimal _ c hc) (by decide)
  · rw [List.mem_singleton.mp hc]
    decide

theorem line_length (n : Nat) : (decimal n ++ [newline]).length = Nat.log 10 n + 2 := by
  rw [List.length_append, decimal_length, List.length_singleton]

/-- Sixty-four bits never fill the hundred bytes given to snprintf. -/
theorem line_length_le (v : UInt64) : (decimal v.toNat ++ [newline]).length ≤ 99 := by
  have hlt : v.toNat < 10 ^ 20 := Nat.lt_trans v.toNat_lt (by decide)
  have hlog : Nat.log 10 v.toNat < 20 := Nat.log_lt_of_lt_pow' (by omega) hlt
  rw [line_length]
  omega

theorem strlen_zeros {s : List UInt8} (h : ∀ c ∈ s, c ≠ 0) (k : Nat) :
    strlen (s ++ List.replicate k 0) = s.length := by
  have hs : ∀ c ∈ s, (c != 0) = true := by
    intro c hc
    simpa using h c hc
  rw [strlen, List.takeWhile_append_of_pos hs]
  cases k with
  | zero => simp
  | succ k => simp [List.replicate_succ]

theorem temp_line (v : UInt64) : (temp v).take (strlen (temp v)) = decimal v.toNat ++ [newline] := by
  have htemp : temp v = (decimal v.toNat ++ [newline]) ++
      List.replicate (128 - (decimal v.toNat ++ [newline]).length) 0 := by
    rw [temp, List.take_of_length_le (line_length_le v)]
  rw [htemp, strlen_zeros (ne_zero_of_mem_line v), List.take_left]

theorem foldl_exportEntry (t : Tuning) (logBuffs : Nat → Nat → UInt64) (old text : List UInt8) (ks : List Nat) :
    ks.foldl (exportEntry t logBuffs) (overwritten old text) =
      overwritten old
        (text ++ ks.flatMap fun k => decimal (entry t (values logBuffs) k) ++ [newline]) := by
  induction ks generalizing text with
  | nil => simp
  | cons k ks ih =>
      have hk : exportEntry t logBuffs (overwritten old text) k =
          overwritten old (text ++ (decimal (entry t (values logBuffs) k) ++ [newline])) := by
        rw [exportEntry, temp_line, vfsWrite_overwritten]
        rfl
      rw [List.foldl_cons, hk, ih, List.flatMap_cons, List.append_assoc text]

theorem text_length (ns : List Nat) :
    (ns.flatMap fun n => decimal n ++ [newline]).length = (ns.map fun n => Nat.log 10 n + 2).sum := by
  rw [List.length_flatMap]
  simp only [line_length]

/-- The lines of the log, then whatever of the old file stood behind them. -/
theorem myexit_eq (t : Tuning) (old : Option (List UInt8)) (logBuffs : Nat → Nat → UInt64) :
    myexit t old logBuffs =
      ((exportLog t (values logBuffs)).flatMap fun v => decimal v ++ [newline]) ++
        (old.getD []).drop (textLength t (values logBuffs)) := by
  have hstart : filpOpen old = overwritten (old.getD []) [] := by simp [filpOpen, overwritten]
  rw [myexit, hstart, foldl_exportEntry, List.nil_append, textLength, ← text_length, exportLog,
    List.flatMap_map]
  rfl

theorem load_myexit (t : Tuning) (other : List UInt8 → Option Int) (old : Option (List UInt8))
    (logBuffs : Nat → Nat → UInt64) :
    load other (myexit t old logBuffs) =
      (load other ((old.getD []).drop (textLength t (values logBuffs)))).map
        ((exportLog t (values logBuffs)).map Int.ofNat ++ ·) := by
  rw [myexit_eq, load_lines]

theorem loadsLog_iff_rest (t : Tuning) (other : List UInt8 → Option Int) (old : Option (List UInt8))
    (logBuffs : Nat → Nat → UInt64) :
    LoadsLog t other old logBuffs ↔ (old.getD []).drop (textLength t (values logBuffs)) = [] := by
  rw [LoadsLog, load_myexit, ← load_eq_nil_iff other]
  cases load other ((old.getD []).drop (textLength t (values logBuffs))) <;> simp

theorem loads_log_iff (t : Tuning) (other : List UInt8 → Option Int) (old : Option (List UInt8))
    (logBuffs : Nat → Nat → UInt64) :
    LoadsLog t other old logBuffs ↔ (old.getD []).length ≤ textLength t (values logBuffs) := by
  rw [loadsLog_iff_rest, List.drop_eq_nil_iff]

theorem textLength_const (t : Tuning) (v : Nat) :
    textLength t (fun _ _ => v) = t.maxLogEntry * (Nat.log 10 v + 2) := by
  rw [textLength, exportLog, List.map_map]
  simp only [Function.comp_def, entry, List.map_const', List.sum_replicate_nat, List.length_range]

theorem myexit_absent_length (t : Tuning) (logBuffs : Nat → Nat → UInt64) :
    (myexit t none logBuffs).length = textLength t (values logBuffs) := by
  rw [myexit_eq, Option.getD_none, List.drop_nil, List.append_nil, text_length, textLength]

/-- A run that recorded every uid, then one that recorded none. -/
theorem older_lines_loaded :
    ¬ LoadsLog shipped (fun _ => none) (some (myexit shipped none fun _ _ => 10)) fun _ _ => 0 := by
  intro h
  have hrest := List.drop_eq_nil_iff.mp ((loadsLog_iff_rest _ _ _ _).mp h)
  have hten : textLength shipped (values fun _ _ => 10) = maxLogEntry * 3 := textLength_const shipped 10
  have hzero : textLength shipped (values fun _ _ => 0) = maxLogEntry * 2 := textLength_const shipped 0
  rw [Option.getD_some, myexit_absent_length, hten, hzero, maxLogEntry_eq] at hrest
  omega

end PacketIntercept.KmLogFile
