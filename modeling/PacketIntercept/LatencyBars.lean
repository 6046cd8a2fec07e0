import PacketIntercept.DecimalText
import PacketIntercept.FloatArithmetic
import PacketIntercept.HalfOpenBins
import PacketIntercept.Histograms

namespace PacketIntercept.LatencyBars

open DecimalText FloatArithmetic HalfOpenBins Histograms

def thresholds : List (ℕ × ℕ) :=
  [(0, 1), (1, 2), (2, 3), (3, 4), (4, 5), (5, 6), (6, 7), (7, 8), (8, 9), (9, 10), (10, 11),
    (11, 13), (13, 16), (16, 19), (19, 23), (23, 27), (27, 32), (32, 40), (40, 50), (50, 60),
    (60, 70), (70, 80), (80, 90), (90, 100), (100, 150), (150, 200), (200, 250), (250, 300),
    (300, 400), (400, 500), (500, 800), (800, 1000), (1000, 100000), (100000, 100000000)]

def exponentSign : UInt8 := 101

/-- str(thresholds[i][0]) + '-' + str(thresholds[i][1]). -/
def label (t : ℕ × ℕ) : List UInt8 := decimal t.1 ++ minusSign :: decimal t.2

/-- The x-axis labels; labels[-1] and labels[-2] are overwritten. -/
def labels : List (List UInt8) :=
  ((thresholds.map label).set (thresholds.length - 1)
    [digit 1, exponentSign, digit 3, minusSign, digit 1, exponentSign, digit 5]).set
    (thresholds.length - 2) [digit 1, exponentSign, digit 5, minusSign, digit 1, exponentSign, digit 8]

def toUsec : ℤ := 1

def v : Except PythonError Binary64 := Binary64.truedivInt 1000 toUsec

def bound (a : ℕ) : Except PythonError Binary64 := do
  let v ← v
  let a ← Binary64.ofInt a
  pure (Binary64.mul v a)

def inThreshold (diff : ℤ) (t : ℕ × ℕ) : Except PythonError Bool := do
  let lower ← bound t.1
  let upper ← bound t.2
  pure (Binary64.leInt lower diff && Binary64.intLt diff upper)

/-- The loop over i_thres, which ends at the first threshold that fits. -/
def search (diff : ℤ) : List (ℕ × ℕ) → Except PythonError (Option ℕ)
  | [] => .ok none
  | t :: ts => do
      if ← inThreshold diff t then pure (some 0)
      else
        let j ← search diff ts
        pure (j.map (· + 1))

structure Counting where
  bars : List ℕ
  toPop : List ℤ

def countItem (s : Counting) (item : ℤ × ℕ) : Except PythonError Counting := do
  let quotient ← Binary64.truedivInt item.1 toUsec
  let diff ← Binary64.toInt quotient
  match ← search diff thresholds with
  | some j => pure ⟨s.bars.modify j (· + item.2), s.toPop ++ [item.1]⟩
  | none => pure s

def pop (items : List (ℤ × ℕ)) (key : ℤ) : List (ℤ × ℕ) := items.filter fun x => x.1 ≠ key

/-- The bars of a pair, and the entries that are left for out_range.txt. -/
def latencyBars (h : Histogram ℤ) : Except PythonError (List ℕ × List (ℤ × ℕ)) := do
  let s ← h.items.foldlM countItem ⟨List.replicate thresholds.length 0, []⟩
  pure (s.bars, (s.toPop.foldl pop h.items).insertionSort fun x y => x.1 ≤ y.1)

def readNumber (text : List UInt8) : Option ℕ :=
  match text.dropWhile (· != exponentSign) with
  | [] => natLiteral text
  | _ :: exponent => do
      let m ← natLiteral (text.takeWhile (· != exponentSign))
      let e ← natLiteral exponent
      pure (m * 10 ^ e)

def readLabel (text : List UInt8) : Option (ℕ × ℕ) :=
  match text.dropWhile (· != minusSign) with
  | [] => none
  | _ :: upper => do
      let a ← readNumber (text.takeWhile (· != minusSign))
      let b ← readNumber upper
      pure (a, b)

def nanoseconds (t : ℕ × ℕ) : ℤ × ℤ := (1000 * t.1, 1000 * t.2)

def bins : List (ℤ × ℤ) := thresholds.map nanoseconds

/-- Every difference in the range of the thresholds is counted once, in its
bin, and the others are left over. -/
structure CountsOnce (h : Histogram ℤ) (bars : List ℕ) (left : List (ℤ × ℕ)) : Prop where
  length : bars.length = thresholds.length
  one_bin : ∀ d ∈ h.keys, 0 ≤ d → d < 10 ^ 11 → ∃! j : ℕ, ∃ bin, bins[j]? = some bin ∧ Inside d bin
  counted : ∀ (j : ℕ) bin, bins[j]? = some bin →
    bars[j]? = some ((h.items.filter fun x => Inside x.1 bin).map Prod.snd).sum
  left_over : ∀ x, x ∈ left ↔ x ∈ h.items ∧ (x.1 < 0 ∨ 10 ^ 11 ≤ x.1)
  total : bars.sum + (left.map Prod.snd).sum = h.nbrValues

/-- The label under a bar denotes an interval that contains the differences in it. -/
def Labelled (h : Histogram ℤ) : Prop :=
  ∀ d ∈ h.keys, ∀ (j : ℕ) bin, bins[j]? = some bin → Inside d bin →
    ∃ text interval, labels[j]? = some text ∧ readLabel text = some interval ∧
      Inside d (nanoseconds interval)

theorem bins_chained : Chained (10 ^ 11) 0 bins := by
  simp [bins, thresholds, nanoseconds, Chained]

theorem bound_eq {a : ℕ} (ha : a ≤ 10 ^ 8) : bound a = .ok (.finite ((1000 * a : ℤ) : ℚ)) := by
  have hv : v = .ok (.finite ((1000 : ℤ) : ℚ)) := Binary64.truedivInt_one (by norm_num)
  have ha' : Binary64.ofInt a = .ok (.finite ((a : ℤ) : ℚ)) := by
    apply Binary64.ofInt_eq
    rw [Nat.abs_cast]
    omega
  have hmul : |(1000 : ℤ) * a| < 2 ^ 53 := by
    rw [abs_of_nonneg (by omega)]
    omega
  rw [bound, hv, ha']
  exact congrArg Except.ok (Binary64.mul_intCast hmul)

theorem thresholds_le : ∀ t ∈ thresholds, t.1 ≤ 10 ^ 8 ∧ t.2 ≤ 10 ^ 8 := by
  decide

theorem inThreshold_eq (diff : ℤ) {t : ℕ × ℕ} (ht : t ∈ thresholds) :
    inThreshold diff t = .ok (decide (Inside diff (nanoseconds t))) := by
  obtain ⟨hl, hu⟩ := thresholds_le t ht
  rw [inThreshold, bound_eq hl, bound_eq hu]
  apply congrArg Except.ok
  simp only [Binary64.leInt, Binary64.intLt, Int.cast_le, Int.cast_lt]
  exact (Bool.decide_and _ _).symm

theorem search_eq (diff : ℤ) (ts : List (ℕ × ℕ)) (hts : ∀ t ∈ ts, t ∈ thresholds) :
    search diff ts = .ok (binOf (ts.map nanoseconds) diff) := by
  induction ts with
  | nil => rfl
  | cons t ts ih =>
      rw [search, inThreshold_eq diff (hts t (by simp)), ih (fun t' ht' => hts t' (by simp [ht'])),
        List.map_cons, binOf_cons]
      by_cases hin : Inside diff (nanoseconds t)
      · simp [hin, bind, Except.bind, pure, Except.pure]
      · simp [hin, bind, Except.bind, pure, Except.pure]

def tallyItem (s : Counting) (item : ℤ × ℕ) : Counting where
  bars := deposit s.bars item.2 (binOf bins item.1)
  toPop := if binOf bins item.1 = none then s.toPop else s.toPop ++ [item.1]

theorem countItem_eq (s : Counting) {item : ℤ × ℕ} (hk : |item.1| < 2 ^ 53) :
    countItem s item = .ok (tallyItem s item) := by
  have hdiff : Binary64.truedivInt item.1 toUsec = .ok (.finite item.1) := Binary64.truedivInt_one hk
  rw [countItem, hdiff]
  simp only [bind, Except.bind, Binary64.toInt_intCast, search_eq item.1 thresholds (fun _ => id)]
  rw [tallyItem, ← bins]
  cases binOf bins item.1 with
  | none => rfl
  | some j => rfl

theorem foldlM_countItem (s : Counting) (items : List (ℤ × ℕ)) (hk : ∀ x ∈ items, |x.1| < 2 ^ 53) :
    items.foldlM countItem s = .ok (items.foldl tallyItem s) := by
  induction items generalizing s with
  | nil => rfl
  | cons x items ih =>
      rw [List.foldlM_cons, countItem_eq s (hk x (by simp)), List.foldl_cons]
      exact ih _ (fun y hy => hk y (by simp [hy]))

theorem toPop_foldl (s : Counting) (items : List (ℤ × ℕ)) :
    (items.foldl tallyItem s).toPop =
      s.toPop ++ (items.filter fun x => binOf bins x.1 ≠ none).map Prod.fst := by
  induction items generalizing s with
  | nil => simp
  | cons x items ih =>
      rw [List.foldl_cons, ih, tallyItem]
      by_cases hx : binOf bins x.1 = none
      · simp [hx]
      · simp [hx]

theorem getElem?_bars_foldl (s : Counting) (items : List (ℤ × ℕ)) (j : ℕ) :
    (items.foldl tallyItem s).bars[j]? =
      s.bars[j]?.map (· + ((items.filter fun x => binOf bins x.1 = some j).map Prod.snd).sum) := by
  induction items generalizing s with
  | nil => simp
  | cons x items ih =>
      rw [List.foldl_cons, ih, tallyItem, getElem?_deposit, Option.map_map]
      congr 1
      funext n
      by_cases hx : binOf bins x.1 = some j
      · simp [hx, Nat.add_assoc]
      · simp [hx]

theorem length_bars_foldl (s : Counting) (items : List (ℤ × ℕ)) :
    (items.foldl tallyItem s).bars.length = s.bars.length := by
  induction items generalizing s with
  | nil => rfl
  | cons x items ih => rw [List.foldl_cons, ih, tallyItem, length_deposit]

theorem lt_of_bins_getElem? {j : ℕ} {bin : ℤ × ℤ} (h : bins[j]? = some bin) : j < thresholds.length := by
  obtain ⟨hj, -⟩ := List.getElem?_eq_some_iff.mp h
  rwa [bins, List.length_map] at hj

theorem binOf_lt {d : ℤ} {j : ℕ} (h : binOf bins d = some j) : j < thresholds.length := by
  obtain ⟨bin, hbin, -⟩ := bins_chained.binOf_eq_some.mp h
  exact lt_of_bins_getElem? hbin

theorem filter_binOf {j : ℕ} {bin : ℤ × ℤ} (hbin : bins[j]? = some bin) (items : List (ℤ × ℕ)) :
    (items.filter fun x => binOf bins x.1 = some j) = items.filter fun x => Inside x.1 bin := by
  apply List.filter_congr
  intro x _
  rw [decide_eq_decide, bins_chained.binOf_eq_some, hbin]
  simp

theorem sum_bars_foldl (s : Counting) (items : List (ℤ × ℕ)) (hs : s.bars.length = thresholds.length) :
    (items.foldl tallyItem s).bars.sum =
      s.bars.sum + ((items.filter fun x => binOf bins x.1 ≠ none).map Prod.snd).sum := by
  induction items generalizing s with
  | nil => simp
  | cons x items ih =>
      have hlen : (tallyItem s x).bars.length = thresholds.length := by
        rw [tallyItem, length_deposit, hs]
      have hstep : (tallyItem s x).bars.sum = s.bars.sum + if binOf bins x.1 = none then 0 else x.2 :=
        sum_deposit _ _ _ (fun j hj => hs ▸ binOf_lt hj)
      rw [List.foldl_cons, ih _ hlen, hstep]
      by_cases hx : binOf bins x.1 = none
      · simp [hx]
      · simp [hx, Nat.add_assoc]

theorem foldl_pop (items : List (ℤ × ℕ)) (keys : List ℤ) :
    keys.foldl pop items = items.filter fun x => x.1 ∉ keys := by
  induction keys generalizing items with
  | nil => simp
  | cons key keys ih =>
      rw [List.foldl_cons, ih, pop, List.filter_filter]
      congr 1
      funext x
      simp [Bool.and_comm]

theorem foldl_pop_toPop (items : List (ℤ × ℕ)) :
    ((items.filter fun x => binOf bins x.1 ≠ none).map Prod.fst).foldl pop items =
      items.filter fun x => binOf bins x.1 = none := by
  rw [foldl_pop]
  apply List.filter_congr
  intro x hx
  rw [decide_eq_decide]
  constructor
  · intro hnot
    by_contra hbin
    exact hnot (List.mem_map_of_mem (List.mem_filter.mpr ⟨hx, by simpa using hbin⟩))
  · intro hbin hmem
    obtain ⟨y, hy, he⟩ := List.mem_map.mp hmem
    rw [← he] at hbin
    simpa [hbin] using (List.mem_filter.mp hy).2

theorem sum_filter_add (items : List (ℤ × ℕ)) (q : ℤ × ℕ → Prop) [DecidablePred q] :
    ((items.filter fun x => ¬ q x).map Prod.snd).sum + ((items.filter fun x => q x).map Prod.snd).sum =
      (items.map Prod.snd).sum := by
  induction items with
  | nil => rfl
  | cons x items ih =>
      by_cases hx : q x
      · simp only [List.filter_cons, hx, not_true_eq_false, decide_false, decide_true,
          Bool.false_eq_true, if_false, if_true, List.map_cons, List.sum_cons, ← ih]
        omega
      · simp only [List.filter_cons, hx, not_false_eq_true, decide_false, decide_true,
          Bool.false_eq_true, if_false, if_true, List.map_cons, List.sum_cons, ← ih]
        omega

theorem latencyBars_counts {h : Histogram ℤ} (hk : ∀ d ∈ h.keys, |d| < 2 ^ 53) :
    ∃ bars left, latencyBars h = .ok (bars, left) ∧ CountsOnce h bars left := by
  let s : Counting := ⟨List.replicate thresholds.length 0, []⟩
  have hs : s.bars.length = thresholds.length := List.length_replicate
  let left := h.items.filter fun x => binOf bins x.1 = none
  have hperm : (left.insertionSort fun x y => x.1 ≤ y.1).Perm left := List.perm_insertionSort _ _
  have hpopped : (h.items.foldl tallyItem s).toPop.foldl pop h.items = left := by
    rw [toPop_foldl]
    exact foldl_pop_toPop h.items
  refine ⟨(h.items.foldl tallyItem s).bars, left.insertionSort fun x y => x.1 ≤ y.1, ?_, ?_, ?_, ?_, ?_, ?_⟩
  · rw [latencyBars, foldlM_countItem s h.items (fun x hx => hk x.1 (List.mem_map_of_mem hx)), ← hpopped]
    rfl
  · rw [length_bars_foldl, hs]
  · intro d _ hlo hhi
    exact bins_chained.existsUnique hlo hhi
  · intro j bin hbin
    rw [getElem?_bars_foldl, filter_binOf hbin, List.getElem?_replicate,
      if_pos (lt_of_bins_getElem? hbin), Option.map_some, Nat.zero_add]
  · intro x
    rw [hperm.mem_iff, List.mem_filter, decide_eq_true_eq, bins_chained.binOf_eq_none]
  · have hzero : s.bars.sum = 0 := by simp [s]
    rw [sum_bars_foldl s _ hs, hzero, Nat.zero_add, (hperm.map Prod.snd).sum_eq]
    exact sum_filter_add h.items fun x => binOf bins x.1 = none

theorem digits_bne {text : List UInt8} (h : ∀ c ∈ text, isDigit c = true) {s : UInt8}
    (hs : isDigit s = false) : ∀ c ∈ text, (c != s) = true := by
  intro c hc
  simpa using isDigit_ne (h c hc) hs

theorem readNumber_decimal (n : ℕ) : readNumber (decimal n) = some n := by
  have hall := digits_bne (isDigit_of_mem_decimal n) (s := exponentSign) (by decide)
  have hdrop : (decimal n).dropWhile (· != exponentSign) = [] := List.dropWhile_eq_nil_iff.mpr hall
  rw [readNumber, hdrop]
  exact natLiteral_decimal n

/-- A label that was not overwritten reads as its threshold. -/
theorem readLabel_label (t : ℕ × ℕ) : readLabel (label t) = some t := by
  have hall := digits_bne (isDigit_of_mem_decimal t.1) (s := minusSign) (by decide)
  have hdrop : (label t).dropWhile (· != minusSign) = minusSign :: decimal t.2 := by
    rw [label, List.dropWhile_append_of_pos hall]
    rfl
  have htake : (label t).takeWhile (· != minusSign) = decimal t.1 := by
    rw [label, List.takeWhile_append_of_pos hall]
    exact List.append_nil _
  rw [readLabel, hdrop, htake, readNumber_decimal]
  simp only [readNumber_decimal]
  rfl

theorem labels_getElem? {j : ℕ} (hj : j < 32) : labels[j]? = (thresholds[j]?).map label := by
  have h33 : thresholds.length - 1 ≠ j := by rw [show thresholds.length = 34 from rfl]; omega
  have h32 : thresholds.length - 2 ≠ j := by rw [show thresholds.length = 34 from rfl]; omega
  rw [labels, List.getElem?_set_ne h32, List.getElem?_set_ne h33, List.getElem?_map]

/-- labels[-2] and labels[-1] have each other's texts. -/
theorem labels_overwritten :
    (labels[32]?).bind readLabel = thresholds[33]? ∧ (labels[33]?).bind readLabel = thresholds[32]? := by
  constructor <;> decide

theorem bins_getElem? {j : ℕ} {bin : ℤ × ℤ} (h : bins[j]? = some bin) :
    ∃ t, thresholds[j]? = some t ∧ nanoseconds t = bin := by
  rw [bins, List.getElem?_map] at h
  exact Option.map_eq_some_iff.mp h

theorem bins_last {j : ℕ} {bin : ℤ × ℤ} (h : bins[j]? = some bin) (hj : 32 ≤ j) :
    (j = 32 ∧ bin = (10 ^ 6, 10 ^ 8)) ∨ (j = 33 ∧ bin = (10 ^ 8, 10 ^ 11)) := by
  obtain ⟨hlt, -⟩ := List.getElem?_eq_some_iff.mp h
  have hlen : bins.length = 34 := rfl
  rcases (by omega : j = 32 ∨ j = 33) with rfl | rfl
  · exact .inl ⟨rfl, (Option.some.inj h).symm⟩
  · exact .inr ⟨rfl, (Option.some.inj h).symm⟩

theorem labelled_of_small {h : Histogram ℤ} (hsmall : ∀ d ∈ h.keys, d < 10 ^ 6 ∨ 10 ^ 11 ≤ d) :
    Labelled h := by
  intro d hd j bin hbin hin
  by_cases hj : j < 32
  · obtain ⟨t, ht, rfl⟩ := bins_getElem? hbin
    refine ⟨label t, t, ?_, readLabel_label t, hin⟩
    rw [labels_getElem? hj, ht, Option.map_some]
  · obtain ⟨hlo, hhi⟩ := hin
    rcases bins_last hbin (not_lt.mp hj) with ⟨-, rfl⟩ | ⟨-, rfl⟩
    · rcases hsmall d hd with hd | hd <;> omega
    · rcases hsmall d hd with hd | hd <;> omega

theorem inside_of_labelled {h : Histogram ℤ} (hl : Labelled h) {d : ℤ} (hd : d ∈ h.keys) {j : ℕ}
    {bin interval : ℤ × ℤ} (hbin : bins[j]? = some bin) (hin : Inside d bin)
    (hread : ((labels[j]?).bind readLabel).map nanoseconds = some interval) : Inside d interval := by
  obtain ⟨text, t, htext, ht, hinside⟩ := hl d hd j bin hbin hin
  rw [htext, Option.bind_some, ht, Option.map_some, Option.some.injEq] at hread
  rwa [← hread]

theorem small_of_labelled {h : Histogram ℤ} (hl : Labelled h) :
    ∀ d ∈ h.keys, d < 10 ^ 6 ∨ 10 ^ 11 ≤ d := by
  intro d hd
  by_contra hnot
  rw [not_or, not_lt, not_le] at hnot
  obtain ⟨hlo, hhi⟩ := hnot
  by_cases hmid : d < 10 ^ 8
  · have hread : ((labels[32]?).bind readLabel).map nanoseconds = some (10 ^ 8, 10 ^ 11) := by
      rw [labels_overwritten.1]
      rfl
    have hbin : bins[32]? = some (10 ^ 6, 10 ^ 8) := rfl
    have hin := inside_of_labelled hl hd hbin ⟨hlo, hmid⟩ hread
    exact absurd hmid (not_lt.mpr hin.1)
  · have hread : ((labels[33]?).bind readLabel).map nanoseconds = some (10 ^ 6, 10 ^ 8) := by
      rw [labels_overwritten.2]
      rfl
    have hbin : bins[33]? = some (10 ^ 8, 10 ^ 11) := rfl
    have hin := inside_of_labelled hl hd hbin ⟨not_lt.mp hmid, hhi⟩ hread
    exact hmid hin.2

/-- The bars count every difference once; the last two labels are swapped, so
they are labelled rightly when no difference is in the last two bins. -/
theorem latencyBars_labelled_iff (h : Histogram ℤ) (hk : ∀ d ∈ h.keys, |d| < 2 ^ 53) :
    (∃ bars left, latencyBars h = .ok (bars, left) ∧ CountsOnce h bars left ∧ Labelled h) ↔
      ∀ d ∈ h.keys, d < 10 ^ 6 ∨ 10 ^ 11 ≤ d := by
  constructor
  · rintro ⟨bars, left, -, -, hl⟩
    exact small_of_labelled hl
  · intro hsmall
    obtain ⟨bars, left, heq, hcounts⟩ := latencyBars_counts hk
    exact ⟨bars, left, heq, hcounts, labelled_of_small hsmall⟩

/-- Differences in six bins, one of them negative, and one beyond the last bin. -/
theorem nanoseconds_labelled :
    ∃ bars left,
      latencyBars (Histogram.empty.tally [7, 61, -40, 999, 7, 125000, 999999, 2 * 10 ^ 11]) = .ok (bars, left) ∧
      CountsOnce (Histogram.empty.tally [7, 61, -40, 999, 7, 125000, 999999, 2 * 10 ^ 11]) bars left ∧
      Labelled (Histogram.empty.tally [7, 61, -40, 999, 7, 125000, 999999, 2 * 10 ^ 11]) :=
  (latencyBars_labelled_iff (Histogram.empty.tally [7, 61, -40, 999, 7, 125000, 999999, 2 * 10 ^ 11])
    (by decide)).mpr (by decide)

/-- A difference of a millisecond stands over the label 1e5-1e8. -/
theorem millisecond_mislabelled :
    ¬ ∃ bars left, latencyBars (Histogram.empty.increment (10 ^ 6)) = .ok (bars, left) ∧
      CountsOnce (Histogram.empty.increment (10 ^ 6)) bars left ∧
      Labelled (Histogram.empty.increment (10 ^ 6)) := by
  rintro ⟨bars, left, -, -, hl⟩
  have hsmall := small_of_labelled hl (10 ^ 6) (by decide)
  omega

end PacketIntercept.LatencyBars
