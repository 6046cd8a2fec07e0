import PacketIntercept.StatisticsStage

namespace PacketIntercept.PacketLoss

open DiffCollection FloatArithmetic RaisedErrors StatisticsStage TrueDivision ZeroCounts

/-- The numbers of loss_pkt_km_text: KM and LS. -/
def lossPktKm (logsZeroed : Fin 6 → ℕ) : ℤ × ℤ :=
  (|2 * (logsZeroed kmLog : ℤ) - logsZeroed upLog|, |2 * (logsZeroed kmLog : ℤ) - logsZeroed kmSLog|)

/-- The numbers of loss_pkt_ebpf_text: eBPF and LS. -/
def lossPktEbpf (logsZeroed : Fin 6 → ℕ) : ℤ × ℤ :=
  (|2 * (logsZeroed ebpfLog : ℤ) - logsZeroed usebpfLog|,
    |2 * (logsZeroed ebpfLog : ℤ) - logsZeroed ebpfSLog|)

/-- The loss figures of the two titles, which are only put together when all
stages before are through. -/
def lossTitles (its : List Iteration) : Except PythonError ((ℤ × ℤ) × (ℤ × ℤ)) := do
  let report ← statisticsStage (collect suitePairs its)
  pure (lossPktKm report.logsZeroed, lossPktEbpf report.logsZeroed)

def lostIn (it : Iteration) (kernel user : Fin 6) : ℕ :=
  (List.finRange it.len).countP fun i => it.logs kernel i ≠ 0 ∧ it.logs user i = 0

def lost (its : List Iteration) (kernel user : Fin 6) : ℕ :=
  (its.map fun it => lostIn it kernel user).sum

def LossExact (its : List Iteration) : Prop :=
  lossTitles its =
    .ok (((lost its kmLog upLog : ℤ), (lost its kmLog kmSLog : ℤ)),
      ((lost its ebpfLog usebpfLog : ℤ), (lost its ebpfLog ebpfSLog : ℤ)))

def KernelFirst (its : List Iteration) : Prop :=
  ∀ it ∈ its, ∀ i, ∀ th, it.logs (suitePairs th).1 i ≠ 0 → it.logs (suitePairs th).2 i ≠ 0

def Doubled (its : List Iteration) (th : Fin 4) : Prop :=
  zeros its (suitePairs th).1 = 2 * zeros its (suitePairs th).2

theorem countP_split {α : Type} (a b : α → Prop) [DecidablePred a] [DecidablePred b] (xs : List α)
    (h : ∀ x, a x → b x) :
    (xs.countP fun x => b x) = (xs.countP fun x => a x) + xs.countP fun x => ¬ a x ∧ b x := by
  induction xs with
  | nil => rfl
  | cons x xs ih =>
      rw [List.countP_cons, List.countP_cons, List.countP_cons, ih]
      by_cases ha : a x
      · have hb := h x ha
        simp [ha, hb]
        omega
      · simp [ha]
        omega

theorem zeros_eq_add_lost {its : List Iteration} (h : KernelFirst its) (th : Fin 4) :
    zeros its (suitePairs th).1 =
      zeros its (suitePairs th).2 + lost its (suitePairs th).2 (suitePairs th).1 := by
  induction its with
  | nil => rfl
  | cons it its ih =>
      have hsplit : it.zeros (suitePairs th).1 =
          it.zeros (suitePairs th).2 + lostIn it (suitePairs th).2 (suitePairs th).1 :=
        countP_split _ _ _ fun i hk => by_contra fun hu => h it List.mem_cons_self i th hu hk
      have ht := ih fun jt hj => h jt (List.mem_cons_of_mem it hj)
      simp only [zeros, lost, List.map_cons, List.sum_cons] at ht ⊢
      omega

theorem placesOf_kernel (th : Fin 4) : placesOf suitePairs (suitePairs th).2 = 2 := by
  fin_cases th <;> decide

theorem placesOf_user (th : Fin 4) : placesOf suitePairs (suitePairs th).1 = 1 := by
  fin_cases th <;> decide

/-- The weights of one figure: the zeros of the kernel log were counted
twice, those of the user log once, and both counters were halved. -/
def FigureExact (its : List Iteration) (th : Fin 4) : Prop :=
  ∃ k u : ℕ, intDiv (2 * zeros its (suitePairs th).2) 2 = some k ∧
    intDiv (zeros its (suitePairs th).1) 2 = some u ∧
      |2 * (k : ℤ) - u| = lost its (suitePairs th).2 (suitePairs th).1

theorem lossTitles_eq_iff (its : List Iteration) (y : Fin 6 → ℕ) :
    (lossPktKm y, lossPktEbpf y) =
        (((lost its kmLog upLog : ℤ), (lost its kmLog kmSLog : ℤ)),
          ((lost its ebpfLog usebpfLog : ℤ), (lost its ebpfLog ebpfSLog : ℤ))) ↔
      ∀ th, |2 * (y (suitePairs th).2 : ℤ) - y (suitePairs th).1| =
        lost its (suitePairs th).2 (suitePairs th).1 := by
  constructor
  · intro h th
    obtain ⟨hkm, hebpf⟩ := Prod.mk.inj h
    obtain ⟨h0, h1⟩ := Prod.mk.inj hkm
    obtain ⟨h2, h3⟩ := Prod.mk.inj hebpf
    fin_cases th
    · exact h0
    · exact h1
    · exact h2
    · exact h3
  · intro h
    exact Prod.ext (Prod.ext (h 0) (h 1)) (Prod.ext (h 2) (h 3))

theorem figures_of_halved {its : List Iteration} {y : Fin 6 → ℕ}
    (hy : halved (collect suitePairs its).logsZeroed = some y) (th : Fin 4) :
    FigureExact its th ↔ |2 * (y (suitePairs th).2 : ℤ) - y (suitePairs th).1| =
      lost its (suitePairs th).2 (suitePairs th).1 := by
  rw [halved_eq_some_iff] at hy
  have hkernel : intDiv (2 * zeros its (suitePairs th).2) 2 = some (y (suitePairs th).2) := by
    rw [← hy, collect_logsZeroed, placesOf_kernel]
  have huser : intDiv (zeros its (suitePairs th).1) 2 = some (y (suitePairs th).1) := by
    rw [← hy, collect_logsZeroed, placesOf_user, Nat.one_mul]
  constructor
  · rintro ⟨k, u, hk, hu, hloss⟩
    rw [hkernel, Option.some.injEq] at hk
    rw [huser, Option.some.injEq] at hu
    rw [hk, hu, hloss]
  · intro hloss
    exact ⟨_, _, hkernel, huser, hloss⟩

theorem lossExact_iff_figures (its : List Iteration) :
    LossExact its ↔ (∃ r, statisticsStage (collect suitePairs its) = .ok r) ∧ ∀ th, FigureExact its th := by
  constructor
  · intro h
    obtain ⟨r, hr, htitles⟩ := ok_of_bind h
    have hy := halved_of_completes hr
    refine ⟨⟨r, hr⟩, fun th => (figures_of_halved hy th).mpr ?_⟩
    exact (lossTitles_eq_iff its _).mp (Except.ok.inj htitles) th
  · rintro ⟨⟨r, hr⟩, hfigures⟩
    have hy := halved_of_completes hr
    have htitles := (lossTitles_eq_iff its r.logsZeroed).mpr
      (fun th => (figures_of_halved hy th).mp (hfigures th))
    rw [LossExact, lossTitles, hr, ← htitles]
    rfl

theorem figureExact_of_doubled {its : List Iteration} (h : KernelFirst its) {th : Fin 4}
    (hd : Doubled its th) (hr : Representable (zeros its (suitePairs th).2)) : FigureExact its th := by
  have hhalf := (intDiv_double_iff _).mpr hr
  have hsum := zeros_eq_add_lost h th
  rw [Doubled] at hd
  refine ⟨_, zeros its (suitePairs th).2, hhalf, ?_, ?_⟩
  · rw [hd]
    exact hhalf
  · have hlost : lost its (suitePairs th).2 (suitePairs th).1 = zeros its (suitePairs th).2 := by omega
    rw [hlost, two_mul, add_sub_cancel_right, Nat.abs_cast]

/-- The figure halves an odd number of zeros downwards, so only the exact
double has the weights cancel. -/
theorem loss_eq_iff {k u : ℕ} (h : k ≤ u) : |2 * (k : ℤ) - (u / 2 : ℕ)| = (u - k : ℕ) ↔ u = 2 * k := by
  rcases abs_cases (2 * (k : ℤ) - (u / 2 : ℕ)) with ⟨habs, _⟩ | ⟨habs, _⟩ <;> rw [habs] <;> omega

theorem figureExact_iff_doubled {its : List Iteration} (h : KernelFirst its)
    (hlen : positions its < 2 ^ 53) (th : Fin 4) : FigureExact its th ↔ Doubled its th := by
  have hsum := zeros_eq_add_lost h th
  have hkernel := (intDiv_double_iff _).mpr
    (representable_of_lt (lt_of_le_of_lt (zeros_le_positions its (suitePairs th).2) hlen))
  have huser := intDiv_of_lt (lt_of_le_of_lt (zeros_le_positions its (suitePairs th).1) hlen)
    (show 0 < 2 by norm_num) (by norm_num)
  have hlost : lost its (suitePairs th).2 (suitePairs th).1 =
      zeros its (suitePairs th).1 - zeros its (suitePairs th).2 := by omega
  rw [FigureExact, Doubled, ← loss_eq_iff (by omega), hkernel, huser, hlost]
  constructor
  · rintro ⟨k, u, hk, hu, habs⟩
    obtain rfl := Option.some.inj hk
    obtain rfl := Option.some.inj hu
    exact habs
  · intro habs
    exact ⟨_, _, rfl, rfl, habs⟩

theorem lossExact_iff_doubled {its : List Iteration} (h : KernelFirst its)
    (hlen : positions its < 2 ^ 53) :
    LossExact its ↔ Measured its ∧ statisticsStage (collect suitePairs its) ≠ .error .overflowError ∧
      ∀ th, Doubled its th := by
  rw [lossExact_iff_figures, completes_iff, and_assoc, forall_congr' (figureExact_iff_doubled h hlen)]

/-- The figures of the titles are exact just when the scripts get as far as the
titles and every user log has twice the zeros of its kernel log. -/
theorem loss_exact_iff (its : List Iteration) (h : KernelFirst its) :
    (Measured its → statisticsStage (collect suitePairs its) ≠ .error .overflowError →
      (∀ th, Doubled its th ∧ Representable (zeros its (suitePairs th).2)) → LossExact its) ∧
    (positions its < 2 ^ 53 →
      (LossExact its ↔ Measured its ∧
        statisticsStage (collect suitePairs its) ≠ .error .overflowError ∧ ∀ th, Doubled its th) ∧
      (Recorded its → (LossExact its ↔ Measured its ∧ ∀ th, Doubled its th))) := by
  refine ⟨fun hm hover hd => ?_, fun hlen => ⟨lossExact_iff_doubled h hlen, fun hrec => ?_⟩⟩
  · rw [lossExact_iff_figures]
    exact ⟨(completes_iff its).mpr ⟨hm, hover⟩, fun th => figureExact_of_doubled h (hd th).1 (hd th).2⟩
  · rw [lossExact_iff_doubled h hlen, and_iff_right hrec.no_overflow]

/-- Two runs, of the first of which the second packet is in no log and the third in
the kernel logs only. -/
def halfLost : List Iteration :=
  [⟨3, fun log i =>
    if i.val = 0 then 7 + log.val else if i.val = 1 then 0
    else if log = kmLog ∨ log = ebpfLog then 7 else 0⟩,
   ⟨2, fun log _ => 3 + log.val⟩]

theorem halfLost_recorded : Recorded halfLost := by
  constructor
  · intro it hit
    rcases List.mem_pair.mp hit with rfl | rfl
    · decide
    · decide
  · decide

theorem loss_exact_halfLost : KernelFirst halfLost ∧ Recorded halfLost ∧ LossExact halfLost := by
  have hfirst : KernelFirst halfLost := by
    intro it hit
    rcases List.mem_pair.mp hit with rfl | rfl
    · decide
    · decide
  have hmeasured : Measured halfLost := fun th => ⟨_, List.mem_cons_self, ⟨0, by decide⟩, by decide +revert⟩
  have hdouble : ∀ th, Doubled halfLost th := by
    unfold Doubled
    decide
  exact ⟨hfirst, halfLost_recorded,
    (((loss_exact_iff halfLost hfirst).2 (by decide)).2 halfLost_recorded).mpr ⟨hmeasured, hdouble⟩⟩

/-- Two packets, of which user-processing lost the second. -/
def secondLost : List Iteration := [⟨2, fun log i => if i.val = 1 ∧ log = upLog then 0 else 7⟩]

/-- The scripts get as far as the titles, and show another number. -/
theorem loss_not_shown : KernelFirst secondLost ∧
    (∃ titles, lossTitles secondLost = .ok titles) ∧ ¬ LossExact secondLost := by
  have hfirst : KernelFirst secondLost := by
    intro it hit
    rw [List.mem_singleton.mp hit]
    decide
  have hrec : Recorded secondLost := by
    constructor
    · intro it hit
      rw [List.mem_singleton.mp hit]
      decide
    · decide
  have hmeasured : Measured secondLost := fun th => ⟨_, List.mem_cons_self, ⟨0, by decide⟩, by decide +revert⟩
  refine ⟨hfirst, ?_, ?_⟩
  · obtain ⟨r, hr⟩ := (completes_iff secondLost).mpr ⟨hmeasured, hrec.no_overflow⟩
    exact ⟨_, by rw [lossTitles, hr]; rfl⟩
  · intro h
    have hdouble := (figureExact_iff_doubled hfirst (by decide) 0).mp (((lossExact_iff_figures _).mp h).2 0)
    rw [Doubled] at hdouble
    exact absurd hdouble (by decide)

end PacketIntercept.PacketLoss
