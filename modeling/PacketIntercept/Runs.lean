import Mathlib.Algebra.BigOperators.Fin
import Mathlib.Data.List.Induction

namespace PacketIntercept.Runs

variable {σ α : Type}

def run (step : σ → α → σ) (s : σ) (acts : List α) : σ := acts.foldl step s

@[simp] theorem run_nil (step : σ → α → σ) (s : σ) : run step s [] = s := rfl

@[simp] theorem run_cons (step : σ → α → σ) (s : σ) (a : α) (acts : List α) :
    run step s (a :: acts) = run step (step s a) acts := rfl

theorem run_append (step : σ → α → σ) (s : σ) (acts more : List α) :
    run step s (acts ++ more) = run step (run step s acts) more := List.foldl_append

@[simp] theorem run_snoc (step : σ → α → σ) (s : σ) (acts : List α) (a : α) :
    run step s (acts ++ [a]) = step (run step s acts) a := run_append step s acts [a]

/-- What every step keeps holds after every run. -/
theorem run_invariant {step : σ → α → σ} {Inv : σ → Prop} {s : σ} (hinit : Inv s)
    (hstep : ∀ s a, Inv s → Inv (step s a)) (acts : List α) : Inv (run step s acts) := by
  induction acts generalizing s with
  | nil => exact hinit
  | cons a acts ih => exact ih (hstep s a hinit)

theorem run_counter (f : σ → ℕ) {step : σ → α → σ} {amount : α → ℕ}
    (hstep : ∀ s a, f (step s a) = f s + amount a) (s : σ) (acts : List α) :
    f (run step s acts) = f s + (acts.map amount).sum := by
  induction acts generalizing s with
  | nil => simp
  | cons a acts ih => rw [run_cons, ih, hstep, List.map_cons, List.sum_cons, Nat.add_assoc]

/-- The same for runs whose acts all satisfy P, with an invariant that may
also speak about the acts made so far. -/
theorem run_history {step : σ → α → σ} {Inv : List α → σ → Prop} {P : α → Prop} {s : σ}
    (hinit : Inv [] s) (hstep : ∀ past s a, P a → Inv past s → Inv (past ++ [a]) (step s a))
    (acts : List α) (hacts : ∀ a ∈ acts, P a) : Inv acts (run step s acts) := by
  induction acts using List.reverseRecOn with
  | nil => exact hinit
  | append_singleton past a ih =>
      rw [run_snoc]
      apply hstep _ _ _ (hacts a (by simp))
      exact ih (fun b hb => hacts b (by simp [hb]))

/-- Seen through f, each act is a run of acts of another machine. -/
theorem run_refines {τ β : Type} {step : σ → α → σ} {step' : τ → β → τ} {acts' : α → List β}
    (f : σ → τ) (hstep : ∀ s a, f (step s a) = run step' (f s) (acts' a)) (s : σ) (acts : List α) :
    f (run step s acts) = run step' (f s) (acts.flatMap acts') := by
  induction acts generalizing s with
  | nil => rfl
  | cons a acts ih => rw [run_cons, ih, hstep, List.flatMap_cons, run_append]

theorem run_untouched {τ : Type} {step : σ → α → σ} {f : σ → τ} {acts : List α}
    (h : ∀ a ∈ acts, ∀ s, f (step s a) = f s) (s : σ) : f (run step s acts) = f s := by
  induction acts generalizing s with
  | nil => rfl
  | cons a acts ih => rw [run_cons, ih (fun b hb => h b (by simp [hb])), h a (by simp)]

/-- Seen through f, only one act of a run without repetitions does anything. -/
theorem run_single {τ : Type} {step : σ → α → σ} {f : σ → τ} {g : τ → τ} {a : α}
    (hself : ∀ s, f (step s a) = g (f s)) (hother : ∀ b, b ≠ a → ∀ s, f (step s b) = f s) (s : σ)
    {acts : List α} (hnd : acts.Nodup) (ha : a ∈ acts) : f (run step s acts) = g (f s) := by
  induction acts generalizing s with
  | nil => cases ha
  | cons b acts ih =>
      obtain ⟨hb, hnd⟩ := List.nodup_cons.mp hnd
      rw [run_cons]
      rcases List.mem_cons.mp ha with rfl | ha
      · rw [run_untouched (fun c hc => hother c (fun he => hb (he ▸ hc))), hself]
      · rw [ih _ hnd ha, hother b (fun he => hb (he ▸ ha))]

/-- G holds of every act of a run and the state it is made in. -/
def Along (step : σ → α → σ) (G : σ → α → Prop) : σ → List α → Prop
  | _, [] => True
  | s, a :: acts => G s a ∧ Along step G (step s a) acts

theorem along_append (step : σ → α → σ) (G : σ → α → Prop) (s : σ) (acts more : List α) :
    Along step G s (acts ++ more) ↔ Along step G s acts ∧ Along step G (run step s acts) more := by
  induction acts generalizing s with
  | nil => simp [Along]
  | cons a acts ih => simp [Along, ih, and_assoc]

theorem along_of_forall {step : σ → α → σ} {G : σ → α → Prop} (acts : List α)
    (h : ∀ a ∈ acts, ∀ s, G s a) (s : σ) : Along step G s acts := by
  induction acts generalizing s with
  | nil => trivial
  | cons a acts ih => exact ⟨h a (by simp) s, ih (fun b hb => h b (by simp [hb])) _⟩

/-- An invariant kept by the acts that satisfy G, and which makes them satisfy
Q, carries G over to Q along a whole run. -/
theorem along_invariant {step : σ → α → σ} {G Q : σ → α → Prop} {Inv : σ → Prop}
    (hstep : ∀ s a, G s a → Inv s → Inv (step s a)) (hacts : ∀ s a, G s a → Inv s → Q s a)
    {s : σ} (hinit : Inv s) (acts : List α) (hG : Along step G s acts) : Along step Q s acts := by
  induction acts generalizing s with
  | nil => trivial
  | cons a acts ih => exact ⟨hacts s a hG.1 hinit, ih (hstep s a hG.1 hinit) hG.2⟩

theorem run_along {step : σ → α → σ} {G : σ → α → Prop} {Inv : σ → Prop} {P : α → Prop}
    (hstep : ∀ s a, P a → G s a → Inv s → Inv (step s a)) {s : σ} (hinit : Inv s) (acts : List α)
    (hacts : ∀ a ∈ acts, P a) (hG : Along step G s acts) : Inv (run step s acts) := by
  induction acts generalizing s with
  | nil => exact hinit
  | cons a acts ih =>
      exact ih (hstep s a (hacts a (by simp)) hG.1 hinit) (fun b hb => hacts b (by simp [hb])) hG.2

theorem along_imp {step : σ → α → σ} {G Q : σ → α → Prop} {Inv : σ → Prop} {P : α → Prop}
    (hstep : ∀ s a, P a → G s a → Inv s → Inv (step s a))
    (hacts : ∀ s a, P a → G s a → Inv s → Q s a) {s : σ} (hinit : Inv s) (acts : List α)
    (hP : ∀ a ∈ acts, P a) (hG : Along step G s acts) : Along step Q s acts := by
  induction acts generalizing s with
  | nil => trivial
  | cons a acts ih =>
      have ha := hP a (by simp)
      refine ⟨hacts s a ha hG.1 hinit, ?_⟩
      exact ih (hstep s a ha hG.1 hinit) (fun b hb => hP b (by simp [hb])) hG.2

theorem along_mono {step : σ → α → σ} {G Q : σ → α → Prop} (h : ∀ s a, G s a → Q s a) {s : σ}
    (acts : List α) (hG : Along step G s acts) : Along step Q s acts := by
  induction acts generalizing s with
  | nil => trivial
  | cons a acts ih => exact ⟨h s a hG.1, ih hG.2⟩

theorem along_congr {step : σ → α → σ} {G Q : σ → α → Prop} {Inv : σ → Prop} {P : α → Prop}
    (hstep : ∀ s a, P a → G s a → Inv s → Inv (step s a))
    (hiff : ∀ s a, P a → Inv s → (G s a ↔ Q s a)) {s : σ} (hinit : Inv s) (acts : List α)
    (hP : ∀ a ∈ acts, P a) : Along step G s acts ↔ Along step Q s acts := by
  constructor
  · exact along_imp hstep (fun s a ha hG h => (hiff s a ha h).mp hG) hinit acts hP
  · exact along_imp (fun s a ha hQ h => hstep s a ha ((hiff s a ha h).mpr hQ) h)
      (fun s a ha hQ h => (hiff s a ha h).mpr hQ) hinit acts hP

/-- What a step that changes one component does to a total over all of them. -/
theorem sum_update {ι τ : Type} [Fintype ι] [DecidableEq ι] (g : τ → ℕ) (f : ι → τ) (i : ι) (x : τ) :
    ∑ j, g (Function.update f i x j) + g (f i) = ∑ j, g (f j) + g x := by
  have hcomp : (fun j => g (Function.update f i x j)) = Function.update (fun j => g (f j)) i (g x) :=
    Function.comp_update g f i x
  have hsplit := Finset.sum_eq_add_sum_sdiff_singleton_of_mem (Finset.mem_univ i) (fun j => g (f j))
  rw [hcomp, Finset.sum_update_of_mem (Finset.mem_univ i), hsplit]
  omega

section Lawful

variable {R : List α → α → Prop} {trace : List α}

/-- Every event of a trace, oldest first, is one that R allows after the events
before it. -/
def Lawful (R : List α → α → Prop) (trace : List α) : Prop :=
  ∀ past e rest, trace = past ++ e :: rest → R past e

theorem lawful_nil : Lawful R [] := by
  intro past e rest h
  simp at h

theorem lawful_snoc {e : α} (h : Lawful R trace) (he : R trace e) : Lawful R (trace ++ [e]) := by
  intro past e' rest heq
  cases rest using List.reverseRecOn with
  | nil =>
      obtain ⟨rfl, hlast⟩ := List.append_inj' heq rfl
      rw [List.singleton_inj] at hlast
      exact hlast ▸ he
  | append_singleton rest last =>
      rw [← List.cons_append, ← List.append_assoc] at heq
      exact h past e' rest (List.append_inj' heq rfl).1

end Lawful

section LastWith

variable {κ : Type} [DecidableEq κ]

/-- The last element with key k, in a list that has the oldest element first. -/
def lastWith (key : α → κ) (k : κ) (acts : List α) : Option α :=
  acts.reverse.find? (fun a => key a = k)

theorem lastWith_snoc (key : α → κ) (k : κ) (acts : List α) (a : α) :
    lastWith key k (acts ++ [a]) = if key a = k then some a else lastWith key k acts := by
  rw [lastWith, List.reverse_append, List.reverse_singleton, List.singleton_append, List.find?_cons]
  by_cases hk : key a = k
  · simp [hk]
  · simp [hk, lastWith]

theorem lastWith_cons (key : α → κ) (k : κ) (a : α) (acts : List α) :
    lastWith key k (a :: acts) =
      (lastWith key k acts).or (if key a = k then some a else none) := by
  rw [lastWith, List.reverse_cons, List.find?_append, lastWith]
  by_cases hk : key a = k <;> simp [hk]

theorem lastWith_some {key : α → κ} {k : κ} {acts : List α} {a : α}
    (h : lastWith key k acts = some a) : a ∈ acts ∧ key a = k := by
  rw [lastWith] at h
  exact ⟨by simpa using List.mem_of_find?_eq_some h, by simpa using List.find?_some h⟩

theorem lastWith_eq_none {key : α → κ} {k : κ} {acts : List α} :
    lastWith key k acts = none ↔ ∀ a ∈ acts, key a ≠ k := by
  simp [lastWith]

end LastWith

end PacketIntercept.Runs
