import Mathlib.Init

namespace PacketIntercept.RaisedErrors

variable {ε α β : Type} {E E' : ε → Prop} {Q Q' : α → Prop} {R : β → Prop}

/-- The computation ends with a result that satisfies Q or an error that satisfies E. -/
def Ends (Q : α → Prop) (E : ε → Prop) : Except ε α → Prop
  | .ok a => Q a
  | .error e => E e

theorem Ends.mono {x : Except ε α} (h : Ends Q E x) (hQ : ∀ a, Q a → Q' a) (hE : ∀ e, E e → E' e) :
    Ends Q' E' x := by
  cases x with
  | ok a => exact hQ a h
  | error e => exact hE e h

theorem Ends.bind {x : Except ε α} {f : α → Except ε β} (hx : Ends Q E x)
    (hf : ∀ a, Q a → Ends R E (f a)) : Ends R E (x >>= f) := by
  cases x with
  | ok a => exact hf a hx
  | error e => exact hx

theorem Ends.and {x : Except ε α} (h : Ends Q E x) (h' : Ends Q' E' x) :
    Ends (fun a => Q a ∧ Q' a) (fun e => E e ∧ E' e) x := by
  cases x with
  | ok a => exact ⟨h, h'⟩
  | error e => exact ⟨h, h'⟩

theorem Ends.error {x : Except ε α} (h : Ends Q E x) {e : ε} (he : x = .error e) : E e := by
  rw [he] at h
  exact h

theorem ok_of_bind {x : Except ε α} {f : α → Except ε β} {b : β} (h : (x >>= f) = .ok b) :
    ∃ a, x = .ok a ∧ f a = .ok b := by
  cases x with
  | ok a => exact ⟨a, rfl, h⟩
  | error e => cases h

theorem Ends.foldlM {Inv : β → Prop} {f : β → α → Except ε β} {l : List α} {b : β} (hb : Inv b)
    (hf : ∀ a ∈ l, ∀ b, Inv b → Ends Inv E (f b a)) : Ends Inv E (l.foldlM f b) := by
  induction l generalizing b with
  | nil => exact hb
  | cons a l ih =>
      rw [List.foldlM_cons]
      apply (hf a (by simp) b hb).bind
      intro b' hb'
      exact ih hb' (fun a' ha' => hf a' (by simp [ha']))

theorem Ends.mapM {f : α → Except ε β} {l : List α} (hf : ∀ a ∈ l, Ends R E (f a)) :
    Ends (fun bs => ∀ b ∈ bs, R b) E (l.mapM f) := by
  induction l with
  | nil =>
      intro b hb
      cases hb
  | cons a l ih =>
      rw [List.mapM_cons]
      apply (hf a (by simp)).bind
      intro b hb
      apply (ih (fun a' ha' => hf a' (by simp [ha']))).bind
      intro bs hbs b' hb'
      rcases List.mem_cons.mp hb' with rfl | hb'
      · exact hb
      · exact hbs b' hb'

/-- Where one call fails, the loop fails with the error of a call. -/
theorem mapM_error {f : α → Except ε β} {l : List α} {a : α} {e : ε} (ha : a ∈ l)
    (he : f a = .error e) : ∃ a' ∈ l, ∃ e', f a' = .error e' ∧ l.mapM f = .error e' := by
  induction l with
  | nil => cases ha
  | cons b l ih =>
      rw [List.mapM_cons]
      cases hb : f b with
      | error e' => exact ⟨b, by simp, e', hb, rfl⟩
      | ok c =>
          have hal : a ∈ l := by
            rcases List.mem_cons.mp ha with rfl | hal
            · rw [he] at hb
              cases hb
            · exact hal
          obtain ⟨a', ha', e', hf, hmap⟩ := ih hal
          refine ⟨a', by simp [ha'], e', hf, ?_⟩
          rw [hmap]
          rfl

end PacketIntercept.RaisedErrors
