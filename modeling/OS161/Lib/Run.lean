import Mathlib.Order.Basic

/-! Finite labelled runs of a transition relation, and the induction every safety proof shares. -/
namespace Lts

variable {σ α : Type*} {step step' : σ → α → σ → Prop} {s t u : σ} {a : α} {as bs : List α}

/-- A finite run, with its labels in order. -/
inductive Run (step : σ → α → σ → Prop) : σ → List α → σ → Prop where
  | refl {s : σ} : Run step s [] s
  | head {s t u : σ} {a : α} {as : List α} : step s a t → Run step t as u → Run step s (a :: as) u

/-- The steps whose source and label meet a side condition. -/
def Restrict (step : σ → α → σ → Prop) (ok : σ → α → Prop) (s : σ) (a : α) (t : σ) : Prop :=
  step s a t ∧ ok s a

theorem Run.single (h : step s a t) : Run step s [a] t := .head h .refl

theorem Run.append (h : Run step s as t) (h' : Run step t bs u) : Run step s (as ++ bs) u := by
  induction h with
  | refl => exact h'
  | head hs _ ih => exact .head hs (ih h')

theorem Run.snoc (h : Run step s as t) (hs : step t a u) : Run step s (as ++ [a]) u :=
  h.append (.single hs)

theorem Run.mono (hm : ∀ s a t, step s a t → step' s a t) (h : Run step s as t) :
    Run step' s as t := by
  induction h with
  | refl => exact .refl
  | head hs _ ih => exact .head (hm _ _ _ hs) ih

/-- A run computed by a partial step function. -/
theorem Run.of_foldlM {next : σ → α → Option σ} (hn : ∀ s a t, next s a = some t → step s a t)
    (h : as.foldlM next s = some t) : Run step s as t := by
  induction as generalizing s with
  | nil =>
    cases h
    exact .refl
  | cons a as ih =>
    obtain ⟨u, hu, hrest⟩ := Option.bind_eq_some_iff.mp h
    exact .head (hn s a u hu) (ih hrest)

/-- A run is exhibited once; the rest is proved of its last state. -/
theorem exists_run_and {P Q : σ → Prop} (h : ∃ t, Run step s as t ∧ P t)
    (hq : ∀ t, Run step s as t → P t → Q t) : ∃ t, Run step s as t ∧ P t ∧ Q t := by
  obtain ⟨t, hrun, hp⟩ := h
  exact ⟨t, hrun, hp, hq t hrun hp⟩

/-- What every step preserves, every run preserves. -/
theorem Run.invariant (inv : σ → Prop) (hi : ∀ s a t, step s a t → inv s → inv t)
    (h : Run step s as t) (hs : inv s) : inv t := by
  induction h with
  | refl => exact hs
  | head hst _ ih => exact ih (hi _ _ _ hst hs)

/-- The same for a property of the state and of the labels so far. -/
theorem Run.history (inv : List α → σ → Prop) (h0 : inv [] s)
    (hi : ∀ as t a u, inv as t → step t a u → inv (as ++ [a]) u) (h : Run step s as t) :
    inv as t := by
  have hext : ∀ bs, inv bs s → inv (bs ++ as) t := by
    clear h0
    induction h with
    | refl =>
      intro bs hbs
      rw [List.append_nil]
      exact hbs
    | head hs _ ih =>
      intro bs hbs
      rw [List.append_cons]
      exact ih _ (hi _ _ _ _ hbs hs)
  exact hext [] h0

/-- A state some run reaches from an initial one. -/
def Reachable (init : σ → Prop) (step : σ → α → σ → Prop) (t : σ) : Prop :=
  ∃ s as, init s ∧ Run step s as t

variable {init : σ → Prop}

theorem Reachable.of_init (h : init s) : Reachable init step s := ⟨s, [], h, .refl⟩

theorem Reachable.next (h : Reachable init step s) (hs : step s a t) : Reachable init step t := by
  obtain ⟨r, as, hr, hrun⟩ := h
  exact ⟨r, as ++ [a], hr, hrun.snoc hs⟩

theorem Reachable.invariant (inv : σ → Prop) (h0 : ∀ s, init s → inv s)
    (hi : ∀ s a t, step s a t → inv s → inv t) (h : Reachable init step t) : inv t := by
  obtain ⟨r, as, hr, hrun⟩ := h
  exact hrun.invariant inv hi (h0 r hr)

end Lts
