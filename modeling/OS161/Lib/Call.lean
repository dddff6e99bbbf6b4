import Mathlib.Order.Basic

/-! Calls of C code with a state, error codes and crashes, and their pre- and postconditions. -/
/-- A call in the state `σ` that returns a value or an error code `ε`, or crashes with `κ`. -/
def Call (κ σ ε α : Type) : Type := σ → Except κ (Except ε α × σ)

namespace Call
variable {κ σ ε α β : Type}

protected def pure (a : α) : Call κ σ ε α := fun s => .ok (.ok a, s)

protected def bind (m : Call κ σ ε α) (f : α → Call κ σ ε β) : Call κ σ ε β := fun s =>
  match m s with
  | .error c => .error c
  | .ok (.error e, t) => .ok (.error e, t)
  | .ok (.ok a, t) => f a t

instance : Monad (Call κ σ ε) where
  pure := Call.pure
  bind := Call.bind

protected theorem bind_assoc {γ : Type} (m : Call κ σ ε α) (f : α → Call κ σ ε β)
    (g : β → Call κ σ ε γ) : m >>= f >>= g = m >>= fun a => f a >>= g := by
  funext s
  change Call.bind (Call.bind m f) g s = Call.bind m (fun a => Call.bind (f a) g) s
  unfold Call.bind
  cases m s with
  | error c => rfl
  | ok rt =>
    obtain ⟨r, t⟩ := rt
    cases r <;> rfl

protected theorem pure_bind (a : α) (f : α → Call κ σ ε β) : pure a >>= f = f a := rfl

/-- `return e` with an error code. -/
def fail (e : ε) : Call κ σ ε α := fun s => .ok (.error e, s)

def crash (c : κ) : Call κ σ ε α := fun _ => .error c

def get : Call κ σ ε σ := fun s => .ok (.ok s, s)

def modify (f : σ → σ) : Call κ σ ε Unit := fun s => .ok (.ok (), f s)

/-- `result = f(...)` where the caller goes on whatever the result is. -/
def attempt (m : Call κ σ ε α) : Call κ σ ε (Except ε α) := fun s =>
  match m s with
  | .error c => .error c
  | .ok (r, t) => .ok (.ok r, t)

/-- `return result`. -/
def result (r : Except ε α) : Call κ σ ε α := fun s => .ok (r, s)

/-- `if (p) return e`. -/
def failIf (e : ε) (p : Prop) [Decidable p] : Call κ σ ε Unit := if p then fail e else pure ()

def require (c : κ) (p : Prop) [Decidable p] : Call κ σ ε Unit := if p then pure () else crash c

/-- A call on a part of the state. -/
def zoom {τ : Type} (part : σ → τ) (put : σ → τ → σ) (m : Call κ τ ε α) : Call κ σ ε α := fun s =>
  match m (part s) with
  | .error c => .error c
  | .ok (r, t) => .ok (r, put s t)

/-- A call that also uses a local variable, whose final value is returned. -/
def withLocal {τ ρ : Type} (enter : σ → τ) (leave : τ → σ) (out : τ → ρ) (m : Call κ τ ε α) :
    Call κ σ ε ρ := fun s =>
  match m (enter s) with
  | .error c => .error c
  | .ok (r, t) => .ok (r.map fun _ => out t, leave t)

/-- The result of the call and the state after it satisfy `Q`, or it crashes as `C` allows. -/
def Ensures (C : κ → Prop) (m : Call κ σ ε α) (Q : Except ε α → σ → Prop) (s : σ) : Prop :=
  match m s with
  | .error c => C c
  | .ok (r, t) => Q r t

/-- Total correctness: the call returns. -/
abbrev wp (m : Call κ σ ε α) (Q : Except ε α → σ → Prop) (s : σ) : Prop :=
  Ensures (fun _ => False) m Q s

/-- Partial correctness: if the call returns. -/
abbrev wlp (m : Call κ σ ε α) (Q : Except ε α → σ → Prop) (s : σ) : Prop :=
  Ensures (fun _ => True) m Q s

/-- After the first of two calls: an error is the error of both. -/
def After (k : α → σ → Prop) (R : Except ε β → σ → Prop) : Except ε α → σ → Prop
  | .ok a, t => k a t
  | .error e, t => R (.error e) t

variable {C : κ → Prop} {m m' : Call κ σ ε α} {f : α → Call κ σ ε β} {r : Except ε α}
  {Q Q' : Except ε α → σ → Prop} {R : Except ε β → σ → Prop} {s t : σ}

theorem wp_iff : wp m Q s ↔ ∃ r t, m s = .ok (r, t) ∧ Q r t := by
  unfold wp Ensures
  cases m s with
  | error c => simp
  | ok rt =>
    obtain ⟨r, t⟩ := rt
    constructor
    · intro hQ
      exact ⟨r, t, rfl, hQ⟩
    · rintro ⟨r', t', heq, hQ⟩
      cases heq
      exact hQ

section
variable (h : Ensures C m Q s)
include h

theorem Ensures.mono (hq : ∀ r t, Q r t → Q' r t) : Ensures C m Q' s := by
  unfold Ensures at h ⊢
  cases hm : m s with
  | error c =>
    rw [hm] at h
    exact h
  | ok rt =>
    rw [hm] at h
    exact hq _ _ h

/-- More crashes may be allowed. -/
theorem Ensures.weaken {C' : κ → Prop} (hC : ∀ c, C c → C' c) : Ensures C' m Q s := by
  unfold Ensures at h ⊢
  cases hm : m s with
  | error c =>
    rw [hm] at h
    exact hC c h
  | ok rt =>
    rw [hm] at h
    exact h

theorem Ensures.and (h' : Ensures C m Q' s) : Ensures C m (fun r t => Q r t ∧ Q' r t) s := by
  unfold Ensures at h h' ⊢
  cases hm : m s with
  | error c =>
    rw [hm] at h
    exact h
  | ok rt =>
    rw [hm] at h h'
    exact ⟨h, h'⟩

theorem Ensures.of_eq (hm : m s = .ok (r, t)) : Q r t := by
  rw [Ensures, hm] at h
  exact h

omit h in
theorem ensures_of_run (hm : m s = .ok (r, t)) (hQ : Q r t) : Ensures C m Q s := by
  rw [Ensures, hm]
  exact hQ

omit h in
theorem ensures_iff_of_run (hm : m s = .ok (r, t)) : Ensures C m Q s ↔ Q r t :=
  ⟨fun h => h.of_eq hm, ensures_of_run hm⟩

theorem Ensures.of_error {c : κ} (hm : m s = .error c) : C c := by
  rw [Ensures, hm] at h
  exact h

end

@[simp] theorem ensures_pure {a : α} : Ensures C (pure a : Call κ σ ε α) Q s ↔ Q (.ok a) s :=
  ⟨id, id⟩

@[simp] theorem ensures_fail {e : ε} : Ensures C (fail e : Call κ σ ε α) Q s ↔ Q (.error e) s :=
  ⟨id, id⟩

@[simp] theorem ensures_crash {c : κ} : Ensures C (crash c : Call κ σ ε α) Q s ↔ C c := ⟨id, id⟩

@[simp] theorem ensures_result :
    Ensures C (result r : Call κ σ ε α) Q s ↔ Q r s := ⟨id, id⟩

@[simp] theorem ensures_get {Q : Except ε σ → σ → Prop} :
    Ensures C (get : Call κ σ ε σ) Q s ↔ Q (.ok s) s := ⟨id, id⟩

@[simp] theorem ensures_modify {g : σ → σ} {Q : Except ε Unit → σ → Prop} :
    Ensures C (modify g : Call κ σ ε Unit) Q s ↔ Q (.ok ()) (g s) := ⟨id, id⟩

@[simp] theorem after_ok {k : α → σ → Prop} {a : α} : After k R (.ok a) s ↔ k a s := ⟨id, id⟩

@[simp] theorem after_error {k : α → σ → Prop} {e : ε} :
    After k R (.error e) s ↔ R (.error e) s := ⟨id, id⟩

-- The continuation is left without its state, so that it is rewritten only when it is reached.
@[simp] theorem ensures_bind :
    Ensures C (m >>= f) R s ↔ Ensures C m (After (fun a => Ensures C (f a) R) R) s := by
  show Ensures C (Call.bind m f) R s ↔ _
  unfold Ensures Call.bind
  cases m s with
  | error c => rfl
  | ok rt =>
    obtain ⟨r, t⟩ := rt
    cases r <;> rfl

@[simp] theorem ensures_attempt {Q : Except ε (Except ε α) → σ → Prop} :
    Ensures C (attempt m) Q s ↔ Ensures C m (fun r t => Q (.ok r) t) s := by
  unfold Ensures attempt
  cases m s <;> rfl

theorem ensures_zoom {τ : Type} {part : σ → τ} {put : σ → τ → σ} {m : Call κ τ ε α} :
    Ensures C (zoom part put m) Q s ↔ Ensures C m (fun r t => Q r (put s t)) (part s) := by
  unfold Ensures zoom
  cases m (part s) <;> rfl

theorem ensures_withLocal {τ ρ : Type} {enter : σ → τ} {leave : τ → σ} {out : τ → ρ}
    {m : Call κ τ ε α} {Q : Except ε ρ → σ → Prop} :
    Ensures C (withLocal enter leave out m) Q s ↔
      Ensures C m (fun r t => Q (r.map fun _ => out t) (leave t)) (enter s) := by
  unfold Ensures withLocal
  cases m (enter s) <;> rfl

theorem ensures_ite {p : Prop} [Decidable p] :
    Ensures C (if p then m else m') Q s ↔ (p → Ensures C m Q s) ∧ (¬ p → Ensures C m' Q s) := by
  split
  · rename_i hp
    simp [hp]
  · rename_i hp
    simp [hp]

@[simp] theorem ensures_failIf {e : ε} {p : Prop} [Decidable p] {Q : Except ε Unit → σ → Prop} :
    Ensures C (failIf e p : Call κ σ ε Unit) Q s ↔ (p → Q (.error e) s) ∧ (¬ p → Q (.ok ()) s) := by
  rw [failIf, ensures_ite]
  rfl

@[simp] theorem ensures_require {c : κ} {p : Prop} [Decidable p] {Q : Except ε Unit → σ → Prop} :
    Ensures C (require c p : Call κ σ ε Unit) Q s ↔ (p → Q (.ok ()) s) ∧ (¬ p → C c) := by
  rw [require, ensures_ite]
  rfl

end Call
