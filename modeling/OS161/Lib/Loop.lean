import Mathlib.Order.Basic

/-! Counted loops over an explicit state, with the rules that reason about them. -/
namespace Loop

variable {σ : Type*} {n : Nat} {body : Nat → σ → σ} {s t : σ} {P : Nat → σ → Prop}

/-- `for (i = 0; i < n; i++) body(i)`. -/
def upTo (body : Nat → σ → σ) : Nat → σ → σ
  | 0, s => s
  | n + 1, s => body n (upTo body n s)

/-- `for (i = n; i > 0; i--) body(i - 1)`. -/
def downFrom (body : Nat → σ → σ) : Nat → σ → σ
  | 0, s => s
  | n + 1, s => downFrom body n (body n s)

/-- The loop upwards when the body may stop it for good. -/
def tryUpTo (body : Nat → σ → Option σ) : Nat → σ → Option σ
  | 0, s => some s
  | n + 1, s => (tryUpTo body n s).bind (body n)

/-- The same loop when the body may leave it with a value of its own. -/
def exceptUpTo {ε : Type*} (body : Nat → σ → Except ε σ) : Nat → σ → Except ε σ
  | 0, s => .ok s
  | n + 1, s => (exceptUpTo body n s).bind (body n)

/-- The invariant rule of a counted loop. -/
theorem upTo_inv (h0 : P 0 s)
    (hs : ∀ k s, k < n → P k s → P (k + 1) (body k s)) : P n (upTo body n s) := by
  induction n with
  | zero => exact h0
  | succ n ih =>
    exact hs n _ (Nat.lt_succ_self n) (ih fun k s hk => hs k s (Nat.lt_succ_of_lt hk))

theorem downFrom_inv (hn : P n s)
    (hs : ∀ k s, k < n → P (k + 1) s → P k (body k s)) : P 0 (downFrom body n s) := by
  induction n generalizing s with
  | zero => exact hn
  | succ n ih =>
    exact ih (hs n s (Nat.lt_succ_self n) hn) fun k s hk => hs k s (Nat.lt_succ_of_lt hk)

theorem upTo_id (h : ∀ k, k < n → body k s = s) : upTo body n s = s := by
  apply upTo_inv (P := fun _ t => t = s) rfl
  intro k t hk ht
  rw [ht, h k hk]

theorem upTo_map (f : σ → σ) (h : ∀ k s, body k (f s) = f (body k s)) :
    upTo body n (f s) = f (upTo body n s) := by
  induction n with
  | zero => rfl
  | succ n ih => rw [upTo, ih, h, upTo]

theorem tryUpTo_map {body : Nat → σ → Option σ} (f : σ → σ)
    (h : ∀ k s, body k (f s) = (body k s).map f) :
    tryUpTo body n (f s) = (tryUpTo body n s).map f := by
  induction n with
  | zero => rfl
  | succ n ih =>
    rw [tryUpTo, tryUpTo, ih]
    cases tryUpTo body n s with
    | none => rfl
    | some t => exact h n t

/-- A loop in which a single turn does anything. -/
theorem upTo_single {k₀ : Nat} (hk : k₀ < n) (h : ∀ k, k < n → k ≠ k₀ → body k s = s)
    (h' : ∀ k, k < n → k ≠ k₀ → body k (body k₀ s) = body k₀ s) : upTo body n s = body k₀ s := by
  have hend : upTo body n s = if k₀ < n then body k₀ s else s := by
    refine upTo_inv (P := fun k t => t = if k₀ < k then body k₀ s else s) (by simp) ?_
    rintro k t hkn rfl
    rcases Nat.lt_trichotomy k₀ k with hlt | rfl | hgt
    · simp only [if_pos hlt, if_pos (Nat.lt_succ_of_lt hlt)]
      exact h' k hkn (Nat.ne_of_gt hlt)
    · simp
    · rw [if_neg (Nat.not_lt_of_lt hgt), if_neg (Nat.not_lt_of_le hgt)]
      exact h k hkn (Nat.ne_of_lt hgt)
  rw [hend, if_pos hk]

theorem tryUpTo_single {body : Nat → σ → Option σ} {k₀ : Nat} (hk : k₀ < n)
    (h : ∀ k, k < n → k ≠ k₀ → body k s = some s) (h₀ : body k₀ s = some t)
    (h' : ∀ k, k < n → k ≠ k₀ → body k t = some t) : tryUpTo body n s = some t := by
  have hpart : ∀ m, m ≤ n → tryUpTo body m s = some (if k₀ < m then t else s) := by
    intro m hm
    induction m with
    | zero => simp [tryUpTo]
    | succ m ih =>
      rw [tryUpTo, ih (Nat.le_of_lt hm), Option.bind_some]
      rcases Nat.lt_trichotomy k₀ m with hlt | rfl | hgt
      · rw [if_pos hlt, if_pos (Nat.lt_succ_of_lt hlt)]
        exact h' m hm (Nat.ne_of_gt hlt)
      · rw [if_neg (Nat.lt_irrefl _), if_pos (Nat.lt_succ_self _)]
        exact h₀
      · rw [if_neg (Nat.not_lt_of_lt hgt), if_neg (Nat.not_lt_of_le hgt)]
        exact h m hm (Nat.ne_of_lt hgt)
  rw [hpart n (Nat.le_refl n), if_pos hk]

/-- The invariant rule of a loop that ran to its end. -/
theorem tryUpTo_inv {body : Nat → σ → Option σ} (h0 : P 0 s)
    (hs : ∀ k s t, k < n → P k s → body k s = some t → P (k + 1) t)
    (h : tryUpTo body n s = some t) : P n t := by
  induction n generalizing t with
  | zero =>
    cases h
    exact h0
  | succ n ih =>
    obtain ⟨u, hu, ht⟩ := Option.bind_eq_some_iff.mp h
    exact hs n u t (Nat.lt_succ_self n) (ih (fun k s t hk => hs k s t (Nat.lt_succ_of_lt hk)) hu) ht

/-- A loop ends the same way whether or not it says how it was left. -/
theorem exceptUpTo_toOption {ε : Type*} {body : Nat → σ → Except ε σ} {body' : Nat → σ → Option σ}
    (h : ∀ k s, (body k s).toOption = body' k s) :
    (exceptUpTo body n s).toOption = tryUpTo body' n s := by
  induction n with
  | zero => rfl
  | succ n ih =>
    rw [exceptUpTo, tryUpTo, ← ih]
    cases exceptUpTo body n s with
    | error e => rfl
    | ok t => exact h n t

/-- The invariant rule of a loop that no turn leaves. -/
theorem exceptUpTo_inv {ε : Type*} {body : Nat → σ → Except ε σ} (h0 : P 0 s)
    (hs : ∀ k s, k < n → P k s → ∃ t, body k s = .ok t ∧ P (k + 1) t) :
    ∃ t, exceptUpTo body n s = .ok t ∧ P n t := by
  induction n with
  | zero => exact ⟨s, rfl, h0⟩
  | succ n ih =>
    obtain ⟨t, ht, hP⟩ := ih fun k s hk => hs k s (Nat.lt_succ_of_lt hk)
    obtain ⟨u, hu, hP'⟩ := hs n t (Nat.lt_succ_self n) hP
    refine ⟨u, ?_, hP'⟩
    rw [exceptUpTo, ht]
    exact hu

/-- What a loop was left with came from some turn of it. -/
theorem exceptUpTo_error {ε : Type*} {body : Nat → σ → Except ε σ} {e : ε}
    (h : exceptUpTo body n s = .error e) : ∃ k t, body k t = .error e := by
  induction n with
  | zero => cases h
  | succ n ih =>
    rw [exceptUpTo] at h
    cases ht : exceptUpTo body n s with
    | error e' =>
      rw [ht] at h
      cases h
      exact ih ht
    | ok t =>
      rw [ht] at h
      exact ⟨n, t, h⟩

/-- A body that never stops under the invariant runs as the plain loop does. -/
theorem tryUpTo_eq_upTo {body' : Nat → σ → Option σ} (h0 : P 0 s)
    (hs : ∀ k s, k < n → P k s → body' k s = some (body k s) ∧ P (k + 1) (body k s)) :
    tryUpTo body' n s = some (upTo body n s) := by
  induction n with
  | zero => rfl
  | succ n ih =>
    have hn : ∀ k s, k < n → P k s → body' k s = some (body k s) ∧ P (k + 1) (body k s) :=
      fun k s hk => hs k s (Nat.lt_succ_of_lt hk)
    have hP : P n (upTo body n s) := upTo_inv h0 fun k s hk hp => (hn k s hk hp).2
    rw [tryUpTo, ih hn, upTo]
    exact (hs n _ (Nat.lt_succ_self n) hP).1

end Loop
