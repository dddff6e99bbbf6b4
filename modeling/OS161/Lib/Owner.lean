import Mathlib.Data.Set.Basic

/-! Places that refer to numbered resources. The number 0 is no resource. -/
namespace Owner

variable {ι : Type*} {S S' : Set ι} {r r' : ι → Nat} {used used' : Nat → Prop} {i j : ι} {b : Nat}

structure Owns (S : Set ι) (r : ι → Nat) (used : Nat → Prop) : Prop where
  inj : ∀ i ∈ S, ∀ j ∈ S, r i ≠ 0 → r i = r j → i = j
  used : ∀ i ∈ S, r i ≠ 0 → used (r i)

/-- Places may let go of what they refer to, and of what is left everything is in use. -/
theorem Owns.restrict (h : Owns S r used) (hr : ∀ j ∈ S', r' j ≠ 0 → j ∈ S ∧ r' j = r j)
    (hused : ∀ j ∈ S', r' j ≠ 0 → used (r' j) → used' (r' j)) : Owns S' r' used' where
  inj := by
    intro i hi j hj hne heq
    obtain ⟨hiS, hi'⟩ := hr i hi hne
    obtain ⟨hjS, hj'⟩ := hr j hj (heq ▸ hne)
    exact h.inj i hiS j hjS (hi' ▸ hne) (by rw [← hi', ← hj', heq])
  used := by
    intro i hi hne
    obtain ⟨hiS, hi'⟩ := hr i hi hne
    refine hused i hi hne ?_
    rw [hi']
    exact h.used i hiS (hi' ▸ hne)

/-- A place may get a resource that was not in use. -/
theorem Owns.assign (h : Owns S r used) (hr : ∀ j ∈ S', j ≠ i → r' j ≠ 0 → j ∈ S ∧ r' j = r j)
    (hi : r' i = b) (hb : ¬ used b) (hb' : used' b) (hused : ∀ c, used c → used' c) :
    Owns S' r' used' where
  inj := by
    have hfresh : ∀ j ∈ S', j ≠ i → r' j ≠ 0 → r' j ≠ b := by
      intro j hj hne hj0 heq
      obtain ⟨hjS, hj'⟩ := hr j hj hne hj0
      exact hb (heq ▸ hj' ▸ h.used j hjS (hj' ▸ hj0))
    intro j hj k hk hne heq
    by_cases hji : j = i
    · subst hji
      by_contra hkj
      exact hfresh k hk (Ne.symm hkj) (heq ▸ hne) (heq ▸ hi)
    by_cases hki : k = i
    · subst hki
      exact absurd (heq.trans hi) (hfresh j hj hji hne)
    · obtain ⟨hjS, hj'⟩ := hr j hj hji hne
      obtain ⟨hkS, hk'⟩ := hr k hk hki (heq ▸ hne)
      exact h.inj j hjS k hkS (hj' ▸ hne) (by rw [← hj', ← hk', heq])
  used := by
    intro j hj hne
    by_cases hji : j = i
    · subst hji
      exact hi ▸ hb'
    · obtain ⟨hjS, hj'⟩ := hr j hj hji hne
      rw [hj']
      exact hused _ (h.used j hjS (hj' ▸ hne))

/-- What a place refers to is referred to from nowhere else. -/
theorem Owns.ne (h : Owns S r used) (hi : i ∈ S) (hj : j ∈ S) (hij : i ≠ j) (h0 : r i ≠ 0) :
    r j ≠ r i :=
  fun heq => hij (h.inj i hi j hj h0 heq.symm)

/-- What is not in use is referred to from nowhere. -/
theorem Owns.ne_of_unused (h : Owns S r used) (hj : j ∈ S) (hb : ¬ used b) (hb0 : b ≠ 0) :
    r j ≠ b := by
  rintro rfl
  exact hb (h.used j hj hb0)

end Owner
