import OS161.Vm.Demand

/-! `make_readonly` and `pt_deep_destroy` touch the coremap entry of each valid entry once. -/
namespace OS161

open Machine

variable {live : Finset Nat} {pt : Nat → Vaddr} {own : Nat → Owner} {m m' m₁ : Machine}
  {p f g i j n : Nat} {ptp : Vaddr}

/-- Every valid entry of the table maps a frame labelled with its place. -/
def MapsOwned (own : Nat → Owner) (m : Machine) (ptp : Vaddr) : Prop :=
  ∀ i j, i < 1024 → j < 1024 → isValid (m.entry ptp i j) = true →
    ∃ f, f < m.coremap.size ∧ ppage (m.entry ptp i j) = m.coremap.frameAddr f ∧ own f = .user i j

/-- The coremap after the first `n` entries were visited, each frame updated by `u`. -/
structure Visited (own : Nat → Owner) (ptp : Vaddr) (u : FrameInfo → FrameInfo) (n : Nat)
    (m m' : Machine) : Prop where
  frames : SameFrames m m'
  user : ∀ f i j, own f = .user i j → m'.coremap.entries f =
    if i * 1024 + j < n ∧ isValid (m.entry ptp i j) = true ∧
      ppage (m.entry ptp i j) = m.coremap.frameAddr f
    then u (m.coremap.entries f) else m.coremap.entries f

section
variable {u : FrameInfo → FrameInfo} (h : Visited own ptp u (i * 1024 + j) m m₁)
  (hj : j < 1024) (hlt : ∀ f i j, own f = .user i j → j < 1024)
include h hj hlt

theorem Visited.visit (hown : ∀ f, own f ≠ .free → f < m.coremap.size)
    (hv : isValid (m.entry ptp i j) = true) (hg : ppage (m.entry ptp i j) = m.coremap.frameAddr g)
    (hs : SameFrames m m') (hc : m'.coremap.entries g = u (m₁.coremap.entries g))
    (hk : ∀ f i j, own f = .user i j → f ≠ g → m'.coremap.entries f = m₁.coremap.entries f)
    (hgo : own g = .user i j) : Visited own ptp u (i * 1024 + j + 1) m m' := by
  refine ⟨hs, ?_⟩
  intro f i' j' hf
  have hj' := hlt f i' j' hf
  by_cases hfg : f = g
  · subst f
    obtain ⟨rfl, rfl⟩ : i = i' ∧ j = j' := by simpa [hgo] using hf
    rw [hc, h.user g i j hgo, if_neg (by omega), if_pos ⟨by omega, hv, hg⟩]
  rw [hk f i' j' hf hfg, h.user f i' j' hf]
  refine if_congr (and_congr_left ?_) rfl rfl
  rintro ⟨_, hpp⟩
  have hne : ¬ (i' = i ∧ j' = j) := by
    rintro ⟨rfl, rfl⟩
    rw [hg] at hpp
    have hg1 : g < m.coremap.size := hown g (by simp [hgo])
    have hf1 : f < m.coremap.size := hown f (by simp [hf])
    exact hfg ((Coremap.frameAddr_inj hg1 hf1).mp hpp).symm
  omega

theorem Visited.pass (hv : isValid (m.entry ptp i j) = false) :
    Visited own ptp u (i * 1024 + j + 1) m m₁ := by
  refine ⟨h.frames, ?_⟩
  intro f i' j' hf
  have hj' := hlt f i' j' hf
  rw [h.user f i' j' hf]
  refine if_congr (and_congr_left ?_) rfl rfl
  rintro ⟨hv', _⟩
  have hne : ¬ (i' = i ∧ j' = j) := by
    rintro ⟨rfl, rfl⟩
    simp [hv] at hv'
  omega

end

theorem Visited.skip {u : FrameInfo → FrameInfo} (h : Visited own ptp u (i * 1024) m m₁)
    (hlt : ∀ f i j, own f = .user i j → j < 1024) (hw : m.word ptp i = 0#32) :
    Visited own ptp u ((i + 1) * 1024) m m₁ := by
  refine ⟨h.frames, ?_⟩
  intro f i' j' hf
  have hj' := hlt f i' j' hf
  rw [h.user f i' j' hf]
  refine if_congr (and_congr_left ?_) rfl rfl
  rintro ⟨hv, _⟩
  have hne : i' ≠ i := by
    rintro rfl
    simp [entry, hw] at hv
  omega

theorem FrameOK.of_not_user {info : FrameInfo} {n n' : Nat → Nat → Nat} {l : Owner}
    (h : FrameOK info n l) (hu : ∀ i j, l ≠ .user i j) : FrameOK info n' l := by
  cases l with
  | user i j => exact (hu i j rfl).elim
  | _ => exact h

theorem Owned.mapsOwned (h : Owned live pt own m) (hp : p ∈ live) : MapsOwned own m (pt p) := by
  intro i j hi hj hv
  obtain ⟨f, hf, hfo⟩ := h.mapped p hp i j hi hj hv
  exact ⟨f, h.inside f (by simp [hfo]), hf, hfo⟩

theorem Owned.user_lt (h : Owned live pt own m) (hf : own f = .user i j) : i < 1024 ∧ j < 1024 := by
  have hok := h.frames f (h.inside f (by simp [hf]))
  rw [hf] at hok
  exact ⟨hok.2.2.1, hok.2.2.2.1⟩

end OS161
