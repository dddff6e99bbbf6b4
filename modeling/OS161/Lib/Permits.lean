import Mathlib.Algebra.Order.BigOperators.Group.Finset

/-! Counting semaphores: a unit is either in the count or with a thread. -/
namespace Permits

variable {ι κ : Type*} [Fintype ι] {count : κ → Nat} {held held' : ι → κ → Nat}
  {total : κ → Nat} {i j : ι} {k : κ}

/-- The units of each semaphore, free and held. -/
def Balanced (count : κ → Nat) (held : ι → κ → Nat) (total : κ → Nat) : Prop :=
  ∀ k, count k + ∑ i, held i k = total k

theorem sum_change [DecidableEq ι] {f g : ι → Nat} (h : ∀ j, j ≠ i → g j = f j) :
    ∑ j, g j + f i = ∑ j, f j + g i := by
  rw [← Finset.add_sum_erase _ g (Finset.mem_univ i),
    ← Finset.add_sum_erase _ f (Finset.mem_univ i)]
  have hrest : ∑ j ∈ Finset.univ.erase i, g j = ∑ j ∈ Finset.univ.erase i, f j :=
    Finset.sum_congr rfl fun j hj => h j (Finset.ne_of_mem_erase hj)
  omega

section
variable (h : Balanced count held total)
include h

theorem Balanced.move [DecidableEq ι] {count' : κ → Nat} (hother : ∀ j, j ≠ i → held' j = held j)
    (hnew : ∀ m, count' m + held' i m = count m + held i m) : Balanced count' held' total := by
  intro m
  have hsum := sum_change (g := (held' · m)) (f := (held · m)) fun j hj => by rw [hother j hj]
  have hbal := h m
  have hself := hnew m
  omega

theorem Balanced.take [DecidableEq ι] [DecidableEq κ]
    (hpos : count k ≠ 0) (hother : ∀ j, j ≠ i → held' j = held j)
    (hnew : ∀ m, held' i m = held i m + if k = m then 1 else 0) :
    Balanced (Function.update count k (count k - 1)) held' total := by
  refine h.move hother fun m => ?_
  rw [hnew]
  by_cases hmk : m = k
  · rw [hmk, Function.update_self, if_pos rfl]
    omega
  · rw [Function.update_of_ne hmk, if_neg (Ne.symm hmk)]
    rfl

theorem Balanced.give [DecidableEq ι] [DecidableEq κ] (hother : ∀ j, j ≠ i → held' j = held j)
    (hnew : ∀ m, held i m = held' i m + if k = m then 1 else 0) :
    Balanced (Function.update count k (count k + 1)) held' total := by
  refine h.move hother fun m => ?_
  rw [hnew]
  by_cases hmk : m = k
  · rw [hmk, Function.update_self, if_pos rfl]
    omega
  · rw [Function.update_of_ne hmk, if_neg (Ne.symm hmk)]
    rfl

/-- One unit has one holder. -/
theorem Balanced.holder_unique (hone : total k = 1)
    (hi : held i k ≠ 0) (hj : held j k ≠ 0) : i = j := by
  classical
  by_contra hij
  have hbal := h k
  have hsum : held i k + held j k ≤ ∑ l, held l k := by
    rw [← Finset.sum_pair hij (f := fun l => held l k)]
    exact Finset.sum_le_sum_of_subset (Finset.subset_univ _)
  omega

/-- A unit that is not free is held. -/
theorem Balanced.exists_holder (hpos : total k ≠ 0) (hzero : count k = 0) : ∃ i, held i k ≠ 0 := by
  by_contra hno
  have hnone : ∑ i, held i k = 0 :=
    Finset.sum_eq_zero fun i _ => by_contra fun hi => hno ⟨i, hi⟩
  have hbal := h k
  omega

end

end Permits
