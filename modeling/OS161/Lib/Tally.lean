import Mathlib.Data.Nat.Count

/-! How often a value occurs below a bound, when one place changes. -/
namespace Tally

variable {α : Type*} [DecidableEq α] {f g : ℕ → α} {i n : ℕ} {a : α}

theorem count_congr (h : ∀ j < n, g j = f j) : Nat.count (g · = a) n = Nat.count (f · = a) n := by
  induction n with
  | zero => rw [Nat.count_zero, Nat.count_zero]
  | succ n ih =>
    rw [Nat.count_succ, Nat.count_succ, ih fun j hj => h j (hj.trans (Nat.lt_succ_self n)),
      h n (Nat.lt_succ_self n)]

theorem count_change (h : ∀ j, j ≠ i → g j = f j) (hi : i < n) :
    Nat.count (g · = a) n + (if f i = a then 1 else 0) =
      Nat.count (f · = a) n + (if g i = a then 1 else 0) := by
  induction n with
  | zero => exact absurd hi (Nat.not_lt_zero i)
  | succ n ih =>
    rw [Nat.count_succ, Nat.count_succ]
    rcases Nat.lt_succ_iff_lt_or_eq.mp hi with hlt | rfl
    · rw [h n hlt.ne']
      omega
    · rw [count_congr fun j hj => h j hj.ne]
      omega

theorem count_next (h : ∀ j, j ≠ n → g j = f j) :
    Nat.count (g · = a) (n + 1) = Nat.count (f · = a) n + if g n = a then 1 else 0 := by
  rw [Nat.count_succ, count_congr fun j hj => h j hj.ne]

end Tally
