import OS161.Lib.Loop

/-! Buffers as functions of the index, and copying between them. -/
namespace Buffer

variable {α : Type*} {dst src : Nat → α} {d s n i : Nat}

/-- `n` elements of `src` from `s` on, copied to `dst` from `d` on. -/
def blit (dst : Nat → α) (d : Nat) (src : Nat → α) (s n : Nat) : Nat → α := fun i =>
  if d ≤ i ∧ i < d + n then src (s + (i - d)) else dst i

theorem blit_inside (h : d ≤ i) (h' : i < d + n) : blit dst d src s n i = src (s + (i - d)) :=
  if_pos ⟨h, h'⟩

theorem blit_outside (h : i < d ∨ d + n ≤ i) : blit dst d src s n i = dst i :=
  if_neg fun hin => by omega

@[simp] theorem blit_zero : blit dst d src s 0 = dst :=
  funext fun _ => blit_outside (by omega)

theorem blit_congr {src' : Nat → α} {s' : Nat} (h : ∀ k < n, src (s + k) = src' (s' + k)) :
    blit dst d src s n = blit dst d src' s' n := by
  funext i
  by_cases hin : d ≤ i ∧ i < d + n
  · rw [blit_inside hin.1 hin.2, blit_inside hin.1 hin.2, h _ (by omega)]
  · rw [blit_outside (by omega), blit_outside (by omega)]

/-- Copying in two pieces. -/
theorem blit_append {k : Nat} :
    blit (blit dst d src s n) (d + n) src (s + n) k = blit dst d src s (n + k) := by
  funext i
  by_cases hlow : i < d + n
  · rw [blit_outside (.inl hlow)]
    by_cases hin : d ≤ i
    · rw [blit_inside hin hlow, blit_inside hin (by omega)]
    · rw [blit_outside (.inl (by omega)), blit_outside (.inl (by omega))]
  · by_cases hhigh : i < d + n + k
    · rw [blit_inside (by omega) hhigh, blit_inside (by omega) (by omega)]
      congr 1
      omega
    · rw [blit_outside (by omega), blit_outside (by omega), blit_outside (by omega)]

/-- The same with the last piece first. -/
theorem blit_prepend {k : Nat} :
    blit (blit dst (d + n) src (s + n) k) d src s n = blit dst d src s (n + k) := by
  funext i
  by_cases hhigh : d + n ≤ i
  · rw [blit_outside (.inr hhigh)]
    by_cases hin : i < d + n + k
    · rw [blit_inside hhigh hin, blit_inside (by omega) (by omega)]
      congr 1
      omega
    · rw [blit_outside (by omega), blit_outside (by omega)]
  · by_cases hlow : d ≤ i
    · rw [blit_inside hlow (by omega), blit_inside hlow (by omega)]
    · rw [blit_outside (by omega), blit_outside (by omega), blit_outside (by omega)]

/-- Copying through another buffer. -/
theorem blit_through {b : Nat → α} : blit dst d (blit b 0 src s n) 0 n = blit dst d src s n := by
  funext i
  by_cases hin : d ≤ i ∧ i < d + n
  · rw [blit_inside hin.1 hin.2, blit_inside hin.1 hin.2, blit_inside (by omega) (by omega)]
    congr 1
    omega
  · rw [blit_outside (by omega), blit_outside (by omega)]

section turns
variable {body : Nat → (Nat → α) → Nat → α} {w : Nat} {b : Nat → α}
  (hbody : ∀ k < n, ∀ b, body k b = blit b (d + w * k) b (s + w * k) w)
include hbody

/-- Forwards, no turn reads what an earlier one has written if the destination is not above the
source. -/
theorem upTo_blit (hle : d ≤ s) : Loop.upTo body n b = blit b d b s (w * n) := by
  refine Loop.upTo_inv (P := fun k b' => b' = blit b d b s (w * k)) (by simp) ?_
  rintro k b' hk rfl
  have hunread : ∀ j < w, blit b d b s (w * k) (s + w * k + j) = b (s + w * k + j) :=
    fun j _ => blit_outside (by omega)
  rw [hbody k hk, blit_congr hunread, blit_append, Nat.mul_succ]

theorem downFrom_blit (hle : s ≤ d) : Loop.downFrom body n b = blit b d b s (w * n) := by
  refine Loop.downFrom_inv
    (P := fun k b' => b' = blit b (d + w * k) b (s + w * k) (w * n - w * k)) (by simp) ?_
  rintro k b' hk rfl
  have hmul : w * (k + 1) ≤ w * n := Nat.mul_le_mul_left w hk
  rw [Nat.mul_succ] at hmul ⊢
  have hunread : ∀ j < w, blit b (d + (w * k + w)) b (s + (w * k + w)) (w * n - (w * k + w))
      (s + w * k + j) = b (s + w * k + j) := fun j _ => blit_outside (by omega)
  rw [hbody k hk, blit_congr hunread, ← Nat.add_assoc, ← Nat.add_assoc, blit_prepend]
  congr 1
  omega

end turns

end Buffer
