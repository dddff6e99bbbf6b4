import Mathlib.Algebra.Order.Group.Nat
import Mathlib.Algebra.BigOperators.Group.List.Basic
import Mathlib.Algebra.GroupWithZero.Nat

/-! A stretch of addresses divided into blocks, each of which knows the length of the one below. -/
namespace Tiling

variable {B : Type*} (len : B → Nat)

def span (bs : List B) : Nat := (bs.map len).sum

/-- The length of the last block, `prev` if there is none. -/
def last (prev : Nat) : List B → Nat
  | [] => prev
  | b :: bs => last (len b) bs

/-- The blocks with their addresses, from `a` upwards. -/
def placed (a : Nat) : List B → List (Nat × B)
  | [] => []
  | b :: bs => (a, b) :: placed (a + len b) bs

/-- From `a` upwards the blocks follow each other; `H` says what is to hold of a block at an
address, with the length of the block below it. -/
def Tiles (H : Nat → Nat → B → Prop) : Nat → Nat → List B → Prop
  | _, _, [] => True
  | a, prev, b :: bs => H a prev b ∧ Tiles H (a + len b) (len b) bs

variable {len} {H H' : Nat → Nat → B → Prop} {a prev : Nat} {b : B} {bs xs ys : List B}

@[simp] theorem span_nil : span len [] = 0 := rfl

@[simp] theorem span_cons : span len (b :: bs) = len b + span len bs := by
  simp [span]

@[simp] theorem span_append : span len (xs ++ ys) = span len xs + span len ys := by
  simp [span]

@[simp] theorem last_append : last len prev (xs ++ ys) = last len (last len prev xs) ys := by
  induction xs generalizing prev with
  | nil => rfl
  | cons x xs ih => exact ih

theorem last_le : last len prev bs ≤ prev + span len bs := by
  induction bs generalizing prev with
  | nil => exact Nat.le_refl _
  | cons b bs ih =>
    have := @ih (len b)
    rw [last, span_cons]
    omega

theorem placed_append :
    placed len a (xs ++ ys) = placed len a xs ++ placed len (a + span len xs) ys := by
  induction xs generalizing a with
  | nil => rfl
  | cons x xs ih => simp [placed, ih, Nat.add_assoc]

theorem mem_placed : (a + span len xs, b) ∈ placed len a (xs ++ b :: ys) := by
  rw [placed_append]
  exact List.mem_append_right _ List.mem_cons_self

theorem tiles_append : Tiles len H a prev (xs ++ ys) ↔
    Tiles len H a prev xs ∧ Tiles len H (a + span len xs) (last len prev xs) ys := by
  induction xs generalizing a prev with
  | nil => simp [Tiles, last]
  | cons x xs ih => simp [Tiles, last, ih, and_assoc, Nat.add_assoc]

variable {x : Nat × B}

theorem placed_bounds (hx : x ∈ placed len a bs) : a ≤ x.1 ∧ x.1 + len x.2 ≤ a + span len bs := by
  induction bs generalizing a with
  | nil => cases hx
  | cons b bs ih =>
    rw [span_cons]
    rcases List.mem_cons.mp hx with rfl | hx
    · simp only
      omega
    · have := ih hx
      omega

theorem placed_pairwise : (placed len a bs).Pairwise fun x y => x.1 + len x.2 ≤ y.1 := by
  induction bs generalizing a with
  | nil => exact .nil
  | cons b bs ih => exact .cons (fun y hy => (placed_bounds hy).1) ih

theorem placed_apart {y : Nat × B} (hx : x ∈ placed len a bs) (hy : y ∈ placed len a bs) :
    x = y ∨ x.1 + len x.2 ≤ y.1 ∨ y.1 + len y.2 ≤ x.1 := by
  induction bs generalizing a with
  | nil => cases hx
  | cons b bs ih =>
    rcases List.mem_cons.mp hx with rfl | hx
    · rcases List.mem_cons.mp hy with rfl | hy
      · exact .inl rfl
      · exact .inr (.inl (placed_bounds hy).1)
    · rcases List.mem_cons.mp hy with rfl | hy
      · exact .inr (.inr (placed_bounds hx).1)
      · exact ih hx hy

theorem placed_split (hx : x ∈ placed len a bs) :
    ∃ xs ys, bs = xs ++ x.2 :: ys ∧ x.1 = a + span len xs := by
  induction bs generalizing a with
  | nil => cases hx
  | cons b bs ih =>
    rcases List.mem_cons.mp hx with rfl | hx
    · exact ⟨[], bs, rfl, rfl⟩
    · obtain ⟨xs, ys, rfl, h⟩ := ih hx
      exact ⟨b :: xs, ys, rfl, by rw [h, span_cons, Nat.add_assoc]⟩

theorem Tiles.mono (h : Tiles len H a prev bs)
    (hH : ∀ x ∈ placed len a bs, ∀ p, H x.1 p x.2 → H' x.1 p x.2) : Tiles len H' a prev bs := by
  induction bs generalizing a prev with
  | nil => trivial
  | cons b bs ih =>
    exact ⟨hH (a, b) (by simp [placed]) _ h.1,
      ih h.2 fun x hx => hH x (List.mem_cons_of_mem _ hx)⟩

/-- What a tiling says of one of its blocks. -/
theorem Tiles.placed (h : Tiles len H a prev bs) (hx : x ∈ placed len a bs) : ∃ p, H x.1 p x.2 := by
  obtain ⟨xs, ys, rfl, heq⟩ := placed_split hx
  rw [heq]
  exact ⟨_, (tiles_append.mp h).2.1⟩

end Tiling
