import Mathlib.Order.Basic

/-! Setting and clearing flag bits of a word does not disturb the fields outside the flag. -/
namespace Bits

variable {w : Nat} (x : BitVec w) {y m : BitVec w}

theorem or_and_of_disjoint (h : y &&& m = 0#w) : (x ||| y) &&& m = x &&& m := by
  rw [BitVec.and_or_distrib_right, h, BitVec.or_zero]

theorem or_and_self (m : BitVec w) : (x ||| m) &&& m = m := by
  ext i hi
  cases hm : m[i] <;> simp [hm]

/-- Clearing bits a mask does not cover. -/
theorem clear_and_of_disjoint (h : y &&& m = 0#w) : (x &&& ~~~y) &&& m = x &&& m := by
  ext i hi
  have hi' : (y[i] && m[i]) = false := by
    have := congrArg (fun b : BitVec w => b[i]) h
    simpa using this
  cases hy : y[i] <;> cases hm : m[i] <;> simp_all

theorem clear_and_self (m : BitVec w) : (x &&& ~~~m) &&& m = 0#w := by
  ext i hi
  cases hm : m[i] <;> simp [hm]

end Bits
