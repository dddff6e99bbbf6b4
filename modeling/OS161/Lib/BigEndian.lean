import Mathlib.Algebra.Group.Nat.Defs
import Mathlib.Order.Basic

/-! Numbers in big-endian byte order at an offset of a buffer. -/
namespace BigEndian

variable {b b' : Nat → BitVec 8} {n m off off' v i : Nat}

/-- The number in the `n` bytes from `off` on. -/
def read : Nat → (Nat → BitVec 8) → Nat → Nat
  | 0, _, _ => 0
  | n + 1, b, off => read n b off * 256 + (b (off + n)).toNat

/-- The buffer with `v` in the `n` bytes from `off` on. -/
def write : Nat → (Nat → BitVec 8) → Nat → Nat → Nat → BitVec 8
  | 0, b, _, _ => b
  | n + 1, b, off, v => Function.update (write n b off (v / 256)) (off + n) (BitVec.ofNat 8 v)

theorem read_congr (h : ∀ i, off ≤ i → i < off + n → b i = b' i) :
    read n b off = read n b' off := by
  induction n with
  | zero => rfl
  | succ n ih =>
    rw [read, read, ih fun i hi hi' => h i hi (by omega), h (off + n) (by omega) (by omega)]

theorem write_outside (h : i < off ∨ off + n ≤ i) : write n b off v i = b i := by
  induction n generalizing v with
  | zero => rfl
  | succ n ih => rw [write, Function.update_of_ne (by omega), ih (by omega)]

theorem read_write : read n (write n b off v) off = v % 256 ^ n := by
  induction n generalizing v with
  | zero => simp [read, Nat.mod_one]
  | succ n ih =>
    have hlow : read n (write (n + 1) b off v) off = v / 256 % 256 ^ n := by
      rw [← ih]
      refine read_congr fun i _ hi' => ?_
      rw [write, Function.update_of_ne (by omega)]
    have hpow : 256 ^ (n + 1) = 256 * 256 ^ n := Nat.pow_succ'
    rw [read, hlow, write, Function.update_self, BitVec.toNat_ofNat, hpow, Nat.mod_mul]
    omega

theorem read_write_of_lt (h : v < 256 ^ n) : read n (write n b off v) off = v := by
  rw [read_write, Nat.mod_eq_of_lt h]

/-- A number elsewhere is not disturbed. -/
theorem read_write_of_disjoint (h : off' + m ≤ off ∨ off + n ≤ off') :
    read m (write n b off v) off' = read m b off' :=
  read_congr fun i _ _ => write_outside (by omega)

@[simp] theorem read_zero : read n (fun _ => 0#8) off = 0 := by
  induction n with
  | zero => rfl
  | succ n ih => simp [read, ih]

theorem read_lt : read n b off < 256 ^ n := by
  induction n with
  | zero => simp [read]
  | succ n ih =>
    rw [read, Nat.pow_succ]
    omega

end BigEndian
