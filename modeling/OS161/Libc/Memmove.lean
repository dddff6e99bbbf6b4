import OS161.Base
import OS161.Lib.BigEndian
import OS161.Lib.Buffer

/-! `memmove.c` and `memcpy.c`: a turn of a loop reads all that it copies before it writes. -/
namespace OS161.Memmove

open Buffer

/-- The bytes of the address space. -/
abbrev Memory := Nat → BitVec 8

def sizeofLong : Nat := 4

/-- The address `i` bytes above a pointer. -/
def addr (p : Word) (i : Nat) : Nat := (p.toNat + i) % 2 ^ 32

/-- `d[i] = s[i]` for pointers to `char`. -/
def copyChar (d s : Word) (i : Nat) (mem : Memory) : Memory :=
  Function.update mem (addr d i) (mem (addr s i))

/-- `d[i] = s[i]` for pointers to `long`. -/
def copyLong (d s : Word) (i : Nat) (mem : Memory) : Memory :=
  BigEndian.write sizeofLong mem (addr d (sizeofLong * i))
    (BigEndian.read sizeofLong mem (addr s (sizeofLong * i)))

/-- The test for a copy by words. -/
def byWords (dst src len : Word) : Bool :=
  dst.toNat % sizeofLong = 0 && src.toNat % sizeofLong = 0 && len.toNat % sizeofLong = 0

def memcpy (dst src len : Word) (mem : Memory) : Word × Memory :=
  if byWords dst src len then (dst, Loop.upTo (copyLong dst src) (len.toNat / sizeofLong) mem)
  else (dst, Loop.upTo (copyChar dst src) len.toNat mem)

def memmove (dst src len : Word) (mem : Memory) : Word × Memory :=
  if dst.toNat < src.toNat then memcpy dst src len mem
  else if byWords dst src len then
    (dst, Loop.downFrom (copyLong dst src) (len.toNat / sizeofLong) mem)
  else (dst, Loop.downFrom (copyChar dst src) len.toNat mem)

variable {mem : Memory} {dst src len p : Word} {i n : Nat}

theorem addr_eq (h : p.toNat + i < 2 ^ 32) : addr p i = p.toNat + i := Nat.mod_eq_of_lt h

/-- A number that is read and written elsewhere takes its bytes along. -/
theorem write_read {d s : Nat} :
    BigEndian.write n mem d (BigEndian.read n mem s) = blit mem d mem s n := by
  induction n with
  | zero => simp [BigEndian.write]
  | succ n ih =>
    have hlow : BigEndian.read (n + 1) mem s / 256 = BigEndian.read n mem s := by
      rw [BigEndian.read]
      omega
    have hbyte : BitVec.ofNat 8 (BigEndian.read (n + 1) mem s) = mem (s + n) := by
      refine BitVec.eq_of_toNat_eq ?_
      rw [BitVec.toNat_ofNat, BigEndian.read]
      omega
    rw [BigEndian.write, hlow, hbyte, ih, ← blit_append]
    funext j
    by_cases hj : j = d + n
    · simp [hj, blit]
    · rw [Function.update_of_ne hj, blit_outside (d := d + n) (by omega)]

variable (hdst : dst.toNat + len.toNat ≤ 2 ^ 32) (hsrc : src.toNat + len.toNat ≤ 2 ^ 32)
include hdst hsrc

theorem copyChar_eq (hi : i < len.toNat) (mem : Memory) :
    copyChar dst src i mem = blit mem (dst.toNat + 1 * i) mem (src.toNat + 1 * i) 1 := by
  rw [copyChar, addr_eq (by omega), addr_eq (by omega), Nat.one_mul]
  funext a
  by_cases ha : a = dst.toNat + i
  · simp [ha, blit]
  · rw [Function.update_of_ne ha, blit_outside (by omega)]

theorem copyLong_eq (hi : i < len.toNat / sizeofLong) (mem : Memory) :
    copyLong dst src i mem =
      blit mem (dst.toNat + sizeofLong * i) mem (src.toNat + sizeofLong * i) sizeofLong := by
  unfold sizeofLong at *
  rw [copyLong, addr_eq (by unfold sizeofLong; omega), addr_eq (by unfold sizeofLong; omega),
    write_read]
  rfl

/-- All four loops leave the bytes of the source at the destination, and nothing else changed. -/
theorem memmove_eq : memmove dst src len mem =
    (dst, blit mem dst.toNat mem src.toNat len.toNat) := by
  have hchar := fun i (hi : i < len.toNat) => copyChar_eq hdst hsrc hi
  have hlong := fun i (hi : i < len.toNat / sizeofLong) => copyLong_eq hdst hsrc hi
  have hlen : byWords dst src len = true → sizeofLong * (len.toNat / sizeofLong) = len.toNat := by
    intro h
    simp only [byWords, Bool.and_eq_true, decide_eq_true_eq] at h
    exact Nat.mul_div_cancel' (Nat.dvd_of_mod_eq_zero h.2)
  unfold memmove memcpy
  by_cases hlt : dst.toNat < src.toNat
  · rw [if_pos hlt, upTo_blit hlong hlt.le, upTo_blit hchar hlt.le, Nat.one_mul]
    by_cases hw : byWords dst src len = true
    · rw [if_pos hw, hlen hw]
    · rw [if_neg hw]
  · have hle : src.toNat ≤ dst.toNat := not_lt.mp hlt
    rw [if_neg hlt, downFrom_blit hlong hle, downFrom_blit hchar hle, Nat.one_mul]
    by_cases hw : byWords dst src len = true
    · rw [if_pos hw, hlen hw]
    · rw [if_neg hw]

/-- However the ranges overlap, `memmove` leaves at the destination what the source was, and every
byte elsewhere as it was. -/
theorem memmove_exact (mem : Memory) :
    (memmove dst src len mem).1 = dst ∧
      (∀ i < len.toNat,
        (memmove dst src len mem).2 (dst.toNat + i) = mem (src.toNat + i)) ∧
      ∀ a, a < dst.toNat ∨ dst.toNat + len.toNat ≤ a → (memmove dst src len mem).2 a = mem a := by
  rw [memmove_eq hdst hsrc]
  refine ⟨rfl, fun i hi => ?_, fun a ha => blit_outside ha⟩
  dsimp only
  rw [blit_inside (Nat.le_add_right _ _) (by omega), Nat.add_sub_cancel_left]

omit hdst hsrc

/-- Two words moved up by one word. -/
theorem memmove_exact_words :
    (memmove 4#32 0#32 8#32 fun a => BitVec.ofNat 8 a).2 8 = 4#8 ∧
      (memmove 4#32 0#32 8#32 fun a => BitVec.ofNat 8 a).2 12 = 12#8 := by
  obtain ⟨-, hcopied, hrest⟩ :=
    memmove_exact (show (4#32).toNat + (8#32).toNat ≤ 2 ^ 32 by decide)
      (show (0#32).toNat + (8#32).toNat ≤ 2 ^ 32 by decide) fun a => BitVec.ofNat 8 a
  exact ⟨hcopied 4 (by decide), hrest 12 (by decide)⟩

end OS161.Memmove
