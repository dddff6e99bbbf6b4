import OS161.Base
import OS161.Lib.Buffer
import OS161.Lib.Call

/-! `uio.c`: transfers between a kernel buffer and the buffer a `struct uio` describes. -/
namespace OS161

open Buffer

abbrev Buf := Nat → Byte

inductive UioRw where
  | read | write
  deriving DecidableEq, Repr

/-- `off_t` is a signed 32-bit integer. -/
def offT (n : Int) : Int := n.bmod (2 ^ 32)

def sizeSub (x y : Nat) : Nat := (x + 2 ^ 32 - y) % 2 ^ 32

/-- `struct uio`: where the transfer goes on in the buffer, how much of the buffer is left, the
offset into the object and the amount left. -/
structure Uio where
  base : Nat
  len : Nat
  offset : Int
  resid : Nat
  rw : UioRw

/-- A `struct uio` with the memory its buffer is in. -/
structure Xfer where
  mem : Buf
  uio : Uio

/-- One turn of the loop of `uiomove`: `size` bytes, of which `done` were moved before. -/
def Xfer.move (x : Xfer) (ptr : Buf) (done size : Nat) : Buf × Xfer :=
  let uio := { x.uio with
    base := x.uio.base + size
    len := sizeSub x.uio.len size
    offset := offT (x.uio.offset + size)
    resid := sizeSub x.uio.resid size }
  match x.uio.rw with
  | .read => (ptr, ⟨blit x.mem x.uio.base ptr done size, uio⟩)
  | .write => (blit ptr done x.mem x.uio.base size, ⟨x.mem, uio⟩)

/-- The loop of `uiomove`. Each turn moves at least one byte, so that `n` turns are enough. -/
def uiomoveLoop : Nat → Buf → Nat → Nat → Xfer → Except Crash (Buf × Xfer)
  | 0, ptr, _, _, x => .ok (ptr, x)
  | fuel + 1, ptr, done, n, x =>
    if 0 < n ∧ 0 < x.uio.resid then
      let size := min x.uio.len n
      if size = 0 then .error .panic
      else
        let (ptr, x) := x.move ptr done size
        uiomoveLoop fuel ptr (done + size) (n - size) x
    else .ok (ptr, x)

/-- `uiomove(ptr, n, uio)`: the kernel's buffer and the caller's afterwards. -/
def uiomove (ptr : Buf) (n : Nat) (x : Xfer) : Except Crash (Buf × Xfer) :=
  uiomoveLoop n ptr 0 n x

/-- The static buffer of `uiomovezeros`. -/
def zerosLen : Nat := 16

/-- `uiomovezeros`. Each turn moves at least one byte. -/
def uiomovezerosLoop : Nat → Nat → Xfer → Except Crash Xfer
  | 0, _, x => .ok x
  | fuel + 1, n, x =>
    if 0 < n then
      let amt := min zerosLen n
      match uiomove (fun _ => 0#8) amt x with
      | .error c => .error c
      | .ok (_, x) => uiomovezerosLoop fuel (n - amt) x
    else .ok x

def uiomovezeros (n : Nat) (x : Xfer) : Except Crash Xfer :=
  if x.uio.rw = .read then uiomovezerosLoop n n x else .error .assertion

def mkKuio (len : Nat) (pos : Int) (rw : UioRw) : Uio :=
  { base := 0, len := len, offset := pos, resid := len, rw := rw }

/-- The amount left is in the buffer, and the numbers fit their types. -/
structure Uio.Ok (u : Uio) : Prop where
  resid_le : u.resid ≤ u.len
  len_lt : u.len < 2 ^ 32
  offset_ok : offT u.offset = u.offset

/-- The transfer after `n` more bytes. -/
def Uio.advance (u : Uio) (n : Nat) : Uio :=
  { u with
    base := u.base + n
    len := u.len - n
    offset := offT (u.offset + n)
    resid := u.resid - n }

section spec
variable {ptr : Buf} {n k : Nat} {x : Xfer} {u : Uio} {a : Int}

theorem offT_eq (h : -2 ^ 31 ≤ a) (h' : a < 2 ^ 31) : offT a = a :=
  Int.bmod_eq_of_le (by omega) (by omega)

@[simp] theorem offT_offT : offT (offT a) = offT a := Int.bmod_bmod

theorem Uio.Ok.advance (h : u.Ok) : (u.advance n).Ok := by
  refine ⟨?_, ?_, offT_offT⟩
  · have := h.resid_le
    simp only [Uio.advance]
    omega
  · have := h.len_lt
    simp only [Uio.advance]
    omega

@[simp] theorem advance_zero (h : u.Ok) : u.advance 0 = u := by
  simp [Uio.advance, h.offset_ok]

theorem advance_advance : (u.advance n).advance k = u.advance (n + k) := by
  simp only [Uio.advance, Uio.mk.injEq, and_true]
  refine ⟨by omega, by omega, ?_, by omega⟩
  rw [offT, offT, Int.bmod_add_bmod, Int.add_assoc]
  rfl

/-- What `n` bytes of transfer do to the two buffers. -/
def Xfer.moved (x : Xfer) (ptr : Buf) (n : Nat) : Buf × Xfer :=
  match x.uio.rw with
  | .read => (ptr, ⟨blit x.mem x.uio.base ptr 0 n, x.uio.advance n⟩)
  | .write => (blit ptr 0 x.mem x.uio.base n, ⟨x.mem, x.uio.advance n⟩)

theorem sizeSub_of_le {x y : Nat} (h : y ≤ x) (hx : x < 2 ^ 32) : sizeSub x y = x - y := by
  unfold sizeSub
  omega

/-- A transfer of no more than is left takes one turn. -/
theorem uiomove_eq (h : x.uio.Ok) (hn : n ≤ x.uio.resid) :
    uiomove ptr n x = .ok (x.moved ptr n) := by
  have hle := h.resid_le
  have hlt := h.len_lt
  cases n with
  | zero =>
    rw [Xfer.moved, advance_zero h]
    cases x.uio.rw <;> simp [uiomove, uiomoveLoop]
  | succ n =>
    have hmove : x.move ptr 0 (n + 1) = x.moved ptr (n + 1) := by
      rw [Xfer.move, sizeSub_of_le (by omega) hlt, sizeSub_of_le hn (by omega)]
      rfl
    rw [uiomove, uiomoveLoop, if_pos ⟨by omega, by omega⟩]
    simp only [Nat.min_eq_right (show n + 1 ≤ x.uio.len by omega), Nat.sub_self, Nat.zero_add]
    rw [if_neg (by omega), hmove]
    cases n with
    | zero => rfl
    | succ n => simp [uiomoveLoop]

theorem uiomovezeros_eq (h : x.uio.Ok) (hrw : x.uio.rw = .read) (hn : n ≤ x.uio.resid) :
    uiomovezeros n x = .ok ⟨blit x.mem x.uio.base (fun _ => 0#8) 0 n, x.uio.advance n⟩ := by
  have hloop : ∀ fuel n x, x.uio.Ok → x.uio.rw = .read → n ≤ x.uio.resid → n ≤ fuel →
      uiomovezerosLoop fuel n x =
        .ok ⟨blit x.mem x.uio.base (fun _ => 0#8) 0 n, x.uio.advance n⟩ := by
    intro fuel
    induction fuel with
    | zero =>
      intro n x h hrw hn hfuel
      obtain rfl : n = 0 := by omega
      rw [advance_zero h]
      simp [uiomovezerosLoop]
    | succ fuel ih =>
      intro n x h hrw hn hfuel
      rw [uiomovezerosLoop]
      split
      · rename_i hpos
        have hmin : min zerosLen n ≤ n := Nat.min_le_right ..
        have hmin' : 0 < min zerosLen n := Nat.lt_min.mpr ⟨by decide, hpos⟩
        have hleft : n - min zerosLen n ≤ (x.uio.advance (min zerosLen n)).resid := by
          simp only [Uio.advance]
          omega
        simp only [uiomove_eq h (Nat.le_trans hmin hn), Xfer.moved, hrw]
        rw [ih (n - min zerosLen n) ⟨_, x.uio.advance (min zerosLen n)⟩ h.advance hrw hleft
          (by omega), advance_advance, Nat.add_sub_cancel' hmin]
        -- the source is the same zeros in every turn
        have hblit : blit (blit x.mem x.uio.base (fun _ => 0#8) 0 (min zerosLen n))
            (x.uio.base + min zerosLen n) (fun _ => 0#8) (0 + min zerosLen n) (n - min zerosLen n)
            = _ := blit_append
        rw [Nat.add_sub_cancel' hmin] at hblit
        exact congrArg (fun m => Except.ok (Xfer.mk m (x.uio.advance n))) hblit
      · obtain rfl : n = 0 := by omega
        rw [advance_zero h]
        simp
  rw [uiomovezeros, if_pos hrw]
  exact hloop n n x h hrw hn (Nat.le_refl n)

end spec

end OS161
