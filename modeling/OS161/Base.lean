import Mathlib.Algebra.Ring.Int.Defs
import Mathlib.Algebra.Ring.Nat
import OS161.Lib.Bits

/-! Error codes, addresses, page-table entries and masks of `vm.h`, `tlb.h`, `page_table.h`. -/
namespace OS161

/-- The codes of `kern/errno.h` that the modelled calls return. -/
inductive Errno where
  | einval | efault | enomem | eagain | enoexec | enametoolong | enoent | eio
  | enotdir | eisdir | eexist | exdev | enxio | enodev | ebusy | enospc
  deriving DecidableEq, Repr

/-- The ways in which kernel code ends without returning to its caller. -/
inductive Crash where
  | assertion | panic | outOfBounds | nullDeref | useAfterFree | badPointer | hang
  deriving DecidableEq, Repr

theorem bind_eq_ok {ε α β : Type} {x : Except ε α} {g : α → Except ε β} {b : β} :
    (x >>= g) = .ok b ↔ ∃ a, x = .ok a ∧ g a = .ok b := by
  cases x with
  | error | ok => simp [bind, Except.bind]

abbrev Byte := BitVec 8
abbrev Word := BitVec 32
abbrev Vaddr := BitVec 32
abbrev Paddr := BitVec 32

/-- `int`. -/
def int32 (n : Int) : Int := n.bmod (2 ^ 32)

theorem int32_eq {n : Int} (hlo : -2 ^ 31 ≤ n) (hhi : n < 2 ^ 31) : int32 n = n :=
  Int.bmod_eq_of_le (by omega) (by omega)

theorem int32_lt (n : Int) : int32 n < 2 ^ 31 := by
  have := Int.bmod_lt (x := n) (m := 2 ^ 32) (by decide)
  unfold int32
  omega

theorem int32_natCast_iff (n : Nat) : int32 n = n ↔ n < 2 ^ 31 := by
  refine ⟨fun heq => ?_, fun hlt => int32_eq (by omega) (by omega)⟩
  have := int32_lt n
  omega

theorem int32_add (m n : Int) : int32 (int32 m + n) = int32 (m + n) := Int.bmod_add_bmod

def pageSize : Nat := 4096
def pageSizeW : Word := BitVec.ofNat 32 pageSize
theorem toNat_pageSizeW : pageSizeW.toNat = 4096 := rfl

def pageFrame : Word := 0xfffff000#32
def mipsKseg0 : Word := 0x80000000#32
def userstack : Word := mipsKseg0

theorem toNat_userstack : userstack.toNat = 2147483648 := rfl
def secondIndex : Word := 0x3ff#32

def tlbloPpage : Word := 0xfffff000#32
def tlbloDirty : Word := 0x400#32
def tlbloValid : Word := 0x200#32
def pteReadonly : Word := 0x1#32
def pfW : Word := 0x2#32

def paddrToKvaddr (pa : Paddr) : Vaddr := pa + mipsKseg0
def kvaddrToPaddr (va : Vaddr) : Paddr := va - mipsKseg0

@[simp] theorem kvaddrToPaddr_paddrToKvaddr (pa : Paddr) :
    kvaddrToPaddr (paddrToKvaddr pa) = pa := by
  unfold kvaddrToPaddr paddrToKvaddr
  bv_omega

theorem toNat_paddrToKvaddr {pa : Paddr} (h : pa.toNat < 2147483648) :
    (paddrToKvaddr pa).toNat = pa.toNat + 2147483648 := by
  rw [paddrToKvaddr, BitVec.toNat_add, show mipsKseg0.toNat = 2147483648 from rfl]
  omega

def index1 (va : Vaddr) : Nat := (va >>> 22).toNat
def index2 (va : Vaddr) : Nat := ((va >>> 12) &&& secondIndex).toNat
def pageOf (va : Vaddr) : Vaddr := va &&& pageFrame

section
variable (va : Vaddr)
include va

theorem index1_eq : index1 va = va.toNat / 4194304 := by
  simp [index1, Nat.shiftRight_eq_div_pow]

theorem index2_eq : index2 va = va.toNat / 4096 % 1024 := by
  simp only [index2, secondIndex, BitVec.toNat_and, BitVec.toNat_ushiftRight,
    Nat.shiftRight_eq_div_pow]
  exact Nat.and_two_pow_sub_one_eq_mod _ 10

theorem index1_lt : index1 va < 1024 := by
  rw [index1_eq]
  omega

theorem index2_lt : index2 va < 1024 := by
  rw [index2_eq]
  omega

omit va in
theorem pageFrame_getElem : ∀ i : Fin 32, pageFrame[i] = decide (12 ≤ i.val) := by decide

omit va in
theorem and_pageFrame (x : Word) : x &&& pageFrame = (x >>> 12) <<< 12 := by
  ext i hi
  have hm := pageFrame_getElem ⟨i, hi⟩
  simp only [Fin.getElem_fin] at hm
  by_cases h : i < 12
  · simp [hm, h]
  have he : 12 + (i - 12) = i := by omega
  simp [hm, h, he, hi]
  omega

theorem toNat_pageOf : (pageOf va).toNat = va.toNat / 4096 * 4096 := by
  rw [pageOf, and_pageFrame]
  simp only [BitVec.toNat_shiftLeft, BitVec.toNat_ushiftRight, Nat.shiftRight_eq_div_pow,
    Nat.shiftLeft_eq]
  omega

@[simp] theorem pageOf_pageOf : pageOf (pageOf va) = pageOf va := by
  apply BitVec.eq_of_toNat_eq
  simp only [toNat_pageOf]
  omega

@[simp] theorem index1_pageOf : index1 (pageOf va) = index1 va := by
  simp only [index1_eq, toNat_pageOf]
  omega

@[simp] theorem index2_pageOf : index2 (pageOf va) = index2 va := by
  simp only [index2_eq, toNat_pageOf]
  omega

end

/-- The pair of indices names the page. -/
theorem pageOf_eq_iff {a b : Vaddr} :
    pageOf a = pageOf b ↔ index1 a = index1 b ∧ index2 a = index2 b := by
  constructor
  · intro h
    rw [← index1_pageOf a, ← index2_pageOf a, h, index1_pageOf, index2_pageOf]
    exact ⟨rfl, rfl⟩
  rintro ⟨h1, h2⟩
  apply BitVec.eq_of_toNat_eq
  simp only [index1_eq, index2_eq] at h1 h2
  simp only [toNat_pageOf]
  omega

def isValid (e : Word) : Bool := e &&& tlbloValid != 0
def isDirty (e : Word) : Bool := e &&& tlbloDirty != 0
def isReadonly (e : Word) : Bool := e &&& pteReadonly != 0
def ppage (e : Word) : Paddr := e &&& tlbloPpage

section entry
variable (e : Word)

theorem ppage_eq_pageOf : ppage e = pageOf e := by
  rfl

@[simp] theorem isValid_zero : isValid 0#32 = false := rfl

@[simp] theorem isValid_or_readonly : isValid (e ||| pteReadonly) = isValid e := by
  rw [isValid, Bits.or_and_of_disjoint e (by decide), isValid]

@[simp] theorem ppage_or_readonly : ppage (e ||| pteReadonly) = ppage e :=
  Bits.or_and_of_disjoint e (by decide)

@[simp] theorem isValid_clear_readonly : isValid (e &&& ~~~pteReadonly) = isValid e := by
  rw [isValid, Bits.clear_and_of_disjoint e (by decide), isValid]

@[simp] theorem isDirty_clear_readonly : isDirty (e &&& ~~~pteReadonly) = isDirty e := by
  rw [isDirty, Bits.clear_and_of_disjoint e (by decide), isDirty]

@[simp] theorem ppage_clear_readonly : ppage (e &&& ~~~pteReadonly) = ppage e :=
  Bits.clear_and_of_disjoint e (by decide)

@[simp] theorem isReadonly_clear_readonly : isReadonly (e &&& ~~~pteReadonly) = false := by
  rw [isReadonly, Bits.clear_and_self]
  rfl

@[simp] theorem isValid_clear_dirty : isValid (e &&& ~~~tlbloDirty) = isValid e := by
  rw [isValid, Bits.clear_and_of_disjoint e (by decide), isValid]

@[simp] theorem isDirty_clear_dirty : isDirty (e &&& ~~~tlbloDirty) = false := by
  rw [isDirty, Bits.clear_and_self]
  rfl

@[simp] theorem ppage_clear_dirty : ppage (e &&& ~~~tlbloDirty) = ppage e :=
  Bits.clear_and_of_disjoint e (by decide)

variable {e} {x : Word}

theorem and_eq_zero_of_ppage (h : ppage e = e) (hx : tlbloPpage &&& x = 0#32) : e &&& x = 0#32 := by
  rw [← h, ppage, BitVec.and_assoc, hx, BitVec.and_zero]

theorem isReadonly_of_ppage (h : ppage e = e) : isReadonly e = false := by
  simp [isReadonly, and_eq_zero_of_ppage h (x := pteReadonly) (by decide)]

variable (e)

@[simp] theorem isValid_or_valid : isValid (e ||| tlbloValid) = true := by
  rw [isValid, Bits.or_and_self]
  rfl

@[simp] theorem isDirty_or_valid : isDirty (e ||| tlbloValid) = isDirty e := by
  rw [isDirty, Bits.or_and_of_disjoint e (by decide), isDirty]

@[simp] theorem isReadonly_or_valid : isReadonly (e ||| tlbloValid) = isReadonly e := by
  rw [isReadonly, Bits.or_and_of_disjoint e (by decide), isReadonly]

@[simp] theorem ppage_or_valid : ppage (e ||| tlbloValid) = ppage e :=
  Bits.or_and_of_disjoint e (by decide)

@[simp] theorem isValid_or_dirty : isValid (e ||| tlbloDirty) = isValid e := by
  rw [isValid, Bits.or_and_of_disjoint e (by decide), isValid]

@[simp] theorem isDirty_or_dirty : isDirty (e ||| tlbloDirty) = true := by
  rw [isDirty, Bits.or_and_self]
  rfl

@[simp] theorem isReadonly_or_dirty : isReadonly (e ||| tlbloDirty) = isReadonly e := by
  rw [isReadonly, Bits.or_and_of_disjoint e (by decide), isReadonly]

@[simp] theorem ppage_or_dirty : ppage (e ||| tlbloDirty) = ppage e :=
  Bits.or_and_of_disjoint e (by decide)

end entry

end OS161
