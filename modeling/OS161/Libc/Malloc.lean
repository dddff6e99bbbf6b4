import OS161.Base
import OS161.Lib.Call

/-! `lib/libc/malloc.c`: 32-bit addresses kept as natural numbers, their wrap written out. -/
namespace OS161.Malloc

open Function (update)

open BitVec (ofNat toNat_ofNat)
open Call (crash require modify get)

def add32 (x y : Nat) : Nat := (x + y) % 2 ^ 32
def sub32 (x y : Nat) : Nat := (x + 2 ^ 32 - y) % 2 ^ 32

/-- The memory by words, at the addresses of their first bytes. -/
abbrev Mem := Nat → Word

def mblocksize : Nat := 8
def mmagic : Nat := 2

def block (w : Word) : Nat := w.toNat / 8
def flag (w : Word) : Bool := w.toNat / 4 % 2 = 1
def magic (w : Word) : Nat := w.toNat % 4

def setBlock (w : Word) (n : Nat) : Word := ofNat 32 (n % 2 ^ 29 * 8 + w.toNat % 8)
def setFlag (w : Word) (f : Bool) : Word :=
  ofNat 32 (w.toNat / 8 * 8 + f.toNat * 4 + w.toNat % 4)
def setMagic (w : Word) (n : Nat) : Word := ofNat 32 (w.toNat / 4 * 4 + n % 4)

section fields
variable (m : Mem) (mh : Nat)

def prevblock : Nat := block (m mh)
def nextblock : Nat := block (m (mh + 4))
def inuse : Bool := flag (m (mh + 4))

def setPrevblock (n : Nat) : Mem := update m mh (setBlock (m mh) n)
def setPad (f : Bool) : Mem := update m mh (setFlag (m mh) f)
def setMagic1 (n : Nat) : Mem := update m mh (setMagic (m mh) n)
def setNextblock (n : Nat) : Mem := update m (mh + 4) (setBlock (m (mh + 4)) n)
def setInuse (f : Bool) : Mem := update m (mh + 4) (setFlag (m (mh + 4)) f)
def setMagic2 (n : Nat) : Mem := update m (mh + 4) (setMagic (m (mh + 4)) n)

/-- `M_NEXTOFF`. -/
def nextoff : Nat := nextblock m mh * mblocksize

/-- `M_PREVOFF`. -/
def prevoff : Nat := prevblock m mh * mblocksize

def mNext : Nat := add32 mh (nextoff m mh)

def mPrev : Nat := sub32 mh (prevoff m mh)

def mSize : Nat := sub32 (nextoff m mh) mblocksize

def mOk : Bool := magic (m mh) = mmagic ∧ magic (m (mh + 4)) = mmagic

end fields

def mData (mh : Nat) : Nat := mh + mblocksize

/-- `M_MKFIELD`. -/
def mkfield (off : Nat) : Nat := off / mblocksize

/-- The ways in which `malloc` and `free` end the program: `errx` with "Heap corrupt", `errx` with
"Internal error", `errx` with "Invalid pointer", `err` after a failed `sbrk` or one that returned
another address; and by never returning. -/
inductive Exit where
  | heapCorrupt | internalError | invalidPointer | sbrkFailed | baseMoved | hang
  deriving DecidableEq, Repr

/-- The static variables, the break and the memory. -/
structure Heap where
  heapbase : Nat
  heaptop : Nat
  brk : Nat
  mem : Mem

/-- The error a call can return is a null pointer. -/
abbrev MCall := Call Exit Heap Unit

def store (f : Mem → Mem) : MCall Unit := modify fun h => { h with mem := f h.mem }

/-- The kernel grants the amount, a signed number, and the break stays an address; -1 is none. -/
def Granted (grant : Nat → Bool) (brk amount : Nat) : Prop :=
  grant amount = true ∧
    (amount < 2 ^ 31 ∧ brk + amount < 2 ^ 32 - 1 ∨ 2 ^ 31 ≤ amount ∧ 2 ^ 32 ≤ brk + amount)

instance (grant : Nat → Bool) (brk amount : Nat) : Decidable (Granted grant brk amount) :=
  inferInstanceAs (Decidable (_ ∧ _))

/-- The break after that: an amount of 2^31 or more stands for one less than 0. -/
def moved (brk amount : Nat) : Nat :=
  if amount < 2 ^ 31 then brk + amount else brk + amount - 2 ^ 32

def sbrk (grant : Nat → Bool) (amount : Nat) : MCall Nat := do
  let h ← get
  Call.failIf () ¬ Granted grant h.brk amount
  modify fun h => { h with brk := moved h.brk amount }
  pure h.brk

/-- A call of `sbrk` that the program does not survive if it fails. -/
def sbrkOrExit (grant : Nat → Bool) (amount : Nat) : MCall Nat := do
  match ← Call.attempt (sbrk grant amount) with
  | .error _ => crash .sbrkFailed
  | .ok x => pure x

def alignBase (grant : Nat → Bool) (base : Nat) : MCall Unit :=
  if base % mblocksize ≠ 0 then do
    let adjust := mblocksize - base % mblocksize
    let x ← sbrkOrExit grant adjust
    require .baseMoved (x = base)
    modify fun h => { h with heapbase := base + adjust, heaptop := base + adjust }
  else pure ()

def mallocInit (grant : Nat → Bool) : MCall Unit := do
  let h ← get
  require .internalError (h.heapbase = 0 ∧ h.heaptop = 0)
  let x ← sbrkOrExit grant 0
  require .internalError (x ≠ 0)
  modify fun h => { h with heapbase := x, heaptop := x }
  alignBase grant x

/-- The first lines of `malloc`. -/
def initOnce (grant : Nat → Bool) : MCall Unit := do
  let h ← get
  if h.heapbase = 0 then mallocInit grant else pure ()

def mallocSbrk (grant : Nat → Bool) (size : Nat) : MCall Nat := do
  let x ← sbrk grant size
  let h ← get
  require .internalError (x = h.heaptop)
  modify fun h => { h with heaptop := add32 h.heaptop size }
  pure x

/-- The header of the new free block. -/
def newHeader (mhnew prev next : Nat) (m : Mem) : Mem :=
  let m := setPrevblock m mhnew prev
  let m := setPad m mhnew false
  let m := setMagic1 m mhnew mmagic
  let m := setNextblock m mhnew next
  let m := setInuse m mhnew false
  setMagic2 m mhnew mmagic

/-- `if (mh != heaptop) mh->mh_prevblock = n`. -/
def relink (mh n : Nat) : MCall Unit := do
  let h ← get
  if mh ≠ h.heaptop then store fun m => setPrevblock m mh n else pure ()

def mallocSplit (mh size : Nat) : MCall Unit := do
  let h ← get
  require .internalError (size % mblocksize = 0)
  if sub32 (mSize h.mem mh) size < 2 * mblocksize then pure ()
  else do
    let mhnext := mNext h.mem mh
    let oldsize := mSize h.mem mh
    store fun m => setNextblock m mh (mkfield (size + mblocksize))
    let h ← get
    let mhnew := mNext h.mem mh
    require .internalError (mhnew ≠ mhnext)
    store (newHeader mhnew (mkfield (size + mblocksize)) (mkfield (oldsize - size)))
    let h ← get
    relink mhnext (nextblock h.mem mhnew)

/-- The first-fit loop from `i` on: the header found, if any, and the last `rightprevblock`. A block
of length zero would keep it going for ever. -/
def search (size : Nat) : Nat → Nat → Nat → MCall (Option Nat × Nat)
  | 0, _, _ => crash .hang
  | fuel + 1, i, rightprevblock => do
    let h ← get
    if i < h.heaptop then do
      require .heapCorrupt (mOk h.mem i)
      require .heapCorrupt (prevblock h.mem i = rightprevblock)
      if inuse h.mem i ∨ mSize h.mem i < size then
        search size fuel (add32 i (nextoff h.mem i)) (nextblock h.mem i)
      else pure (some i, nextblock h.mem i)
    else do
      require .heapCorrupt (i = h.heaptop)
      pure (none, rightprevblock)

/-- `(size + MBLOCKSIZE - 1) & ~(size_t)(MBLOCKSIZE-1)`. -/
def roundSize (size : Nat) : Nat := add32 size (mblocksize - 1) / mblocksize * mblocksize

/-- The header of the block at the new top. -/
def topHeader (mh prev next : Nat) (m : Mem) : Mem :=
  let m := setPrevblock m mh prev
  let m := setMagic1 m mh mmagic
  let m := setMagic2 m mh mmagic
  let m := setPad m mh false
  let m := setInuse m mh true
  setNextblock m mh next

/-- `malloc` after the heap has been set up. -/
def allocate (grant : Nat → Bool) (size : Nat) : MCall Nat := do
  let h ← get
  require .internalError (h.heapbase ≠ 0 ∧ h.heaptop ≠ 0 ∧ h.heapbase ≤ h.heaptop)
  let size := roundSize size
  match ← search size (h.heaptop + 1) h.heapbase 0 with
  | (some mh, _) => do
    mallocSplit mh size
    store fun m => setInuse m mh true
    pure (mData mh)
  | (none, rightprevblock) => do
    let mh ← mallocSbrk grant (add32 size mblocksize)
    store (topHeader mh rightprevblock (mkfield (size + mblocksize)))
    pure (mData mh)

def malloc (grant : Nat → Bool) (size : Nat) : MCall Nat := do
  initOnce grant
  allocate grant size

/-- `__malloc_deadbeef`. -/
def deadbeef (ptr size : Nat) (m : Mem) : Mem := fun a =>
  if ptr ≤ a ∧ a < ptr + size / 4 * 4 ∧ a % 4 = ptr % 4 then 0xdeadbeef#32 else m a

def trymerge (mh mhnext : Nat) : MCall Unit := do
  let h ← get
  require .heapCorrupt (nextblock h.mem mh = prevblock h.mem mhnext)
  if inuse h.mem mh ∨ inuse h.mem mhnext then pure ()
  else do
    let mhnextnext := mNext h.mem mhnext
    let length := add32 (mblocksize + mSize h.mem mh) (mblocksize + mSize h.mem mhnext)
    store fun m => setNextblock m mh (mkfield length)
    let h ← get
    relink mhnextnext (nextblock h.mem mh)
    store (deadbeef mhnext mblocksize)

def mergeAbove (mh : Nat) : MCall Unit := do
  let h ← get
  let mhnext := mNext h.mem mh
  if mhnext ≠ h.heaptop then trymerge mh mhnext else pure ()

def mergeBelow (mh : Nat) : MCall Unit := do
  let h ← get
  if mh ≠ h.heapbase then trymerge (mPrev h.mem mh) mh else pure ()

def free (x : Nat) : MCall Unit :=
  if x = 0 then pure ()
  else do
    let h ← get
    require .internalError (h.heapbase ≠ 0 ∧ h.heaptop ≠ 0 ∧ h.heapbase ≤ h.heaptop)
    require .invalidPointer (h.heapbase ≤ x ∧ x < h.heaptop)
    let mh := x - mblocksize
    require .invalidPointer (mOk h.mem mh)
    require .invalidPointer (inuse h.mem mh)
    store fun m => setInuse m mh false
    store fun m => deadbeef (mData mh) (mSize m mh) m
    mergeAbove mh
    mergeBelow mh

section readback
variable (w : Word) (n : Nat) (f : Bool)

@[simp] theorem block_setBlock : block (setBlock w n) = n % 2 ^ 29 := by
  simp only [block, setBlock, toNat_ofNat]
  omega

@[simp] theorem flag_setBlock : flag (setBlock w n) = flag w := by
  simp only [flag, setBlock, toNat_ofNat]
  congr 2
  omega

@[simp] theorem magic_setBlock : magic (setBlock w n) = magic w := by
  simp only [magic, setBlock, toNat_ofNat]
  omega

@[simp] theorem block_setFlag : block (setFlag w f) = block w := by
  have hf := f.toNat_le
  simp only [block, setFlag, toNat_ofNat]
  omega

@[simp] theorem flag_setFlag : flag (setFlag w f) = f := by
  cases f
  · simp only [flag, setFlag, toNat_ofNat, Bool.toNat_false]
    simp
    omega
  · simp only [flag, setFlag, toNat_ofNat, Bool.toNat_true]
    simp
    omega

@[simp] theorem magic_setFlag : magic (setFlag w f) = magic w := by
  simp only [magic, setFlag, toNat_ofNat]
  omega

@[simp] theorem block_setMagic : block (setMagic w n) = block w := by
  simp only [block, setMagic, toNat_ofNat]
  omega

@[simp] theorem flag_setMagic : flag (setMagic w n) = flag w := by
  simp only [flag, setMagic, toNat_ofNat]
  congr 2
  omega

@[simp] theorem magic_setMagic : magic (setMagic w n) = n % 4 := by
  simp only [magic, setMagic, toNat_ofNat]
  omega

theorem block_lt : block w < 2 ^ 29 := by
  unfold block
  omega

end readback

end OS161.Malloc
