import OS161.Base

/-! Address spaces: regions, heap, stack and the arguments waiting for the first stack page. -/
namespace OS161

/-- `struct region`: one PT_LOAD segment. -/
structure Region where
  pVaddr : Vaddr
  pOffset : Word
  pFilesz : Word
  pMemsz : Word
  pFlags : Word
  deriving DecidableEq

/-- `struct addrspace`; `as_segnum` is the length of the region table. -/
structure AddrSpace where
  asRegion : List Region
  asStackvbase : Vaddr
  asHeapbase : Vaddr
  asHeapvtop : Vaddr
  breakaddr : Vaddr
  pageTable : Vaddr
  v : Word
  deriving DecidableEq

/-- The first page boundary at or after the end of a segment, in 32-bit arithmetic. -/
def Region.heapStart (r : Region) : Vaddr :=
  let heapbase := r.pVaddr + r.pMemsz
  if heapbase &&& ~~~pageFrame ≠ 0#32 then (heapbase &&& pageFrame) + pageSizeW
  else heapbase

/-- The regions `vm_fault` tests for, in its order. -/
inductive Mapping where
  | code | data | heap | stack
  deriving DecidableEq

namespace AddrSpace
variable (as : AddrSpace)

/-- The assertions at the head of `vm_fault`. -/
def checkSetup : Except Crash Unit :=
  if as.asRegion.all fun r => r.pVaddr != 0#32 && r.pVaddr &&& pageFrame == r.pVaddr then
    if as.asStackvbase ≠ 0#32 ∧ as.asHeapvtop ≠ 0#32 then .ok () else .error .assertion
  else .error .assertion

/-- The four interval tests of `vm_fault`, which index the region table at 0 and 1. -/
def mappedRegion (va : Vaddr) : Except Crash (Option Mapping) :=
  match as.asRegion with
  | r₀ :: r₁ :: _ =>
    .ok <|
      if r₀.pVaddr ≤ va ∧ va < r₀.pVaddr + r₀.pMemsz then some .code
      else if r₁.pVaddr ≤ va ∧ va < r₁.pVaddr + r₁.pMemsz then some .data
      else if as.asHeapbase ≤ va ∧ va < as.asHeapvtop then some .heap
      else if as.asStackvbase - pageSizeW ≤ va ∧ va < userstack then some .stack
      else none
  | _ => .error .outOfBounds

theorem exists_two {l : List Region} (h : 2 ≤ l.length) : ∃ r₀ r₁ rest, l = r₀ :: r₁ :: rest := by
  obtain ⟨r₀, l₁, rfl⟩ := List.exists_cons_of_length_pos (by omega : 0 < l.length)
  rw [List.length_cons] at h
  obtain ⟨r₁, rest, rfl⟩ := List.exists_cons_of_length_pos (by omega : 0 < l₁.length)
  exact ⟨r₀, r₁, rest, rfl⟩

/-- `as_create`; the heap's start, the break and the vnode are whatever `kmalloc` found. -/
def asCreate (found : AddrSpace) : AddrSpace :=
  { found with asRegion := [], asStackvbase := 0#32, asHeapvtop := 0#32, pageTable := 0#32 }

/-- `as_define_heap`, which indexes the region table at 1; `past` is what lies there if the table is
shorter. -/
def asDefineHeap (past : Region) : AddrSpace :=
  let heapptr := (as.asRegion.getD 1 past).heapStart
  { as with asHeapbase := heapptr, breakaddr := heapptr }

/-- The heap as `runprogram` sets it up. -/
def setupHeap (past : Region) : AddrSpace :=
  let as := as.asDefineHeap past
  { as with asHeapvtop := as.asHeapbase + pageSizeW }

end AddrSpace

/-- How many bytes of a page come from the file: `len` of `as_load_page`. -/
def Region.readLen (r : Region) (va : Vaddr) : Word :=
  let fa := pageOf va
  let endaddr := r.pVaddr + r.pFilesz
  if fa + pageSizeW ≤ endaddr then pageSizeW
  else if endaddr > fa then endaddr - fa
  else 0#32

/-- The file offset of the page: `offset` of `as_load_page`. -/
def Region.readOffset (r : Region) (va : Vaddr) : Word := r.pOffset + (pageOf va - r.pVaddr)

/-- A page of bytes as big-endian words. -/
def packPage (b : Nat → Byte) (k : Nat) : Word :=
  b (4 * k) ++ b (4 * k + 1) ++ b (4 * k + 2) ++ b (4 * k + 3)

def wordBytes (w : Word) : List Byte :=
  [w.extractLsb' 24 8, w.extractLsb' 16 8, w.extractLsb' 8 8, w.extractLsb' 0 8]

/-- Where each string of the block starts. -/
def argOffsets : List (List Byte) → Nat → List Nat
  | [], _ => []
  | s :: ss, n => n :: argOffsets ss (n + s.length + 1)

/-- The block `vm_fault` lays out at the top of the first stack page: the strings with their
NULs, then the pointers to them and a last 0. -/
def argBlock (args : List (List Byte)) (page : Vaddr) : List Byte :=
  let strings := args.flatMap (· ++ [0#8])
  let start := pageSize - (strings.length + 4 * (args.length + 1))
  strings ++ (argOffsets args start).flatMap (fun n => wordBytes (page + BitVec.ofNat 32 n)) ++
    wordBytes 0#32

/-- `curthread->args`. The menu's command line is far shorter than a page and has fewer words
than `pointers` has room for. -/
structure Args where
  strings : List (List Byte)
  argc_lt : strings.length < 16
  fits : (strings.flatMap (· ++ [0#8])).length + 4 * (strings.length + 1) ≤ pageSize

def Args.page (a : Args) (page : Vaddr) : Nat → Word :=
  let block := argBlock a.strings page
  packPage fun n => if n < pageSize - block.length then 0#8 else
    block.getD (n - (pageSize - block.length)) 0#8

end OS161
