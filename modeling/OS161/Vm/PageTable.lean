import OS161.Lib.Loop
import OS161.Vm.Coremap

/-! The two-level page tables of `page_table.c`, kept as words of physical memory. -/
namespace OS161

open Function (update)

/-- Physical memory behind the coremap, as 1024 words to a frame. -/
structure Machine where
  coremap : Coremap
  mem : Nat → Nat → Word

inductive FaultType where
  | read | write | readonly
  deriving DecidableEq, Repr

/-- What `pt_lookup` reports. `SWAPPED` is never returned. -/
inductive Lookup where
  | pteFound | writePermitted | writeNotPermitted | noSecondLevelPt | invalid
  deriving DecidableEq, Repr

namespace Machine
variable (m : Machine)

/-- The frame behind a kernel page pointer. -/
def frameOf (va : Vaddr) : Nat := m.coremap.frameIndex (kvaddrToPaddr va)

def word (va : Vaddr) (i : Nat) : Word := m.mem (m.frameOf va) i

/-- The contents of the page behind a kernel pointer. -/
def page (va : Vaddr) : Nat → Word := m.mem (m.frameOf va)

def setWord (va : Vaddr) (i : Nat) (w : Word) : Machine :=
  { m with
    mem := update m.mem (m.frameOf va)
      (update (m.mem (m.frameOf va)) i w) }

/-- `memmove` or `bzero` of a whole page. -/
def setPage (va : Vaddr) (page : Nat → Word) : Machine :=
  { m with mem := update m.mem (m.frameOf va) page }

/-- `kmalloc(PAGE_SIZE)`, which is `alloc_kpages(1)`. -/
def kmallocPage : Option Vaddr × Machine :=
  match m.coremap.allocateFrame 1 with
  | (some pa, c) => (some (paddrToKvaddr pa), { m with coremap := c })
  | (none, c) => (none, { m with coremap := c })

/-- `kfree` of such a page. -/
def kfreePage (va : Vaddr) : Machine := { m with coremap := m.coremap.freeFrame va }

def increfcount (pa : Paddr) : Machine := { m with coremap := m.coremap.increfcount pa }

def decrefcount (pa : Paddr) : Machine := { m with coremap := m.coremap.decrefcount pa }

def zeroPage : Nat → Word := fun _ => 0#32

/-- `kmalloc(PAGE_SIZE)` with the `bzero` that follows the test of its result. -/
def kmallocZeroed : Option Vaddr × Machine :=
  match m.kmallocPage with
  | (some addr, m) => (some addr, m.setPage addr zeroPage)
  | (none, m) => (none, m)

def ptCreate : Option Vaddr × Machine := m.kmallocZeroed

/-- One turn of the loop of `pt_copy`. The new second-level table is cleared before its
pointer is tested, so running out of memory here ends in a store through NULL. -/
def ptCopyEntry (oldPt newPt : Vaddr) (i : Nat) (m : Machine) : Option Machine :=
  if m.word oldPt i = 0#32 then some m
  else
    let oldSecond := paddrToKvaddr (m.word oldPt i)
    match m.kmallocPage with
    | (none, _) => none
    | (some second, m) =>
      let m := m.setPage second zeroPage
      let m := m.setWord newPt i (kvaddrToPaddr second)
      some (m.setPage second (m.page oldSecond))

/-- `pt_copy`; `ok (none, _)` is the ENOMEM return for the first-level table. -/
def ptCopy (oldPt : Vaddr) : Except Crash (Option Vaddr × Machine) :=
  match m.kmallocPage with
  | (none, m) => .ok (none, m)
  | (some newPt, m) =>
    match Loop.tryUpTo (ptCopyEntry oldPt newPt) 1024 (m.setPage newPt zeroPage) with
    | some m => .ok (some newPt, m)
    | none => .error .nullDeref

def ptLookup (pt va : Vaddr) (faulttype : FaultType) : Lookup × Word :=
  if m.word pt (index1 va) = 0#32 then (.noSecondLevelPt, 0#32)
  else
    let e := m.word (paddrToKvaddr (m.word pt (index1 va))) (index2 va)
    if isValid e then
      match faulttype with
      | .readonly =>
        (if isDirty e then .writePermitted else .writeNotPermitted, e &&& ~~~pteReadonly)
      | _ => (.pteFound, if isReadonly e then e &&& ~~~tlbloDirty else e)
    else (.invalid, 0#32)

def updateFirstPtEntry (pt va secondPt : Vaddr) : Machine :=
  m.setWord pt (index1 va) (kvaddrToPaddr secondPt)

/-- The entry `update_second_pt_entry` builds from a frame and the segment flags. -/
def newEntry (frame : Vaddr) (flags : Word) : Word :=
  let e := kvaddrToPaddr frame ||| tlbloValid
  if flags &&& pfW != 0 then e ||| tlbloDirty else e

/-- Also hands back the entry, as `*entrylo`. -/
def updateSecondPtEntry (pt va frame : Vaddr) (flags : Word) : Word × Machine :=
  let second := paddrToKvaddr (m.word pt (index1 va))
  (newEntry frame flags, m.setWord second (index2 va) (newEntry frame flags))

/-- The body of the inner loop of `make_readonly`. The `else` of the empty
`if (!coremap_update);` swallows the assignment that sets the bit, so nothing is marked
when `coremap_update` is 0. -/
def makeReadonlyEntry (second : Vaddr) (coremapUpdate : Bool) (j : Nat) (m : Machine) : Machine :=
  if isValid (m.word second j) then
    let m := if !coremapUpdate then m else m.setWord second j (m.word second j ||| pteReadonly)
    if coremapUpdate then m.increfcount (ppage (m.word second j)) else m
  else m

def makeReadonly (pt : Vaddr) (coremapUpdate : Bool) : Machine :=
  Loop.upTo (fun i m =>
    if m.word pt i ≠ 0#32 then
      Loop.upTo (makeReadonlyEntry (paddrToKvaddr (m.word pt i)) coremapUpdate) 1024 m
    else m) 1024 m

/-- `pt_copy_on_write`; on success the new entry is `*entrylo`. -/
def ptCopyOnWrite (pt va : Vaddr) : Except Errno Word × Machine :=
  let second := paddrToKvaddr (m.word pt (index1 va))
  let e := m.word second (index2 va)
  if m.coremap.isShared (ppage e) then
    let m := m.decrefcount (ppage e)
    match m.kmallocPage with
    | (none, m) => (.error .enomem, m)
    | (some newframe, m) =>
      let m := m.setPage newframe (m.page (paddrToKvaddr (ppage e)))
      let e' := kvaddrToPaddr newframe ||| tlbloDirty ||| tlbloValid
      (.ok e', m.setWord second (index2 va) e')
  else
    let e' := e &&& ~~~pteReadonly
    (.ok e', m.setWord second (index2 va) e')

/-- The body of the inner loop of `pt_deep_destroy`. -/
def releaseEntry (second : Vaddr) (j : Nat) (m : Machine) : Machine :=
  let e := m.word second j
  if isValid e then
    if m.coremap.isShared (ppage e) then m.decrefcount (ppage e)
    else m.kfreePage (paddrToKvaddr (ppage e))
  else m

def ptDeepDestroy (pt : Vaddr) : Machine :=
  let m := Loop.upTo (fun i m =>
    if m.word pt i ≠ 0#32 then
      let second := paddrToKvaddr (m.word pt i)
      (Loop.upTo (releaseEntry second) 1024 m).kfreePage second
    else m) 1024 m
  m.kfreePage pt

/-- `kfree` of a page, where a page that is not allocated stops the run. -/
def kfreeChecked (va : Vaddr) : Option Machine :=
  if (m.coremap.entries (m.frameOf va)).status = .unallocated then none else some (m.kfreePage va)

def releaseChecked (second : Vaddr) (j : Nat) (m : Machine) : Option Machine :=
  let e := m.word second j
  if isValid e then
    if m.coremap.isShared (ppage e) then some (m.decrefcount (ppage e))
    else m.kfreeChecked (paddrToKvaddr (ppage e))
  else some m

/-- `pt_deep_destroy` with every `kfree` checked: the specification of "freed once". -/
def ptDeepDestroyChecked (pt : Vaddr) : Option Machine :=
  (Loop.tryUpTo (fun i m =>
    if m.word pt i ≠ 0#32 then
      let second := paddrToKvaddr (m.word pt i)
      (Loop.tryUpTo (releaseChecked second) 1024 m).bind fun m => m.kfreeChecked second
    else some m) 1024 m).bind fun m => m.kfreeChecked pt

/-- The entry a table holds for a pair of indices; 0 where there is no second-level table,
and everywhere in an address space whose `page_table` is still NULL. -/
def entry (pt : Vaddr) (i j : Nat) : Word :=
  if pt = 0#32 ∨ m.word pt i = 0#32 then 0#32
  else m.word (paddrToKvaddr (m.word pt i)) j

section
variable {m : Machine} (va v : Vaddr) (i : Nat) (w : Word) (pg : Nat → Word)

@[simp] theorem setPage_coremap : (m.setPage va pg).coremap = m.coremap := rfl

@[simp] theorem setWord_coremap : (m.setWord va i w).coremap = m.coremap := rfl

@[simp] theorem frameOf_setPage : (m.setPage va pg).frameOf v = m.frameOf v := rfl

@[simp] theorem frameOf_setWord : (m.setWord va i w).frameOf v = m.frameOf v := rfl

theorem setPage_mem : (m.setPage va pg).mem = update m.mem (m.frameOf va) pg := rfl

theorem setWord_mem : (m.setWord va i w).mem = update m.mem (m.frameOf va)
    (update (m.mem (m.frameOf va)) i w) := rfl

end

end Machine

end OS161
