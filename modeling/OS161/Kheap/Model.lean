import OS161.Base
import OS161.Lib.Chain
import OS161.Lib.Loop
import OS161.Lib.Run

/-! `kheap.c`. `alloc_kpages` hands out pages of kseg0, so no address in one wraps. -/
namespace OS161.Kheap

open Function (update)

def nsizes : Nat := 8

/-- The table `sizes`. -/
def sizes (blktype : Nat) : Nat := [16, 32, 64, 128, 256, 512, 1024, 2048].getD blktype 0

def largestSubpageSize : Nat := 2048
def npagerefs : Nat := 256
def inuseWords : Nat := npagerefs / 32
def invalidOffset : Nat := 0xffff
def mipsKseg1 : Nat := 0xa0000000

/-- `struct pageref` without its two links, which `Heap` keeps apart. -/
structure Pageref where
  pageaddrAndBlocktype : Nat
  freelistOffset : Nat
  nfree : Nat

def Pageref.pageaddr (p : Pageref) : Nat := p.pageaddrAndBlocktype / pageSize * pageSize
def Pageref.blocktype (p : Pageref) : Nat := p.pageaddrAndBlocktype % pageSize

/-- MKPAB: the page and the block type share a word. -/
def mkpab (pa blk : Nat) : Nat := pa / pageSize * pageSize + blk % pageSize

/-- The allocator's variables, the memory it works in, and the runs of pages that `alloc_kpages` has
handed out to it. `mem a` is the word at address `a`; a pageref is named by its index. -/
structure Heap where
  pagerefs : Nat → Pageref
  nextSamesize : Nat → Option Nat
  nextAll : Nat → Option Nat
  pagerefsInuse : Nat → BitVec 32
  sizebases : Nat → Option Nat
  allbase : Option Nat
  mem : Nat → Nat
  runs : List (Nat × Nat)

/-- `alloc_kpages` and `free_kpages` over a state of their own. -/
structure PageSource (M : Type) where
  alloc : Nat → M → Option Nat × M
  free : Nat → M → M

/-- An `alloc_kpages` that may find any run of free pages or none. -/
def PageSource.any (found : Option Nat) : PageSource Unit := ⟨fun _ _ => (found, ()), fun _ _ => ()⟩

def blocktype (sz : Nat) : Except Crash Nat :=
  match (List.range nsizes).find? fun i => sz ≤ sizes i with
  | some i => .ok i
  | none => .error .panic

/-- `fl->next`, with NULL as `none`. -/
def link (mem : Nat → Nat) (fl : Nat) : Option Nat := if mem fl = 0 then none else some (mem fl)

namespace Heap
variable (h : Heap) {M : Type} (src : PageSource M) (m : M)

def setRef (pr : Nat) (p : Pageref) : Heap :=
  { h with pagerefs := update h.pagerefs pr p }

def allocpageref : Except Crash (Option (Nat × Heap)) :=
  match (List.range inuseWords).find? fun i => h.pagerefsInuse i ≠ 0xffffffff#32 with
  | none => .ok none
  | some i =>
    let w := h.pagerefsInuse i
    match (List.range 32).find? fun j => w &&& (1#32 <<< j) = 0#32 with
    | none => .error .assertion
    | some j =>
      .ok (some (i * 32 + j,
        { h with pagerefsInuse := update h.pagerefsInuse i (w ||| (1#32 <<< j)) }))

def freepageref (p : Nat) : Except Crash Heap :=
  if p < npagerefs then
    let k := 1#32 <<< (p % 32)
    let w := h.pagerefsInuse (p / 32)
    if w &&& k ≠ 0#32 then
      .ok { h with pagerefsInuse := update h.pagerefsInuse (p / 32) (w &&& ~~~k) }
    else .error .assertion
  else .error .assertion

def removeLists (pr blktype : Nat) : Except Crash Heap :=
  if blktype < nsizes then do
    let same : Linked.Links Nat := ⟨h.sizebases blktype, h.nextSamesize⟩
    let all : Linked.Links Nat := ⟨h.allbase, h.nextAll⟩
    let same ← same.remove Crash.hang pr (npagerefs + 1) none
    let all ← all.remove Crash.hang pr (npagerefs + 1) none
    return { h with
      sizebases := update h.sizebases blktype same.head
      nextSamesize := same.next
      allbase := all.head
      nextAll := all.next }
  else .error .assertion

/-- A call of `alloc_kpages`, with the run of pages that is out after it. -/
def allocKpages (npages : Nat) : Option Nat × Heap × M :=
  match src.alloc npages m with
  | (some a, m) => (some a, { h with runs := (a, npages) :: h.runs }, m)
  | (none, m) => (none, h, m)

def freeKpages (addr : Nat) : Heap := { h with runs := h.runs.filter fun r => r.1 ≠ addr }

/-- The code at `doalloc`: the first free block of a page. -/
def doalloc (pr : Nat) : Except Crash (Nat × Heap) :=
  let p := h.pagerefs pr
  if p.freelistOffset < pageSize then
    let prpage := p.pageaddr
    let fla := prpage + p.freelistOffset
    let nfree := p.nfree - 1
    match link h.mem fla with
    | some fl =>
      if 0 < nfree ∧ prpage ≤ fl ∧ fl - prpage < pageSize then
        .ok (fla, h.setRef pr { p with nfree := nfree, freelistOffset := fl - prpage })
      else .error .assertion
    | none =>
      if nfree = 0 then
        .ok (fla, h.setRef pr { p with nfree := nfree, freelistOffset := invalidOffset })
      else .error .assertion
  else .error .assertion

/-- The loop that threads the free list through a new page, up to its turn `i`. -/
def linkBlocks (fla sz : Nat) (mem : Nat → Nat) : Nat → Except Crash (Nat → Nat)
  | 0 => .ok (update mem fla 0)
  | i + 1 => do
    let mem ← linkBlocks fla sz mem i
    let fl := fla + (i + 1) * sz
    let mem := update mem fl (fla + i * sz)
    if fl = mem fl then .error .assertion else return mem

/-- A new page goes to the front of both lists. -/
def newPage (pr prpage blktype : Nat) : Except Crash Heap := do
  let nfree := pageSize / sizes blktype
  let mem ← linkBlocks prpage (sizes blktype) h.mem (nfree - 1)
  let fla := prpage + (nfree - 1) * sizes blktype
  if fla - prpage = (nfree - 1) * sizes blktype then
    return { h with
      pagerefs := update h.pagerefs pr ⟨mkpab prpage blktype, fla - prpage, nfree⟩
      mem := mem
      nextSamesize := update h.nextSamesize pr (h.sizebases blktype)
      sizebases := update h.sizebases blktype (some pr)
      nextAll := update h.nextAll pr h.allbase
      allbase := some pr }
  else .error .assertion

/-- The search for a page of the right size with a free block. -/
def findPage (blktype : Nat) : Except Crash (Option Nat) :=
  Linked.scan h.nextSamesize .hang
    (fun pr =>
      if (h.pagerefs pr).blocktype = blktype then .ok (decide (0 < (h.pagerefs pr).nfree))
      else .error .assertion)
    npagerefs (h.sizebases blktype)

/-- `subpage_kmalloc`; NULL is `none`. -/
def subpageKmalloc (sz : Nat) : Except Crash (Option Nat × Heap × M) := do
  let blktype ← blocktype sz
  match ← h.findPage blktype with
  | some pr =>
    let r ← h.doalloc pr
    return (some r.1, r.2, m)
  | none =>
    match ← h.allocpageref with
    | none => return (none, h, m)
    | some (pr, h) =>
      match h.allocKpages src m 1 with
      | (none, h, m) =>
        let h ← h.freepageref pr
        return (none, h, m)
      | (some prpage, h, m) =>
        let h ← h.newPage pr prpage blktype
        let r ← h.doalloc pr
        return (some r.1, r.2, m)

end Heap

def fillDeadbeef (mem : Nat → Nat) (ptr len : Nat) : Nat → Nat :=
  Loop.upTo (fun i mem => update mem (ptr + 4 * i) 0xdeadbeef) (len / 4) mem

namespace Heap
variable (h : Heap) {M : Type} (src : PageSource M) (m : M)

/-- The search for the page a pointer lies in. -/
def findRef (ptr : Nat) : Except Crash (Option Nat) :=
  Linked.scan h.nextAll .hang
    (fun pr =>
      let prpage := (h.pagerefs pr).pageaddr
      if (h.pagerefs pr).blocktype < nsizes then
        .ok (decide (prpage ≤ ptr ∧ ptr < prpage + pageSize))
      else .error .assertion)
    npagerefs h.allbase

/-- The block at `ptr` becomes the first of its page's free list. -/
def pushFree (pr ptr : Nat) : Heap :=
  let p := h.pagerefs pr
  let prpage := p.pageaddr
  let offset := ptr - prpage
  let next := if p.freelistOffset = invalidOffset then 0 else prpage + p.freelistOffset
  { h with
    mem := update (fillDeadbeef h.mem ptr (sizes p.blocktype)) (prpage + offset) next
    pagerefs := update h.pagerefs pr
      { p with freelistOffset := offset, nfree := p.nfree + 1 } }

/-- `subpage_kfree`; `none` says that the pointer is on none of its pages. -/
def subpageKfree (ptr : Nat) : Except Crash (Option (Heap × M)) := do
  match ← h.findRef ptr with
  | none => return none
  | some pr =>
    let prpage := (h.pagerefs pr).pageaddr
    let blktype := (h.pagerefs pr).blocktype
    let offset := ptr - prpage
    if pageSize ≤ offset ∨ offset % sizes blktype ≠ 0 then .error .panic
    else
      let h := h.pushFree pr ptr
      let nfree := (h.pagerefs pr).nfree
      if nfree ≤ pageSize / sizes blktype then
        if nfree = pageSize / sizes blktype then
          let h ← h.removeLists pr blktype
          let h ← (h.freeKpages prpage).freepageref pr
          return some (h, src.free prpage m)
        else return some (h, m)
      else .error .assertion

/-- The number of pages for a large request, in 32-bit arithmetic. -/
def npagesFor (sz : Nat) : Nat := (sz + pageSize - 1) % 2 ^ 32 / pageSize

def kmalloc (sz : Nat) : Except Crash (Option Nat × Heap × M) :=
  if largestSubpageSize ≤ sz then .ok (h.allocKpages src m (npagesFor sz))
  else h.subpageKmalloc src m sz

def kfree (ptr : Nat) : Except Crash (Heap × M) :=
  if ptr = 0 then .ok (h, m)
  else do
    match ← h.subpageKfree src m ptr with
    | some r => return r
    | none =>
      if ptr % pageSize = 0 then return (h.freeKpages ptr, src.free ptr m) else .error .assertion

/-- The loop of `checksubpage` over the free list: the number of blocks it met. -/
def checkFreelist (prpage sz : Nat) : Nat → Option Nat → Except Crash Nat
  | _, none => .ok 0
  | 0, some _ => .error .hang
  | n + 1, some fl =>
    if prpage ≤ fl ∧ fl < prpage + pageSize ∧ (fl - prpage) % sz = 0 ∧
        mipsKseg0.toNat ≤ fl ∧ fl < mipsKseg1 then
      (· + 1) <$> checkFreelist prpage sz n (link h.mem fl)
    else .error .assertion

def checksubpage (pr : Nat) : Except Crash Unit :=
  let p := h.pagerefs pr
  if p.freelistOffset = invalidOffset then
    if p.nfree = 0 then .ok () else .error .assertion
  else if p.freelistOffset < pageSize ∧ p.freelistOffset % sizes p.blocktype = 0 then do
    let nfree ← h.checkFreelist p.pageaddr (sizes p.blocktype) pageSize
      (some (p.pageaddr + p.freelistOffset))
    if nfree = p.nfree then .ok () else .error .assertion
  else .error .assertion

end Heap

/-- The pageref is marked in `pagerefs_inuse`. -/
def Heap.InUse (h : Heap) (pr : Nat) : Prop :=
  pr < npagerefs ∧ (h.pagerefsInuse (pr / 32)).getLsbD (pr % 32) = true

/-- Two runs of pages that share none. -/
def Apart (r r' : Nat × Nat) : Prop :=
  r.1 + r.2 * pageSize ≤ r'.1 ∨ r'.1 + r'.2 * pageSize ≤ r.1

/-- What `alloc_kpages` may return: a run of whole pages of kseg0, none of them in use. -/
structure Heap.Fresh (h : Heap) (npages addr : Nat) : Prop where
  aligned : addr % pageSize = 0
  kseg0 : mipsKseg0.toNat ≤ addr ∧ addr + npages * pageSize ≤ mipsKseg1
  apart : ∀ r ∈ h.runs, Apart (addr, npages) r

/-- A block that `kmalloc` returned for a request of `sz` bytes. -/
structure Block where
  ptr : Nat
  sz : Nat
  deriving DecidableEq

/-- The block type for a small request. -/
def classOf (sz : Nat) : Nat := ((List.range nsizes).find? fun i => sz ≤ sizes i).getD 0

/-- The bytes a block has, and what its address is a multiple of. -/
def Block.len (b : Block) : Nat :=
  if largestSubpageSize ≤ b.sz then Heap.npagesFor b.sz * pageSize else sizes (classOf b.sz)

def Block.align (b : Block) : Nat :=
  if largestSubpageSize ≤ b.sz then pageSize else sizes (classOf b.sz)

/-- The heap and the blocks returned and not yet freed. -/
structure State where
  heap : Heap
  live : List Block

inductive Event where
  | kmalloc (sz : Nat) (found : Option Nat)
  | kfree (ptr : Nat)
  | store (a w : Nat)

/-- The blocks in use after `kmalloc` returned. -/
def State.liveAfter (s : State) (sz : Nat) : Option Nat → List Block
  | some ptr => ⟨ptr, sz⟩ :: s.live
  | none => s.live

/-- Everyone may write to the blocks they hold and to memory that is not the heap's. -/
def State.Writable (s : State) (a : Nat) : Prop :=
  ∀ pr, s.heap.InUse pr → (s.heap.pagerefs pr).pageaddr ≤ a →
    a < (s.heap.pagerefs pr).pageaddr + pageSize → ∃ b ∈ s.live, b.ptr ≤ a ∧ a < b.ptr + b.len

/-- The requests for which `sz + PAGE_SIZE - 1` does not wrap. -/
def maxRequest : Nat := 2 ^ 32 - 4096

/-- How many pages a call of `kmalloc` may ask for. -/
def pagesAsked (sz : Nat) : Nat := if largestSubpageSize ≤ sz then Heap.npagesFor sz else 1

inductive Step : State → Event → State → Prop where
  | kmalloc {s : State} {sz : Nat} {found ret : Option Nat} {h : Heap} (hsz : sz ≤ maxRequest)
      (hfresh : ∀ a, found = some a → s.heap.Fresh (pagesAsked sz) a)
      (hr : s.heap.kmalloc (.any found) () sz = .ok (ret, h, ())) :
    Step s (.kmalloc sz found) ⟨h, s.liveAfter sz ret⟩
  | kfree {s : State} {b : Block} {h : Heap} (hb : b ∈ s.live)
      (hr : s.heap.kfree (.any none) () b.ptr = .ok (h, ())) :
    Step s (.kfree b.ptr) ⟨h, s.live.erase b⟩
  | store {s : State} {a w : Nat} (ha : s.Writable a) :
    Step s (.store a w) { s with heap := { s.heap with mem := update s.heap.mem a w } }

/-- After boot: no page reference in use, no page taken, nothing allocated. -/
structure Init (s : State) : Prop where
  inuse : ∀ i, s.heap.pagerefsInuse i = 0#32
  sizebases : ∀ b, s.heap.sizebases b = none
  allbase : s.heap.allbase = none
  runs : s.heap.runs = []
  live : s.live = []

end OS161.Kheap
