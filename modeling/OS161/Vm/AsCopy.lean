import OS161.Vm.CopyOnWrite
import OS161.Vm.Layout

/-! `as_copy` with every allocation it makes: two small blocks, and frames for page tables. -/
namespace OS161

open Machine

/-- The kernel's memory: the machine with its frames, the small blocks that `kmalloc` has given
away, and the number of references to the vnode at an address. -/
structure Kmem where
  mach : Machine
  blocks : Finset Word
  refs : Word → Nat

/-- What `as_copy` meets. -/
structure CopyMem where
  /-- The block for the record, and what stood there. -/
  newSpace : Option (Word × AddrSpace)
  newRegions : Option Word
  /-- The page behind address 0, if the current address space has one that takes a store. -/
  null : Option Vaddr

namespace Kmem
variable (k : Kmem)

def kmalloc (addr : Word) : Kmem := { k with blocks := insert addr k.blocks }

def vopIncref (v : Word) : Kmem := { k with refs := Function.update k.refs v (k.refs v + 1) }

def vopDecref (v : Word) : Except Crash Kmem :=
  if k.refs v = 0 then .error .badPointer
  else .ok { k with refs := Function.update k.refs v (k.refs v - 1) }

end Kmem

/-- One turn of the loop of `pt_copy`, with what becomes of the store through NULL that precedes
the test for it. If the store is taken, the test then ends the loop. -/
def Machine.copySecond (null : Option Vaddr) (oldPt newPt : Vaddr) (i : Nat) (m : Machine) :
    Except (Except Crash Machine) Machine :=
  match ptCopyEntry oldPt newPt i m with
  | some m => .ok m
  | none =>
    match null with
    | none => .error (.error .nullDeref)
    | some page => .error (.ok (m.setPage page zeroPage))

/-- What `pt_copy` returns, the pointer it leaves in `*new_pt`, and the memory. -/
structure PtCopied where
  failed : Bool
  newPt : Vaddr
  mach : Machine

def Machine.ptCopyAll (m : Machine) (null : Option Vaddr) (oldPt : Vaddr) : Except Crash PtCopied :=
  match m.kmallocPage with
  | (none, m) => .ok ⟨true, 0#32, m⟩
  | (some newPt, m) =>
    if oldPt = 0#32 then .error .nullDeref
    else
      match Loop.exceptUpTo (copySecond null oldPt newPt) 1024 (m.setPage newPt zeroPage) with
      | .ok m => .ok ⟨false, newPt, m⟩
      | .error (.ok m) => .ok ⟨true, newPt, m⟩
      | .error (.error e) => .error e

/-- `pt_destroy`, which frees the tables and not the pages. -/
def Machine.ptDestroy (m : Machine) (pt : Vaddr) : Machine :=
  let m := Loop.upTo (fun i m =>
    if m.word pt i ≠ 0#32 then m.kfreePage (paddrToKvaddr (m.word pt i)) else m) 1024 m
  m.kfreePage pt

/-- What `as_copy` makes of the record: the heap's start and the break stay as `kmalloc` found
them. -/
def AddrSpace.copyOver (old found : AddrSpace) (table : Vaddr) : AddrSpace :=
  { AddrSpace.asCreate found with
    asRegion := old.asRegion
    asStackvbase := old.asStackvbase
    asHeapvtop := old.asHeapvtop
    v := old.v
    pageTable := table }

/-- The branch for a failed `pt_copy`. It does not return. -/
def Kmem.dropCopy (k : Kmem) (new : AddrSpace) : Except Crash Kmem := do
  let k ← k.vopDecref new.v
  return if new.pageTable = 0#32 then k
    else { k with mach := k.mach.ptDestroy new.pageTable }

def Kmem.asCopy (k : Kmem) (old : AddrSpace) (mem : CopyMem) :
    Except Crash (Except Errno (Word × AddrSpace) × Kmem) :=
  match mem.newSpace with
  | none => .ok (.error .enomem, k)
  | some (addr, found) =>
    let k := k.kmalloc addr
    match mem.newRegions with
    | none => .ok (.error .enomem, k)
    | some table => do
      let k := (k.kmalloc table).vopIncref old.v
      let r ← k.mach.ptCopyAll mem.null old.pageTable
      let new := old.copyOver found r.newPt
      let k := { k with mach := r.mach }
      let k ← if r.failed then k.dropCopy new else .ok k
      return (.ok (addr, new), k)

section
variable {m m' : Machine} {null : Option Vaddr} {oldPt table va : Vaddr} {k k' : Kmem}
  {old new : AddrSpace} {mem : CopyMem} {addr : Word} {e : Errno}

theorem Machine.copySecond_toOption (null : Option Vaddr) (oldPt newPt : Vaddr) (i : Nat)
    (m : Machine) : (copySecond null oldPt newPt i m).toOption = ptCopyEntry oldPt newPt i m := by
  unfold copySecond
  split
  · rename_i h
    rw [h]
    rfl
  · rename_i h
    rw [h]
    split <;> rfl

/-- The copy is complete exactly when `pt_copy` has every table it asks for. -/
theorem Machine.ptCopyAll_done (hold : oldPt ≠ 0#32) :
    m.ptCopyAll null oldPt = .ok ⟨false, table, m'⟩ ↔ m.ptCopy oldPt = .ok (some table, m') := by
  simp only [ptCopyAll, ptCopy]
  obtain ⟨r, m₁⟩ := m.kmallocPage
  cases r with
  | none => simp
  | some newPt =>
    have hopt := Loop.exceptUpTo_toOption (n := 1024) (s := m₁.setPage newPt zeroPage)
      (copySecond_toOption null oldPt newPt)
    dsimp only
    rw [if_neg hold, ← hopt]
    cases Loop.exceptUpTo (copySecond null oldPt newPt) 1024 (m₁.setPage newPt zeroPage) with
    | ok m₂ => simp [Except.toOption]
    | error r => cases r <;> simp [Except.toOption]

theorem Machine.kmallocPage_none (h : m.kmallocPage = (none, m')) : m' = m := by
  unfold kmallocPage at h
  split at h
  · cases h
  rename_i c hc
  cases h
  rw [Coremap.allocateFrame_none hc]

/-- A second-level table is missing: the store through NULL stops the kernel, or `pt_copy` fails
with its first-level table in place. -/
theorem Machine.ptCopyAll_short (null : Option Vaddr) (hold : oldPt ≠ 0#32)
    (h : m.ptCopy oldPt = .error .nullDeref) :
    (null = none → m.ptCopyAll null oldPt = .error .nullDeref) ∧
      ∀ page, null = some page → ∃ table m', table ≠ 0#32 ∧
        m.ptCopyAll null oldPt = .ok ⟨true, table, m'⟩ := by
  simp only [ptCopyAll, ptCopy] at h ⊢
  cases hk : m.kmallocPage with
  | mk r m₁ =>
    rw [hk] at h
    cases r with
    | none => cases h
    | some newPt =>
      have hopt := Loop.exceptUpTo_toOption (n := 1024) (s := m₁.setPage newPt zeroPage)
        (copySecond_toOption null oldPt newPt)
      obtain ⟨f, hf, -, hnew, -⟩ := kmallocPage_some hk
      dsimp only at h ⊢
      rw [← hopt] at h
      rw [if_neg hold]
      cases hloop : Loop.exceptUpTo (copySecond null oldPt newPt) 1024
          (m₁.setPage newPt zeroPage) with
      | ok m₂ =>
        rw [hloop] at h
        cases h
      | error r =>
        -- The turn that left the loop found no frame, and `null` says how it went on.
        obtain ⟨i, m₂, hbody⟩ := Loop.exceptUpTo_error hloop
        unfold copySecond at hbody
        split at hbody
        · cases hbody
        split at hbody
        · cases hbody
          exact ⟨fun _ => rfl, by simp⟩
        cases hbody
        refine ⟨by simp, fun page _ => ⟨newPt, _, ?_, rfl⟩⟩
        rw [hnew]
        exact kva_ne_zero hf

theorem Kmem.vopIncref_decref (k : Kmem) (v : Word) (m : Machine) :
    ({ k.vopIncref v with mach := m } : Kmem).vopDecref v = .ok { k with mach := m } := by
  simp [Kmem.vopIncref, Kmem.vopDecref]

/-- Nothing is left of a failed copy: the same blocks, references, frames and memory. -/
structure Kmem.Undone (k k' : Kmem) : Prop where
  blocks : k'.blocks = k.blocks
  refs : k'.refs = k.refs
  frames : k'.mach.coremap.entries = k.mach.coremap.entries
  mem : k'.mach.mem = k.mach.mem

/-- One of the allocations that the copy needs fails. -/
def Kmem.CopyFails (k : Kmem) (old : AddrSpace) (mem : CopyMem) : Prop :=
  mem.newSpace = none ∨ mem.newRegions = none ∨
    ∀ table m, k.mach.ptCopy old.pageTable ≠ .ok (some table, m)

section
variable {found : AddrSpace} {regions : Word} {r : PtCopied}

variable (hs : mem.newSpace = some (addr, found))
include hs

/-- Without a region table the call fails and forgets the record. -/
theorem Kmem.asCopy_noRegions (hr : mem.newRegions = none) :
    k.asCopy old mem = .ok (.error .enomem, k.kmalloc addr) := by
  simp only [asCopy, hs, hr]

variable (hr : mem.newRegions = some regions)
include hr

theorem Kmem.asCopy_crash {c : Crash}
    (hc : k.mach.ptCopyAll mem.null old.pageTable = .error c) : k.asCopy old mem = .error c := by
  simp only [asCopy, hs, hr, Kmem.vopIncref, Kmem.kmalloc, hc, bind, Except.bind]

theorem Kmem.asCopy_done (hc : k.mach.ptCopyAll mem.null old.pageTable = .ok ⟨false, table, m⟩) :
    k.asCopy old mem = .ok (.ok (addr, old.copyOver found table),
      { ((k.kmalloc addr).kmalloc regions).vopIncref old.v with mach := m }) := by
  simp only [asCopy, hs, hr, Kmem.vopIncref, Kmem.kmalloc, hc, bind, Except.bind]
  rfl

/-- When `pt_copy` fails the call takes back the reference and the tables, and then succeeds. -/
theorem Kmem.asCopy_failed (hc : k.mach.ptCopyAll mem.null old.pageTable = .ok ⟨true, table, m⟩) :
    k.asCopy old mem = .ok (.ok (addr, old.copyOver found table),
      { (k.kmalloc addr).kmalloc regions with
        mach := if table = 0#32 then m else m.ptDestroy table }) := by
  have hv : (old.copyOver found table).v = old.v := rfl
  have hpt : (old.copyOver found table).pageTable = table := rfl
  have hdrop := Kmem.vopIncref_decref ((k.kmalloc addr).kmalloc regions) old.v m
  simp only [Kmem.vopIncref, Kmem.kmalloc] at hdrop
  simp only [asCopy, hs, hr, Kmem.vopIncref, Kmem.kmalloc, hc, bind, Except.bind, dropCopy,
    if_true, hv, hpt, hdrop, pure, Except.pure]
  split <;> rfl

end

/-- How a call ends that has its record and its region table and lacks a page table. -/
inductive Kmem.NoTable (k : Kmem) (old found : AddrSpace) (addr regions : Word) :
    Except Crash (Except Errno (Word × AddrSpace) × Kmem) → Prop where
  /-- The store through NULL is not taken. -/
  | stopped : NoTable k old found addr regions (.error .nullDeref)
  /-- The new address space is handed back without a page table. -/
  | first : NoTable k old found addr regions
      (.ok (.ok (addr, old.copyOver found 0#32), (k.kmalloc addr).kmalloc regions))
  /-- It is handed back with a page table that has been freed. -/
  | second {table : Vaddr} {m : Machine} (hne : table ≠ 0#32) : NoTable k old found addr regions
      (.ok (.ok (addr, old.copyOver found table),
        { (k.kmalloc addr).kmalloc regions with mach := m.ptDestroy table }))

theorem Machine.ptCopy_error {c : Crash} (h : m.ptCopy oldPt = .error c) : c = .nullDeref := by
  unfold ptCopy at h
  split at h
  · cases h
  split at h
  · cases h
  · cases h
    rfl

theorem Machine.ptCopyAll_first (h : m.ptCopy oldPt = .ok (none, m')) :
    m.ptCopyAll null oldPt = .ok ⟨true, 0#32, m⟩ := by
  simp only [ptCopyAll, ptCopy] at h ⊢
  cases hk : m.kmallocPage with
  | mk r m₁ =>
    rw [hk] at h
    cases r with
    | none =>
      obtain rfl := kmallocPage_none hk
      rfl
    | some newPt =>
      dsimp only at h
      split at h <;> cases h

theorem Kmem.asCopy_noTable {found : AddrSpace} {regions : Word} (hold : old.pageTable ≠ 0#32)
    (hs : mem.newSpace = some (addr, found)) (hr : mem.newRegions = some regions)
    (hfail : ∀ table m, k.mach.ptCopy old.pageTable ≠ .ok (some table, m)) :
    k.NoTable old found addr regions (k.asCopy old mem) := by
  cases hc : k.mach.ptCopy old.pageTable with
  | error c =>
    obtain rfl := ptCopy_error hc
    obtain ⟨hnone, hsome⟩ := ptCopyAll_short mem.null hold hc
    cases hnull : mem.null with
    | none =>
      rw [Kmem.asCopy_crash hs hr (hnone hnull)]
      exact .stopped
    | some page =>
      obtain ⟨table, m, hne, hall⟩ := hsome page hnull
      rw [Kmem.asCopy_failed hs hr hall, if_neg hne]
      exact .second hne
  | ok r =>
    obtain ⟨t, m⟩ := r
    cases t with
    | some table => exact absurd hc (hfail table m)
    | none =>
      rw [Kmem.asCopy_failed hs hr (ptCopyAll_first hc), if_pos rfl]
      exact .first

/-- What a call leaves that is refused an allocation. Only without a block for the record is it as
if the call had not been made. Without one for the region table the record is lost, and without a
page table the call does not report an error. -/
theorem as_copy_undone_iff (hold : old.pageTable ≠ 0#32)
    (hfresh : ∀ addr found, mem.newSpace = some (addr, found) → addr ∉ k.blocks)
    (hfail : k.CopyFails old mem) :
    ((∃ e k', k.asCopy old mem = .ok (.error e, k') ∧ k.Undone k') ↔ mem.newSpace = none) ∧
    ∀ addr found, mem.newSpace = some (addr, found) →
      (mem.newRegions = none → k.asCopy old mem = .ok (.error .enomem, k.kmalloc addr)) ∧
      ∀ regions, mem.newRegions = some regions →
        k.NoTable old found addr regions (k.asCopy old mem) := by
  have hnoTable : ∀ addr found, mem.newSpace = some (addr, found) →
      ∀ regions, mem.newRegions = some regions →
        k.NoTable old found addr regions (k.asCopy old mem) := by
    intro addr found hs regions hr
    rcases hfail with h | h | h
    · simp [hs] at h
    · simp [hr] at h
    · exact Kmem.asCopy_noTable hold hs hr h
  refine ⟨⟨?_, ?_⟩, fun addr found hs => ⟨Kmem.asCopy_noRegions hs, hnoTable addr found hs⟩⟩
  · rintro ⟨e, k', hcopy, hu⟩
    by_contra hne
    obtain ⟨⟨addr, found⟩, hs⟩ := Option.ne_none_iff_exists'.mp hne
    cases hr : mem.newRegions with
    | none =>
      rw [Kmem.asCopy_noRegions hs hr] at hcopy
      cases hcopy
      have hb := hu.blocks
      simp only [Kmem.kmalloc, Finset.insert_eq_self] at hb
      exact hfresh addr found hs hb
    | some regions =>
      have hend := hnoTable addr found hs regions hr
      rw [hcopy] at hend
      cases hend
  · intro hnone
    exact ⟨.enomem, k, by simp only [Kmem.asCopy, hnone], rfl, rfl, rfl, rfl⟩

theorem Machine.ptLookup_congr {pt pt' : Vaddr} (hz : pt ≠ 0#32) (hz' : pt' ≠ 0#32)
    (hw : m'.word pt' (index1 va) = 0#32 ↔ m.word pt (index1 va) = 0#32)
    (he : m'.entry pt' (index1 va) (index2 va) = m.entry pt (index1 va) (index2 va))
    (ft : FaultType) : m'.ptLookup pt' va ft = m.ptLookup pt va ft := by
  by_cases h0 : m.word pt (index1 va) = 0#32
  · simp only [ptLookup, if_pos h0, if_pos (hw.mpr h0)]
  have h0' : ¬ m'.word pt' (index1 va) = 0#32 := fun h => h0 (hw.mp h)
  rw [entry_eq_word hz' h0', entry_eq_word hz h0] at he
  simp only [ptLookup, if_neg h0, if_neg h0', he]

/-- The tables of a copy: they answer every look-up as the old ones do, and none is shared. -/
structure TablesCopied (m : Machine) (pt : Vaddr) (m' : Machine) (pt' : Vaddr) : Prop where
  lookup : ∀ va ft, m'.ptLookup pt' va ft = m'.ptLookup pt va ft
  kept : ∀ va ft, m'.ptLookup pt va ft = m.ptLookup pt va ft
  apart : ∀ i i', i < 1024 → i' < 1024 → m'.word pt' i ≠ 0#32 → m'.word pt i' ≠ 0#32 →
    m'.word pt' i ≠ m'.word pt i'

theorem Copied.word_iff {own own' : Nat → Owner} {ptp : Vaddr} {c d i : Nat}
    (h : Copied own m m' own' ptp c d 1024) (hd : d < m.coremap.size) (hi : i < 1024) :
    m'.word (m.kva d) i = 0#32 ↔ m.word ptp i = 0#32 := by
  have hd' : d < m'.coremap.size := by rw [h.ext.frames.size]; exact hd
  rw [← h.ext.frames.kva, word_kva hd']
  constructor
  · intro h0
    by_contra hne
    obtain ⟨g, hg, hge, -⟩ := h.done i hi hne
    rw [hge] at h0
    exact Coremap.frameAddr_ne_zero hg h0
  · exact fun h0 => h.clear i (.inr h0)

theorem Owned.tablesCopied {live : Finset Nat} {pt : Nat → Vaddr} {own : Nat → Owner} {p c : Nat}
    (h : Owned live pt own m) (hp : p ∈ live) (hz : pt p ≠ 0#32) (hc : c ∉ live)
    (hk : m.ptCopy (pt p) = .ok (some table, m')) : TablesCopied m (pt p) m' table := by
  obtain ⟨-, -, -, -, -, hentry⟩ := h.ptCopy hp hz hc hk
  obtain ⟨own', d, hd, rfl, ho, hcp⟩ := h.ptCopy_copied hp hz hc hk
  have hs := hcp.ext.frames
  obtain ⟨a, ha, hpa, hao, -⟩ := h.tables p hp hz
  have hword : ∀ i, m'.word (pt p) i = m.word (pt p) i :=
    fun i => word_kva_congr ha hpa hs (hcp.ext.mem a (by simp [hao]))
  have hold : ∀ i j, i < 1024 → m'.entry (pt p) i j = m.entry (pt p) i j :=
    fun i j hi => hcp.ext.sameEntries h.tables p hp i j hi
  refine ⟨?_, ?_, ?_⟩
  · intro va ft
    refine ptLookup_congr hz (kva_ne_zero hd) ?_ ?_ ft
    · rw [hcp.word_iff hd (index1_lt va), hword]
    · rw [hentry _ _ (index1_lt va), hold _ _ (index1_lt va)]
  · intro va ft
    exact ptLookup_congr hz hz (by rw [hword]) (hold _ _ (index1_lt va)) ft
  intro i i' hi hi' hne hne' heq
  have hd' : d < m'.coremap.size := by rw [hs.size]; exact hd
  obtain ⟨g, hg, hge, hgo, -⟩ := hcp.done i hi (fun h0 => hne ((hcp.word_iff hd hi).mpr h0))
  obtain ⟨b, hb, hpb, -, htab⟩ := ho.tables p hp hz
  rw [hpb, word_kva hb] at hne' heq
  obtain ⟨g', hg', hge', hgo'⟩ := htab i' hi' hne'
  -- A frame has one owner, and the child is not among the live.
  rw [← hs.kva, word_kva hd', hge, hge', hs.frameAddr] at heq
  rw [hs.size] at hg'
  obtain rfl := (Coremap.frameAddr_inj hg hg').mp heq
  rw [hgo] at hgo'
  cases hgo'
  exact hc hp

theorem Machine.kmallocZeroed_congr (h : m'.coremap = m.coremap) :
    m'.kmallocZeroed.1 = m.kmallocZeroed.1 ∧
      m'.kmallocZeroed.2.coremap = m.kmallocZeroed.2.coremap := by
  unfold kmallocZeroed kmallocPage
  rw [h]
  obtain ⟨r, c⟩ := m.coremap.allocateFrame 1
  cases r <;> exact ⟨rfl, rfl⟩

theorem Ctx.mapZeroed_fst (c : Ctx) (va : Vaddr) (flags : Word) : (c.mapZeroed va flags).1 =
    if c.mach.kmallocZeroed.1.isSome then .ok () else .error .enomem := by
  unfold Ctx.mapZeroed
  split <;> simp_all

/-- Whether the page at address 0 can be had depends on the tables only through the look-up. -/
theorem Ctx.mapZero_congr {c c' : Ctx} (hm : c'.mach = c.mach)
    (hl : c'.mach.ptLookup c'.as.pageTable 0#32 .write
      = c.mach.ptLookup c.as.pageTable 0#32 .write) : c'.mapZero.1 = c.mapZero.1 := by
  unfold Ctx.mapZero
  rw [hl]
  split
  · rw [mapZeroed_fst, mapZeroed_fst, hm]
  · simp only [Ctx.ensureSecond, if_true, hm]
    obtain ⟨r, m₁⟩ := c.mach.kmallocZeroed
    cases r with
    | none => rfl
    | some second =>
      simp only [mapZeroed_fst]
      have hsame : ∀ pt va second, (m₁.updateFirstPtEntry pt va second).kmallocZeroed.1
          = m₁.kmallocZeroed.1 := by
        intro pt va second
        have hcoremap : (m₁.updateFirstPtEntry pt va second).coremap = m₁.coremap := rfl
        exact (kmallocZeroed_congr hcoremap).1
      rw [hsame, hsame]
  · rfl

theorem AddrSpace.moveBreak_fst (as : AddrSpace) (amount : Word) :
    (as.moveBreak amount).map Prod.fst =
      if as.breakaddr + amount ≤ as.asStackvbase then .ok as.breakaddr else .error .enomem := by
  unfold AddrSpace.moveBreak
  dsimp only
  split_ifs <;> rfl

theorem Ctx.sysSbrk_fst (c : Ctx) (amount : Word) : (c.sysSbrk amount).1 = c.mapZero.1.bind fun _ =>
    if c.as.breakaddr + amount ≤ c.as.asStackvbase then .ok c.as.breakaddr else .error .enomem := by
  rw [← AddrSpace.moveBreak_fst]
  rcases c.sysSbrk_cases amount with ⟨e, hz | ⟨hz, hm⟩, hr, -⟩ | ⟨hz, o, as, hm, hr, -⟩
  · rw [hz, hr]
    rfl
  · rw [hz, hr, hm]
    rfl
  · rw [hz, hr, hm]
    rfl

/-- `sys_sbrk` tells two address spaces apart exactly by their breaks. -/
theorem Ctx.sysSbrk_fst_iff {c c' : Ctx} (hz : c'.mapZero.1 = c.mapZero.1)
    (hstack : c'.as.asStackvbase = c.as.asStackvbase) :
    (∀ amount, (c'.sysSbrk amount).1 = (c.sysSbrk amount).1) ↔
      (∃ e, c.mapZero.1 = .error e) ∨ c'.as.breakaddr = c.as.breakaddr := by
  simp only [sysSbrk_fst, hz, hstack]
  cases hr : c.mapZero.1 with
  | error e => simp [Except.bind]
  | ok u =>
    simp only [Except.bind, reduceCtorEq, exists_false, false_or]
    constructor
    · intro h
      -- The amount that takes the break to 0 is granted to every process.
      have h0 := h (-c.as.breakaddr)
      have hzero : c.as.breakaddr + -c.as.breakaddr ≤ c.as.asStackvbase := by
        rw [BitVec.add_right_neg]
        exact BitVec.le_def.mpr (Nat.zero_le _)
      split at h0
      · exact Except.ok.inj h0
      · cases h0
    · intro h amount
      rw [h]

/-- The address is in one of the two segments that `vm_fault` tests before the heap. -/
def AddrSpace.InSegments (as : AddrSpace) (va : Vaddr) : Prop :=
  ∀ r₀ r₁ rest, as.asRegion = r₀ :: r₁ :: rest →
    r₀.pVaddr ≤ va ∧ va < r₀.pVaddr + r₀.pMemsz ∨ r₁.pVaddr ≤ va ∧ va < r₁.pVaddr + r₁.pMemsz

/-- `vm_fault` tells two address spaces apart that differ in the heap's start by an address between
the two that is below the heap's end and in no segment. -/
theorem AddrSpace.mappedRegion_iff {as as' : AddrSpace} (hreg : as'.asRegion = as.asRegion)
    (hstack : as'.asStackvbase = as.asStackvbase) (htop : as'.asHeapvtop = as.asHeapvtop) :
    (∀ va, as'.mappedRegion va = as.mappedRegion va) ↔ ∀ va, va < as.asHeapvtop →
      ¬ (as'.asHeapbase ≤ va ↔ as.asHeapbase ≤ va) → as.InSegments va := by
  refine forall_congr' fun va => ?_
  simp only [mappedRegion, InSegments, hreg, hstack, htop]
  rcases as.asRegion with _ | ⟨r₀, _ | ⟨r₁, rest⟩⟩
  · simp
  · simp
  by_cases hseg : r₀.pVaddr ≤ va ∧ va < r₀.pVaddr + r₀.pMemsz ∨
      r₁.pVaddr ≤ va ∧ va < r₁.pVaddr + r₁.pMemsz
  · rcases hseg with h | h <;> simp [h]
  obtain ⟨h₀, h₁⟩ := not_or.mp hseg
  by_cases htop : va < as.asHeapvtop <;> by_cases hold : as.asHeapbase ≤ va <;>
    by_cases hnew : as'.asHeapbase ≤ va <;> simp [htop, hold, hnew, h₀, h₁]

/-- `as_copy` with all the memory it needs copies the page tables. The regions are the same exactly
if no address outside the segments is on another side of the old heap's start than of the number
that the new record's block held; `sys_sbrk` answers both the same exactly if it held the old
break. -/
theorem as_copy_exact_iff {s : Sys} {p : Nat} (hs : Reachable s) (hr : s.Runs p)
    (hz : s.pt p ≠ 0#32) (hk : k.mach = s.mach) (hok : ¬ k.CopyFails (s.proc p).as mem) :
    ∃ addr found new k', mem.newSpace = some (addr, found) ∧
      k.asCopy (s.proc p).as mem = .ok (.ok (addr, new), k') ∧
      TablesCopied s.mach (s.pt p) k'.mach new.pageTable ∧
      ((∀ va, new.mappedRegion va = (s.proc p).as.mappedRegion va) ↔
        ∀ va, va < (s.proc p).as.asHeapvtop →
          ¬ (found.asHeapbase ≤ va ↔ (s.proc p).as.asHeapbase ≤ va) →
          (s.proc p).as.InSegments va) ∧
      ∀ tlb args,
        (∀ amount, ((⟨k'.mach, new, tlb, args⟩ : Ctx).sysSbrk amount).1 =
          ((⟨k'.mach, (s.proc p).as, tlb, args⟩ : Ctx).sysSbrk amount).1) ↔
        (∃ e, (⟨k'.mach, (s.proc p).as, tlb, args⟩ : Ctx).mapZero.1 = .error e) ∨
          found.breakaddr = (s.proc p).as.breakaddr := by
  simp only [Kmem.CopyFails, not_or, not_forall, not_not] at hok
  obtain ⟨hspace, hregions, table, m, hcopy⟩ := hok
  obtain ⟨⟨addr, found⟩, hspace⟩ := Option.ne_none_iff_exists'.mp hspace
  obtain ⟨regions, hregions⟩ := Option.ne_none_iff_exists'.mp hregions
  obtain ⟨own, hi⟩ := inv_reachable hs
  have htables : TablesCopied s.mach (s.pt p) m table := by
    rw [hk] at hcopy
    exact hi.owned.tablesCopied hr.2.1 hz hi.next_notMem hcopy
  refine ⟨addr, found, _, _, hspace,
    Kmem.asCopy_done hspace hregions ((ptCopyAll_done hz).mpr hcopy), htables,
    AddrSpace.mappedRegion_iff rfl rfl rfl, fun tlb args => ?_⟩
  exact Ctx.sysSbrk_fst_iff (Ctx.mapZero_congr rfl (htables.lookup 0#32 .write)) rfl

end

namespace OnePage

/-- The kernel's memory while the program of one page forks. -/
def forking : Kmem := ⟨written.mach, {0x80100000#32}, fun v => if v = 1 then 1 else 0⟩

/-- The copy's record falls on a block that held `left`. -/
def copyMem (left : AddrSpace) : CopyMem := ⟨some (0x80100040#32, left), some 0x80100080#32, none⟩

theorem not_copyFails (left : AddrSpace) :
    ¬ forking.CopyFails (written.proc 0).as (copyMem left) := by
  rintro (h | h | h)
  · cases h
  · cases h
  · exact h _ _ ptCopy_written

/-- Over a block that holds the parent's own numbers. -/
theorem as_copy_exact_program : ∃ new k',
    forking.asCopy (written.proc 0).as (copyMem program) = .ok (.ok (0x80100040#32, new), k') ∧
      (∀ va, new.mappedRegion va = (written.proc 0).as.mappedRegion va) ∧
      (∀ tlb args amount, ((⟨k'.mach, new, tlb, args⟩ : Ctx).sysSbrk amount).1 =
        ((⟨k'.mach, (written.proc 0).as, tlb, args⟩ : Ctx).sysSbrk amount).1) ∧
      ∀ va ft, k'.mach.ptLookup new.pageTable va ft = k'.mach.ptLookup (written.pt 0) va ft := by
  obtain ⟨addr, found, new, k', hspace, hcopy, htables, hregions, hsbrk⟩ :=
    as_copy_exact_iff (k := forking) reachable_written ⟨rfl, by decide, rfl⟩ (by decide) rfl
      (not_copyFails program)
  cases hspace
  exact ⟨new, k', hcopy, hregions.mpr fun _ _ h => absurd Iff.rfl h,
    fun tlb args => (hsbrk tlb args).mpr (.inr rfl), htables.lookup⟩

/-- A child whose record falls on zeros has a heap from address 0 on, where its parent has none. -/
theorem as_copy_moves_heap : Reachable written ∧ ∃ new k',
    forking.asCopy (written.proc 0).as (copyMem ⟨[], 0, 0, 0, 0, 0, 0⟩)
        = .ok (.ok (0x80100040#32, new), k') ∧
      (written.proc 0).as.mappedRegion 0x1000#32 = .ok none ∧
      new.mappedRegion 0x1000#32 = .ok (some .heap) ∧
      (written.proc 0).as.breakaddr = 0x10001000#32 ∧ new.breakaddr = 0#32 := by
  have hcopy : forking.asCopy (written.proc 0).as (copyMem ⟨[], 0, 0, 0, 0, 0, 0⟩) = _ :=
    Kmem.asCopy_done rfl rfl ((ptCopyAll_done (by decide)).mpr ptCopy_written)
  exact ⟨reachable_written, _, _, hcopy, by decide +kernel, by decide +kernel, rfl, rfl⟩

/-- A kernel without a frame left. -/
def exhausted : Kmem := ⟨lastTaken, {0x80100000#32}, fun v => if v = 1 then 1 else 0⟩

/-- Without a block for the record nothing happens. -/
theorem as_copy_undone_record : ∃ e k',
    exhausted.asCopy (forked.proc 0).as ⟨none, none, none⟩ = .ok (.error e, k') ∧
      exhausted.Undone k' := by
  refine (as_copy_undone_iff (by decide) ?_ (.inl rfl)).1.mpr rfl
  intro addr found h
  cases h

/-- Without a frame for the first-level table `as_copy` hands back an address space that has no page
table. -/
theorem as_copy_reports_success :
    exhausted.CopyFails (forked.proc 0).as (copyMem program) ∧
    ∃ new k', exhausted.asCopy (forked.proc 0).as (copyMem program)
        = .ok (.ok (0x80100040#32, new), k') ∧
      new.pageTable = 0#32 ∧ new.asRegion = program.asRegion ∧
      k'.blocks = {0x80100080#32, 0x80100040#32, 0x80100000#32} := by
  have hnone : lastTaken.ptCopy (forked.pt 0) = .ok (none, lastTaken) := rfl
  have hcopy : exhausted.asCopy (forked.proc 0).as (copyMem program) = _ :=
    Kmem.asCopy_failed rfl rfl (ptCopyAll_first hnone)
  refine ⟨.inr (.inr ?_), _, _, hcopy, rfl, rfl, rfl⟩
  intro table m h
  have := hnone.symm.trans h
  cases this

end OnePage

end OS161
