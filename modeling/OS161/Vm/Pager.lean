import OS161.Userprog.Elf
import OS161.Vm.Stack

/-! Calls of `vm_fault` that return, and those that fail an assertion or panic. -/
namespace OS161

open Machine

variable {as : AddrSpace} {c : Ctx} {ft : FaultType} {va : Vaddr} {rand : Nat} {f : File}
  {found : AddrSpace} {past : Region} {v : Word} {own : Nat → Owner} {s t : Sys} {a : Event}
  {p q : Nat}

def Region.Placed (r : Region) : Prop := r.pVaddr ≠ 0#32 ∧ pageOf r.pVaddr = r.pVaddr

instance (r : Region) : Decidable r.Placed := inferInstanceAs (Decidable (_ ∧ _))

/-- What `vm_fault` takes for granted about an address space. -/
structure AddrSpace.SetUp (as : AddrSpace) : Prop where
  two : 2 ≤ as.asRegion.length
  placed : ∀ r ∈ as.asRegion, r.Placed
  stack : as.asStackvbase ≠ 0#32
  heap : as.asHeapvtop ≠ 0#32

theorem AddrSpace.checkSetup_ok : as.checkSetup = .ok () ↔
    (∀ r ∈ as.asRegion, r.Placed) ∧ as.asStackvbase ≠ 0#32 ∧ as.asHeapvtop ≠ 0#32 := by
  have hall : (as.asRegion.all fun r =>
      r.pVaddr != 0#32 && r.pVaddr &&& pageFrame == r.pVaddr) = true
      ↔ ∀ r ∈ as.asRegion, r.Placed := by
    simp [List.all_eq_true, Region.Placed, pageOf]
  unfold checkSetup
  rw [← hall]
  split
  · rename_i h
    split
    · rename_i h'
      exact ⟨fun _ => ⟨h, h'⟩, fun _ => rfl⟩
    · rename_i h'
      exact ⟨by simp, fun hs => (h' hs.2).elim⟩
  · rename_i h
    exact ⟨by simp, fun hs => (h hs.1).elim⟩

theorem AddrSpace.mappedRegion_ok : (∃ r, as.mappedRegion va = .ok r) ↔ 2 ≤ as.asRegion.length := by
  unfold mappedRegion
  split
  · rename_i h
    rw [h]
    exact ⟨fun _ => by simp, fun _ => ⟨_, rfl⟩⟩
  rename_i h
  refine ⟨by simp, ?_⟩
  intro hlen
  obtain ⟨r₀, r₁, rest, hr⟩ := exists_two hlen
  exact (h r₀ r₁ rest hr).elim

/-- A call that returns has found the address space as it expects it. -/
theorem Ctx.setUp_of_vmFault {o : Outcome} (h : c.vmFault ft va rand = .ok o) : c.as.SetUp := by
  obtain ⟨_, hset, h⟩ := bind_eq_ok.mp h
  obtain ⟨r, hreg, _⟩ := bind_eq_ok.mp h
  obtain ⟨hplaced, hstack, hheap⟩ := AddrSpace.checkSetup_ok.mp hset
  exact ⟨AddrSpace.mappedRegion_ok.mp ⟨r, hreg⟩, hplaced, hstack, hheap⟩

section
variable (hs : c.as.SetUp)
include hs

theorem Ctx.vmFault_noRegion (hr : c.as.mappedRegion va = .ok none) :
    c.vmFault ft va rand = .ok (.failed .efault c) := by
  simp only [Ctx.vmFault, AddrSpace.checkSetup_ok.mpr ⟨hs.placed, hs.stack, hs.heap⟩, hr, bind,
    Except.bind, pure, Except.pure]

theorem Ctx.vmFault_access {region : Mapping} (hr : c.as.mappedRegion va = .ok (some region))
    (hft : ft ≠ .readonly) : ∃ o, c.vmFault ft va rand = .ok o := by
  simp only [Ctx.vmFault, AddrSpace.checkSetup_ok.mpr ⟨hs.placed, hs.stack, hs.heap⟩, hr, bind,
    Except.bind, pure, Except.pure]
  split
  · exact ⟨_, rfl⟩
  cases ft with
  | readonly => exact (hft rfl).elim
  | read | write => exact ⟨_, rfl⟩

theorem Ctx.vmFault_modify {region : Mapping} (hr : c.as.mappedRegion va = .ok (some region))
    (hz : c.as.pageTable ≠ 0#32) : c.vmFault .readonly va rand = c.modify va := by
  simp only [Ctx.vmFault, AddrSpace.checkSetup_ok.mpr ⟨hs.placed, hs.stack, hs.heap⟩, hr, bind,
    Except.bind, Ctx.ensureTable, if_neg hz]

end

/-- A call for a TLB miss returns just when the address space is set up. -/
theorem Ctx.vmFault_miss_iff (hft : ft ≠ .readonly) :
    (∃ o, c.vmFault ft va rand = .ok o) ↔ c.as.SetUp := by
  constructor
  · rintro ⟨o, ho⟩
    exact setUp_of_vmFault ho
  intro hs
  obtain ⟨r, hr⟩ := AddrSpace.mappedRegion_ok.mpr hs.two
  cases r with
  | none => exact ⟨_, vmFault_noRegion hs hr⟩
  | some region => exact vmFault_access hs hr hft

theorem Ctx.modify_ok (hv : isValid (c.pte va) = true) :
    (∃ o, c.modify va = .ok o) ↔ isDirty (c.pte va) = true := by
  obtain ⟨hz, hw⟩ := word_ne_zero_of_valid hv
  have hent := entry_eq_word (m := c.mach) (j := index2 va) hz hw
  rw [Ctx.pte, hent] at hv ⊢
  unfold modify ptLookup
  rw [if_neg hw]
  rw [if_pos hv]
  by_cases hd : isDirty (c.mach.word (paddrToKvaddr (c.mach.word c.as.pageTable (index1 va)))
      (index2 va)) = true
  · rw [if_pos hd]
    refine ⟨fun _ => hd, fun _ => ?_⟩
    dsimp only
    split
    · exact ⟨_, rfl⟩
    · exact ⟨_, rfl⟩
  · rw [if_neg hd]
    exact ⟨by simp, fun h => (hd h).elim⟩

/-- The store is to a page that one of the regions has and that is not writable. -/
def Ctx.WriteDenied (c : Ctx) (ft : FaultType) (va : Vaddr) : Prop :=
  ft = .readonly ∧ c.as.mappedRegion va ≠ .ok none ∧ isDirty (c.pte va) = false

theorem Ctx.vmFault_iff (hs : c.as.SetUp) (hv : ft = .readonly → isValid (c.pte va) = true) :
    (∃ o, c.vmFault ft va rand = .ok o) ↔ ¬ c.WriteDenied ft va := by
  by_cases hft : ft = .readonly
  · subst hft
    obtain ⟨r, hr⟩ := AddrSpace.mappedRegion_ok.mpr hs.two
    cases r with
    | none =>
      refine ⟨fun _ hd => hd.2.1 hr, fun _ => ⟨_, vmFault_noRegion hs hr⟩⟩
    | some region =>
      have hval := hv rfl
      rw [vmFault_modify hs hr (word_ne_zero_of_valid hval).1, modify_ok hval]
      simp [Ctx.WriteDenied, hr]
  · rw [vmFault_miss_iff hft]
    exact ⟨fun _ hd => hft hd.1, fun _ => hs⟩

/-- The files whose programs start with an address space `vm_fault` accepts. -/
structure File.Pageable (f : File) : Prop where
  two : 2 ≤ f.loads.length
  placed : ∀ ph ∈ f.loads, ph.region.Placed
  heap : ∀ ph, f.loads[1]? = some ph → ph.region.heapStart + pageSizeW ≠ 0#32

theorem File.setUp_iff (h : f.runprogram found past v = .ok as) : as.SetUp ↔ f.Pageable := by
  obtain ⟨hreg, hstack, _, as₀, hreg₀, rfl⟩ := File.runprogram_ok h
  have hplaced : (∀ r ∈ (as₀.setupHeap past).asRegion, r.Placed) ↔
      ∀ ph ∈ f.loads, ph.region.Placed := by
    rw [hreg]
    simp
  have hheap : ∀ ph, f.loads[1]? = some ph →
      (as₀.setupHeap past).asHeapvtop = ph.region.heapStart + pageSizeW := by
    intro ph hph
    simp [AddrSpace.setupHeap, AddrSpace.asDefineHeap, hreg₀, hph]
  refine ⟨?_, ?_⟩
  · intro hs
    have htwo := hs.two
    rw [hreg, List.length_map] at htwo
    refine ⟨htwo, hplaced.mp hs.placed, ?_⟩
    intro ph hph
    rw [← hheap ph hph]
    exact hs.heap
  · intro hf
    have hph := List.getElem?_eq_getElem hf.two
    refine ⟨by rw [hreg, List.length_map]; exact hf.two, hplaced.mpr hf.placed, ?_, ?_⟩
    · rw [hstack]
      decide
    · rw [hheap _ hph]
      exact hf.heap _ hph

/-- What every process of a run keeps, apart from its stack. -/
structure AddrSpace.Kept (as : AddrSpace) : Prop where
  two : 2 ≤ as.asRegion.length
  placed : ∀ r ∈ as.asRegion, r.Placed
  heap : as.asHeapvtop ≠ 0#32

theorem AddrSpace.Kept.congr {as' : AddrSpace} (h : as.Kept) (hr : as'.asRegion = as.asRegion)
    (ht : as'.asHeapvtop ≠ 0#32) : as'.Kept :=
  ⟨by rw [hr]; exact h.two, by rw [hr]; exact h.placed, ht⟩

/-- The steps of a run that starts only such files, has a frame left for every copy on write and
never drives the heap top around to 0. -/
def Tame (s : Sys) (a : Event) : Prop :=
  CowFits s a ∧
    (∀ p as args, a = .start p as args →
      ∃ f found past v, File.runprogram f found past v = .ok as ∧ f.Pageable) ∧
    ∀ p amount old as, a = .sbrk p amount → (s.proc p).as.moveBreak amount = .ok (old, as) →
      as.asHeapvtop ≠ 0#32

def PagerInv (s : Sys) : Prop := ∀ p, p ∈ s.live → (s.proc p).as.Kept ∧ s.StackMapped p

theorem PagerInv.setUp (h : PagerInv s) (hi : Inv own s) (hp : p ∈ s.live) :
    (s.proc p).as.SetUp := by
  obtain ⟨hk, hm⟩ := h p hp
  have hpos := hi.stackvbase_pos hp hm
  refine ⟨hk.two, hk.placed, ?_, hk.heap⟩
  intro hz
  rw [hz] at hpos
  exact Nat.lt_irrefl _ hpos

section
variable (hi : Inv own s) (h : Step s a t) (hok : Tame s a)
include hi h hok

theorem PagerInv.old (hpi : PagerInv s) (hq : q ∈ s.live) :
    (t.proc q).as.Kept ∧ t.StackMapped q := by
  obtain ⟨hk, hm⟩ := hpi q hq
  have he := hi.evolves h hok.1
  obtain ⟨call, hcall, hstep⟩ := step_projects h (hi.fresh q hq)
  have hsame : ∀ as, as = (t.proc q).as → SameLayout (s.proc q).as as →
      (t.proc q).as.Kept ∧ t.StackMapped q := by
    rintro _ rfl hl
    exact ⟨hk.congr hl.region (by rw [hl.heapvtop]; exact hk.heap),
      he.stackMapped_same hm hq hl.stackvbase⟩
  generalize hc' : t.ctx q = c' at hstep
  have has : c'.as = (t.proc q).as := by rw [← hc']; rfl
  cases hstep with
  | @sbrk amount =>
    rcases (s.ctx q).sysSbrk_cases amount with ⟨_, -, -, hsb⟩ | ⟨-, old, as, hmb, -, hsb⟩
    · exact hsame _ has (.of_eq hsb)
    obtain ⟨_, _, heq⟩ := moveBreak_ok hmb
    have hnz := hok.2.2 q amount old as hcall hmb
    rw [← has, hsb]
    refine ⟨hk.congr (by rw [heq]; rfl) hnz, ?_⟩
    refine he.stackMapped_same hm hq ?_
    rw [← has, hsb, heq]
    rfl
  | @fault ft va rand o ho =>
    obtain ⟨rfl, hmode⟩ := hcall
    rcases Ctx.vmFault_stack ho with ⟨hl, -⟩ | ⟨c₁, rfl, hg, -⟩
    · exact hsame _ has hl
    have hl := hg.layout
    refine ⟨hk.congr (by rw [← has]; exact hl.region)
      (by rw [← has]; exact hl.heapvtop ▸ hk.heap), ?_⟩
    exact he.stackMapped_grown hm hq (hi.stackvbase_pos hq hm) (has ▸ hg)
      (he.done q rand ft va c₁ rfl hmode ho)
  | @loaded l r rand => exact hsame _ has (.of_eq Ctx.vmFaultLoaded_same.1)
  | others => exact hsame _ has (.refl _)

theorem PagerInv.forked {heapbase breakaddr : Vaddr} (hpi : PagerInv s)
    (ha : a = .fork p q heapbase breakaddr) : (t.proc q).as.Kept ∧ t.StackMapped q := by
  subst ha
  obtain ⟨hp, table, hq⟩ := h.forked
  obtain ⟨hk, hm⟩ := hpi p hp
  refine ⟨hk.congr (by rw [hq]; rfl) (by rw [hq]; exact hk.heap), ?_⟩
  exact (hi.evolves h hok.1).stackMapped_child hm (by rw [hq]; rfl)

omit hi in
theorem PagerInv.started {args : Option Args} (ha : a = .start q as args) :
    (t.proc q).as.Kept ∧ t.StackMapped q := by
  subst ha
  obtain ⟨f, found, past, v, hrun, hf⟩ := hok.2.1 q as args rfl
  have hq : (t.proc q).as = as := by rw [h.started]
  obtain ⟨_, hstack, _⟩ := File.runprogram_ok hrun
  have hs := (File.setUp_iff hrun).mpr hf
  refine ⟨?_, stackMapped_empty (by rw [hq]; exact hstack)⟩
  rw [hq]
  exact ⟨hs.two, hs.placed, hs.heap⟩

theorem PagerInv.added (hpi : PagerInv s) (hq : q ∈ t.live) (hnew : q ∉ s.live) :
    (t.proc q).as.Kept ∧ t.StackMapped q := by
  rcases h.added hq hnew with ⟨p, heapbase, breakaddr, ha⟩ | ⟨as, args, ha⟩
  · exact hpi.forked hi h hok ha
  · exact PagerInv.started h hok ha

theorem PagerInv.step (hpi : PagerInv s) : PagerInv t := by
  intro q hq
  by_cases hold : q ∈ s.live
  · exact hpi.old hi h hok hold
  · exact hpi.added hi h hok hq hold

end

theorem pagerInv_reachable (h : Lts.Reachable Init (Lts.Restrict Step Tame) s) :
    (∃ own, Inv own s) ∧ PagerInv s := by
  refine Lts.Reachable.invariant (fun s => (∃ own, Inv own s) ∧ PagerInv s) ?_ ?_ h
  · intro s hs
    exact ⟨inv_initial hs, hs.forall_live⟩
  · rintro s a t ⟨hs, hok⟩ ⟨⟨own, hi⟩, hpi⟩
    exact ⟨inv_step hs hok.1 hi, hpi.step hi hs hok⟩

/-- In a run of programs from pageable files every call of `vm_fault` returns, except for a store to
a page that is not writable; and only with a pageable file does a program survive its first
fault. -/
theorem vmFault_returns_iff (ft : FaultType) (va : Vaddr) (rand : Nat) :
    (∀ s p, Lts.Reachable Init (Lts.Restrict Step Tame) s → s.cur = some p →
      (s.proc p).mode = .trapped ft va →
      ((∃ o, (s.ctx p).vmFault ft va rand = .ok o) ↔ ¬ (s.ctx p).WriteDenied ft va)) ∧
    (∀ (f : File) found past v (c : Ctx), f.runprogram found past v = .ok c.as →
      ft ≠ .readonly → ((∃ o, c.vmFault ft va rand = .ok o) ↔ f.Pageable)) := by
  refine ⟨?_, ?_⟩
  · intro s p h hc hm
    obtain ⟨⟨own, hi⟩, hpi⟩ := pagerInv_reachable h
    have hp := hi.cur p hc
    refine Ctx.vmFault_iff (hpi.setUp hi hp) ?_
    have hmode := hi.mode p hp
    rw [hm] at hmode
    exact hmode.2
  · intro f found past v c hrun hft
    exact (Ctx.vmFault_miss_iff hft).trans (File.setUp_iff hrun)

namespace OnePage

def elfHeader (phnum : Word) : List Word :=
  [0x7f454c46#32, 0x01020100#32, 0, 0, 0x00020008#32, 1, 0x400000#32, 52, 0, 0, 0x00340020#32,
    phnum <<< 16, 0]

def textHeader : List Word := [1, 0x1000#32, 0x400000#32, 0, 0x1000#32, 0x1000#32, 5, 0x1000#32]

def dataHeader : List Word := [1, 0x2000#32, 0x10000000#32, 0, 0x1000#32, 0x1000#32, 6, 0x1000#32]

/-- The headers of the executable of `program`. -/
def image : File := ⟨(elfHeader 2 ++ textHeader ++ dataHeader).flatMap wordBytes, fun _ => none⟩

theorem runprogram_image : image.runprogram program ⟨0, 0, 0, 0, 0⟩ 1 = .ok program := by
  decide +kernel

theorem pageable_image : image.Pageable :=
  (File.setUp_iff runprogram_image).mp ⟨by decide, by decide, by decide, by decide⟩

/-- The program's first store finds its page missing. -/
theorem vmFault_returns_image :
    (∃ o, (running.ctx 0).vmFault .write stackVa 0 = .ok o) ∧
      ∃ o, (running.ctx 0).vmFault .read 0x400000#32 0 = .ok o := by
  have hstart : Tame boot (.start 0 program none) := by
    refine ⟨cowFits_of_ne (by simp), ?_, by simp⟩
    rintro _ _ _ ⟨⟩
    exact ⟨image, _, _, _, runprogram_image, pageable_image⟩
  have hrun := running_reachable hstart fun _ => ⟨cowFits_of_ne (by simp), by simp, by simp⟩
  have hstep : Step running (.trap 0 .write stackVa)
      (running.setMode 0 (.trapped .write stackVa)) :=
    .trap ⟨rfl, by decide, rfl⟩ (by decide)
      (show running.tlb.translate stackVa true = .error .write from rfl)
  have htrap := hrun.next ⟨hstep, cowFits_of_ne (by simp), by simp, by simp⟩
  refine ⟨?_, ?_⟩
  · have hret := (vmFault_returns_iff .write stackVa 0).1 _ 0 htrap rfl
      (by simp [Sys.setMode, Sys.put])
    exact hret.mpr (by simp [Ctx.WriteDenied])
  · exact ((vmFault_returns_iff .read 0x400000#32 0).2 image _ _ _ (running.ctx 0)
      runprogram_image (by simp)).mpr pageable_image

/-- The page of text on its way in, and in place. -/
def fetching : Sys := afterFault running 0 .read 0x400000#32

def textLoad : Load := ⟨0x400000#32, 0x80003000#32, 1#32, 0x1000#32, 0x1000#32, 5#32⟩

def wholePage : ReadResult := ⟨none, 4096, fun _ => 0#8⟩

def fetched : Sys := fetching.settle 0 ((fetching.ctx 0).vmFaultLoaded textLoad wholePage 0)

/-- A file with a segment of text only. -/
def textOnly : File := ⟨(elfHeader 1 ++ textHeader).flatMap wordBytes, fun _ => none⟩

def oneRegion : AddrSpace :=
  ⟨[⟨0x400000#32, 0x1000#32, 0x1000#32, 0x1000#32, 5#32⟩], userstack, 0#32, 0x1000#32, 0#32,
    0#32, 1#32⟩

/-- A program that stores to its own text stops the kernel, and so does the first instruction of a
program without a segment of data. -/
theorem text_store_panics :
    image.runprogram program ⟨0, 0, 0, 0, 0⟩ 1 = .ok program ∧
    Lts.Run Step boot
      [.start 0 program none, .switch (some 0), .trap 0 .read 0x400000#32, .fault 0 0,
        .loaded 0 wholePage 0, .trap 0 .readonly 0x400000#32]
      (fetched.setMode 0 (.trapped .readonly 0x400000#32)) ∧
    ((fetched.setMode 0 (.trapped .readonly 0x400000#32)).ctx 0).vmFault .readonly 0x400000#32 0
      = .error .panic ∧
    textOnly.runprogram program ⟨0, 0, 0, 0, 0⟩ 1 = .ok oneRegion ∧
    Ctx.vmFault ⟨boot.mach, oneRegion, asActivate, none⟩ .read 0x400000#32 0 =
      .error .outOfBounds := by
  have hfetch := step_afterFault running 0 .read 0x400000#32 false ⟨rfl, by decide, rfl⟩ (by decide)
    rfl rfl
  have hload : Step fetching (.loaded 0 wholePage 0) fetched := .loaded rfl (by decide) rfl
  have hstore : Step fetched (.trap 0 .readonly 0x400000#32)
      (fetched.setMode 0 (.trapped .readonly 0x400000#32)) :=
    .trap ⟨rfl, by decide, rfl⟩ (by decide)
    (show fetched.tlb.translate 0x400000#32 true = .error .readonly by decide +kernel)
  refine ⟨runprogram_image, ?_, ?_, by decide +kernel, rfl⟩
  · exact .head (@Step.start boot program none rfl (by decide)) <|
      .head (Step.switch (q := some 0) (by simp [boot])) <| .head hfetch.1 <| .head hfetch.2 <|
      .head hload <| .single hstore
  · rfl

end OnePage

end OS161
