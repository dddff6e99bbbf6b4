import OS161.Vm.Heap

/-! The four intervals `vm_fault` tests an address against, and when they stay apart. -/
namespace OS161

variable {as as' as₀ : AddrSpace} {c c' : Ctx} {amount : Word} {a : Call} {es : List Call}
  {past : Region} {va : Vaddr}

namespace AddrSpace

/-- An entry of the region table. -/
def seg (as : AddrSpace) (i : Nat) : Region := as.asRegion.getD i ⟨0, 0, 0, 0, 0⟩

/-- The four tests of `vm_fault`, without their order. -/
def Covers (as : AddrSpace) : Mapping → Vaddr → Prop
  | .code, va => (as.seg 0).pVaddr ≤ va ∧ va < (as.seg 0).pVaddr + (as.seg 0).pMemsz
  | .data, va => (as.seg 1).pVaddr ≤ va ∧ va < (as.seg 1).pVaddr + (as.seg 1).pMemsz
  | .heap, va => as.asHeapbase ≤ va ∧ va < as.asHeapvtop
  | .stack, va => as.asStackvbase - pageSizeW ≤ va ∧ va < userstack

def RegionsDisjoint (as : AddrSpace) : Prop :=
  ∀ va r r', as.Covers r va → as.Covers r' va → r = r'

/-- Where the regions are disjoint, the order of the tests does not matter. -/
theorem RegionsDisjoint.mappedRegion (h : as.RegionsDisjoint) (hseg : 2 ≤ as.asRegion.length)
    {r : Mapping} (hr : as.Covers r va) : as.mappedRegion va = .ok (some r) := by
  obtain ⟨r₀, r₁, rest, has⟩ := exists_two hseg
  have hcode : as.Covers .code va ↔ r₀.pVaddr ≤ va ∧ va < r₀.pVaddr + r₀.pMemsz := by
    simp [Covers, seg, has]
  have hdata : as.Covers .data va ↔ r₁.pVaddr ≤ va ∧ va < r₁.pVaddr + r₁.pMemsz := by
    simp [Covers, seg, has]
  have hheap : as.Covers .heap va ↔ as.asHeapbase ≤ va ∧ va < as.asHeapvtop := Iff.rfl
  have hstack : as.Covers .stack va ↔ as.asStackvbase - pageSizeW ≤ va ∧ va < userstack := Iff.rfl
  have hother : ∀ r', r' ≠ r → ¬ as.Covers r' va := fun r' hne hr' => hne (h va r' r hr' hr)
  simp only [AddrSpace.mappedRegion, has]
  cases r with
  | code => rw [if_pos (hcode.mp hr)]
  | data =>
    have hc := hother .code (by simp)
    rw [hcode] at hc
    rw [if_neg hc, if_pos (hdata.mp hr)]
  | heap =>
    have hc := hother .code (by simp)
    have hd := hother .data (by simp)
    rw [hcode] at hc
    rw [hdata] at hd
    rw [if_neg hc, if_neg hd, if_pos (hheap.mp hr)]
  | stack =>
    have hc := hother .code (by simp)
    have hd := hother .data (by simp)
    have hh := hother .heap (by simp)
    rw [hcode] at hc
    rw [hdata] at hd
    rw [hheap] at hh
    rw [if_neg hc, if_neg hd, if_neg hh, if_pos (hstack.mp hr)]

end AddrSpace

def Region.top (r : Region) : Nat := r.pVaddr.toNat + r.pMemsz.toNat

/-- No address is in both segments. -/
def Region.Apart (r r' : Region) : Prop :=
  ∀ x, ¬ (r.pVaddr.toNat ≤ x ∧ x < r.top ∧ r'.pVaddr.toNat ≤ x ∧ x < r'.top)

/-- The layout the pager relies on: data, heap and stack from bottom to top, and the code in none of
them. A page stays free below the stack, since the STACK test reaches a page down. -/
structure LayoutInv (as : AddrSpace) : Prop where
  two : 2 ≤ as.asRegion.length
  segs : Region.Apart (as.seg 0) (as.seg 1)
  code : (as.seg 0).top + 4096 ≤ as.asStackvbase.toNat
  data : (as.seg 1).top ≤ as.asHeapbase.toNat
  heap : as.asHeapbase.toNat < as.asHeapvtop.toNat
  room : as.asHeapvtop.toNat + 4096 ≤ as.asStackvbase.toNat
  apart : ∀ x, ¬ ((as.seg 0).pVaddr.toNat ≤ x ∧ x < (as.seg 0).top ∧ as.asHeapbase.toNat ≤ x ∧
    x < as.asHeapvtop.toNat)
  stack : as.asStackvbase.toNat ≤ 2147483648
  brk : as.breakaddr.toNat ≤ 2147483648

theorem LayoutInv.disjoint (h : LayoutInv as) : as.RegionsDisjoint := by
  have hroom := h.room
  have htop : ∀ i, i = 0 ∨ i = 1 →
      ((as.seg i).pVaddr + (as.seg i).pMemsz).toNat = (as.seg i).top := by
    intro i hi
    have hlt : (as.seg i).top < 4294967296 := by
      rcases hi with rfl | rfl
      · have := h.code
        omega
      · have := h.data
        omega
    exact Nat.mod_eq_of_lt hlt
  have hsb : (as.asStackvbase - pageSizeW).toNat = as.asStackvbase.toNat - 4096 := by
    rw [BitVec.toNat_sub, toNat_pageSizeW]
    omega
  intro va r r' hr hr'
  have hsegs := h.segs va.toNat
  have hapart := h.apart va.toNat
  have hcode := h.code
  have hdata := h.data
  have hheap := h.heap
  -- in natural numbers, each of the pairs is apart
  cases r <;> cases r' <;> first
    | rfl
    | (exfalso
       simp only [AddrSpace.Covers, BitVec.le_def, BitVec.lt_def, htop 0 (.inl rfl),
         htop 1 (.inr rfl), hsb, toNat_userstack] at hr hr'
       omega)

theorem LayoutInv.congr (h : LayoutInv as) (hl : SameLayout as as') : LayoutInv as' := by
  obtain ⟨hr, hs, hb, ht, hbr⟩ := hl
  have hseg : ∀ i, as'.seg i = as.seg i := fun i => by rw [AddrSpace.seg, hr, AddrSpace.seg]
  exact ⟨by rw [hr]; exact h.two, by rw [hseg, hseg]; exact h.segs, by rw [hseg, hs]; exact h.code,
    by rw [hseg, hb]; exact h.data, by rw [hb, ht]; exact h.heap, by rw [ht, hs]; exact h.room,
    by rw [hseg, hb, ht]; exact h.apart, by rw [hs]; exact h.stack, by rw [hbr]; exact h.brk⟩

/-- Heap and stack grow into free space: the heap not into the stack's lowest page or the code above
it, the stack to a page that has a free one below. -/
def GrowsFree (c : Ctx) : Call → Prop
  | .sbrk amount =>
    c.as.breakaddr.toNat / 4096 * 4096 + 4096 < (c.as.breakaddr + amount).toNat →
    (c.as.breakaddr + amount).toNat ≤ c.as.asStackvbase.toNat →
    let top := c.as.asHeapvtop.toNat + topStep c.as.breakaddr.toNat (c.as.breakaddr + amount).toNat
    top + 4096 ≤ c.as.asStackvbase.toNat ∧
      (c.as.asHeapbase ≤ (c.as.seg 0).pVaddr → top ≤ (c.as.seg 0).pVaddr.toNat)
  | .fault _ va _ =>
    c.as.mappedRegion va = .ok (some .stack) → pageOf va < c.as.asStackvbase →
    c.as.asHeapvtop.toNat + 4096 ≤ (pageOf va).toNat ∧
      (c.as.seg 0).top + 4096 ≤ (pageOf va).toNat
  | _ => True

theorem LayoutInv.grow (h : LayoutInv as) {brk top : Word} (hbrk : brk.toNat ≤ 2147483648)
    (hle : as.asHeapvtop.toNat ≤ top.toNat) (hroom : top.toNat + 4096 ≤ as.asStackvbase.toNat)
    (hcode : as.asHeapbase ≤ (as.seg 0).pVaddr → top.toNat ≤ (as.seg 0).pVaddr.toNat) :
    LayoutInv { as with breakaddr := brk, asHeapvtop := top } := by
  have hheap := h.heap
  refine ⟨h.two, h.segs, h.code, h.data, Nat.lt_of_lt_of_le hheap hle, hroom, ?_, h.stack, hbrk⟩
  intro x hx
  -- were the code to start below the heap, it would have met the heap's first address before
  have hlow := h.apart as.asHeapbase.toNat
  have hx' : (as.seg 0).pVaddr.toNat ≤ x ∧ x < (as.seg 0).top ∧ as.asHeapbase.toNat ≤ x ∧
      x < top.toNat := hx
  rw [BitVec.le_def] at hcode
  omega

theorem LayoutInv.sbrk (h : LayoutInv c.as) (hfree : GrowsFree c (.sbrk amount)) :
    LayoutInv (c.sysSbrk amount).2.as := by
  rcases c.sysSbrk_cases amount with ⟨e, -, -, has⟩ | ⟨-, old, as', hm, -, has⟩
  · rw [has]
    exact h
  rw [has]
  obtain ⟨hs, _, has'⟩ := moveBreak_ok hm
  have hbrk := Nat.le_trans hs h.stack
  rcases Nat.lt_or_ge (c.as.breakaddr.toNat / 4096 * 4096 + 4096) (c.as.breakaddr + amount).toNat
    with hgrow | hpage
  · obtain ⟨hroom, hcode⟩ := hfree hgrow hs
    have htop : as'.asHeapvtop.toNat = c.as.asHeapvtop.toNat +
        topStep c.as.breakaddr.toNat (c.as.breakaddr + amount).toNat := by
      rw [moveBreak_grow h.brk hs hgrow] at hm
      cases hm
      rw [BitVec.toNat_ofNat]
      exact Nat.mod_eq_of_lt (by omega)
    rw [← htop] at hroom hcode
    rw [has']
    exact h.grow hbrk (by omega) hroom hcode
  · rw [moveBreak_page h.brk hs hpage] at hm
    cases hm
    exact ⟨h.two, h.segs, h.code, h.data, h.heap, h.room, h.apart, h.stack, hbrk⟩

theorem LayoutInv.step (h : LayoutInv c.as) (hs : ProcStep c a c') (hfree : GrowsFree c a) :
    LayoutInv c'.as := by
  cases hs with
  | sbrk => exact h.sbrk hfree
  | @fault ft va rand o ho =>
    rcases Ctx.vmFault_stack ho with ⟨hl, -⟩ | ⟨c₁, rfl, hg, -⟩
    · exact h.congr hl
    refine LayoutInv.congr ?_ hg.layout
    have hva := c.as.mappedRegion_stack hg.test
    have hp := toNat_pageOf va
    have hroom := h.room
    have hcode := h.code
    refine ⟨h.two, h.segs, ?_, h.data, h.heap, ?_, h.apart, ?_, h.brk⟩
    · show (c.as.seg 0).top + 4096 ≤ (pageOf va).toNat
      by_cases hlow : pageOf va < c.as.asStackvbase
      · exact (hfree hg.test hlow).2
      · rw [BitVec.lt_def] at hlow
        omega
    · show c.as.asHeapvtop.toNat + 4096 ≤ (pageOf va).toNat
      by_cases hlow : pageOf va < c.as.asStackvbase
      · exact (hfree hg.test hlow).1
      · rw [BitVec.lt_def] at hlow
        omega
    · dsimp only
      omega
  | loaded =>
    rw [Ctx.vmFaultLoaded_same.1]
    exact h
  | others => exact h

/-- A new process whose segments are disjoint and lie below the stack. -/
structure LayoutStart (as : AddrSpace) : Prop where
  two : 2 ≤ as.asRegion.length
  segs : Region.Apart (as.seg 0) (as.seg 1)
  code : (as.seg 0).top + 4096 ≤ userstack.toNat
  data : (as.seg 1).top + 4096 ≤ userstack.toNat
  stack : as.asStackvbase = userstack

/-- The page after the data segment, where the heap starts, is free. -/
def HeapPageFree (as : AddrSpace) : Prop :=
  as.asHeapbase.toNat + 8192 ≤ userstack.toNat ∧
    ((as.seg 0).top ≤ as.asHeapbase.toNat ∨ as.asHeapbase.toNat + 4096 ≤ (as.seg 0).pVaddr.toNat)

theorem layoutInv_setupHeap (h : as = as₀.setupHeap past) (hs : LayoutStart as)
    (hfree : HeapPageFree as) : LayoutInv as := by
  obtain ⟨htwo, hsegs, hcode, hdata, hstack⟩ := hs
  obtain ⟨hroom, hpage⟩ := hfree
  rw [toNat_userstack] at hcode hdata hroom
  have hst : as.asStackvbase.toNat = 2147483648 := by rw [hstack, toNat_userstack]
  have hbreak : as.breakaddr = as.asHeapbase := by rw [h]; rfl
  have htop : as.asHeapvtop.toNat = as.asHeapbase.toNat + 4096 := by
    have : as.asHeapvtop = as.asHeapbase + pageSizeW := by rw [h]; rfl
    rw [this, BitVec.toNat_add, toNat_pageSizeW]
    omega
  have hend : (as.seg 1).top ≤ as.asHeapbase.toNat := by
    have hreg : as.asRegion = as₀.asRegion := by rw [h]; rfl
    have hseg : as₀.asRegion.getD 1 past = as.seg 1 := by
      obtain ⟨r₀, r₁, rest, has⟩ := AddrSpace.exists_two htwo
      rw [AddrSpace.seg, ← hreg, has]
      rfl
    have hbase : as.asHeapbase = (as₀.setupHeap past).asHeapbase := by rw [h]
    simp only [AddrSpace.setupHeap, AddrSpace.asDefineHeap, hseg, Region.heapStart] at hbase
    have hx : ((as.seg 1).pVaddr + (as.seg 1).pMemsz).toNat = (as.seg 1).top := by
      exact Nat.mod_eq_of_lt (by rw [← Region.top]; omega)
    generalize (as.seg 1).pVaddr + (as.seg 1).pMemsz = x at hbase hx
    have hp := toNat_pageOf x
    rw [pageOf] at hp
    split at hbase
    · rw [hbase, BitVec.toNat_add, hp, toNat_pageSizeW]
      omega
    · rw [hbase]
      omega
  refine ⟨htwo, hsegs, by omega, hend, by omega, by omega, ?_, by omega, by rw [hbreak]; omega⟩
  omega

/-- The four regions stay disjoint in every run in which heap and stack grow into free space, and
then the order in which `vm_fault` tests them does not matter. -/
theorem regions_disjoint (as₀ : AddrSpace) (past : Region) (h : c.as = as₀.setupHeap past)
    (hs : LayoutStart c.as) (hfree : HeapPageFree c.as)
    (hrun : Lts.Run (Lts.Restrict ProcStep GrowsFree) c es c') :
    c'.as.RegionsDisjoint ∧ ∀ va r, c'.as.Covers r va → c'.as.mappedRegion va = .ok (some r) := by
  have hinv := hrun.invariant (fun c => LayoutInv c.as)
    (fun _ _ _ hst hi => LayoutInv.step hi hst.1 hst.2) (layoutInv_setupHeap h hs hfree)
  exact ⟨hinv.disjoint, fun va r hr => hinv.disjoint.mappedRegion hinv.two hr⟩

namespace OnePage

def faulted (c : Ctx) (va : Vaddr) : Ctx :=
  match c.vmFault .write va 0 with
  | .ok o => o.ctx
  | .error _ => c

theorem step_faulted (h : (c.vmFault .write va 0).isOk = true) :
    ProcStep c (.fault .write va 0) (faulted c va) := by
  unfold faulted
  cases ho : c.vmFault .write va 0 with
  | error e => simp [ho, Except.isOk, Except.toBool] at h
  | ok o => exact .fault ho

/-- The stack grows by a page, then the heap. -/
theorem regions_disjoint_growing :
    ((faulted (running.ctx 0) stackVa).sysSbrk 5000#32).2.as.RegionsDisjoint := by
  have hs : LayoutStart (running.ctx 0).as := by
    refine ⟨by decide, ?_, by decide, by decide, rfl⟩
    intro x hx
    simp [running, Sys.ctx, program, AddrSpace.seg, Region.top] at hx
    omega
  have hfault : Lts.Restrict ProcStep GrowsFree (running.ctx 0) (.fault .write stackVa 0)
      (faulted (running.ctx 0) stackVa) :=
    ⟨step_faulted rfl, fun _ _ => ⟨by decide, by decide⟩⟩
  refine (regions_disjoint program ⟨0, 0, 0, 0, 0⟩ rfl hs ⟨by decide, .inl (by decide)⟩
    (.head hfault (.single ⟨.sbrk, ?_⟩))).1
  intro _ _
  exact ⟨by decide +kernel, by decide +kernel⟩

/-- The data of this program end five pages below the top of the stack. -/
def tightCtx : Ctx :=
  ⟨boot.mach, ⟨[⟨0x400000#32, 0x1000#32, 0x1000#32, 0x1000#32, 5#32⟩,
    ⟨0x7fffa000#32, 0x2000#32, 0x1000#32, 0x1000#32, 6#32⟩],
   userstack, 0x7fffb000#32, 0x7fffc000#32, 0x7fffb000#32, 0#32, 1#32⟩, asActivate, none⟩

/-- With two pages of stack and 4097 bytes of heap, a page belongs to both. -/
theorem regions_overlap : tightCtx.as = tightCtx.as.setupHeap ⟨0, 0, 0, 0, 0⟩ ∧
    LayoutStart tightCtx.as ∧ HeapPageFree tightCtx.as ∧
    Lts.Run ProcStep tightCtx
      [.fault .write 0x7ffff000#32 0, .fault .write 0x7fffe000#32 0, .sbrk 4097#32]
      ((faulted (faulted tightCtx 0x7ffff000#32) 0x7fffe000#32).sysSbrk 4097#32).2 ∧
    ¬ ((faulted (faulted tightCtx 0x7ffff000#32) 0x7fffe000#32).sysSbrk
      4097#32).2.as.RegionsDisjoint := by
  refine ⟨rfl, ⟨by decide, ?_, by decide, by decide, rfl⟩, ⟨by decide, .inl (by decide)⟩, ?_, ?_⟩
  · intro x hx
    simp [tightCtx, AddrSpace.seg, Region.top] at hx
    omega
  · exact .head (step_faulted rfl) (.head (step_faulted rfl) (.single .sbrk))
  intro h
  have hboth := h 0x7fffd000#32 .heap .stack ⟨by decide +kernel, by decide +kernel⟩
    ⟨by decide +kernel, by decide +kernel⟩
  cases hboth

end OnePage

end OS161
