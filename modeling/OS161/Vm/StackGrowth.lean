import OS161.Vm.AsCopy
import OS161.Vm.LostCounts
import OS161.Vm.Pager

/-! The stack base moves down by one page, since the pages from the base up are mapped. -/
namespace OS161

open Machine

variable {s t : Sys} {a : Event} {p q rand : Nat} {va : Vaddr} {exits : Bool}

namespace Ctx
variable {c c' : Ctx} {ft : FaultType} {o : Outcome}

theorem sysSbrk_args (amount : Word) : (c.sysSbrk amount).2.args = c.args := by
  have hz := c.mapZero_same.2
  unfold sysSbrk
  cases hm : c.mapZero with
  | mk r c₁ =>
    rw [hm] at hz
    cases r with
    | error e => exact hz
    | ok u =>
      dsimp only
      split <;> exact hz

end Ctx

/-- What a step does to the stack of a process: nothing, or the stack grows down by the page at
fault and the arguments are taken. -/
inductive StackStep (s t : Sys) (p : Nat) : Event → Prop where
  | same {a : Event} (base : (t.proc p).as.asStackvbase = (s.proc p).as.asStackvbase)
      (args : (t.proc p).args = (s.proc p).args) : StackStep s t p a
  | grown {rand : Nat} {ft : FaultType} {va : Vaddr} (mode : (s.proc p).mode = .trapped ft va)
      (region : (s.proc p).as.mappedRegion va = .ok (some .stack))
      (base : (t.proc p).as.asStackvbase = pageOf va)
      (down : (t.proc p).as.asStackvbase.toNat + 4096 = (s.proc p).as.asStackvbase.toNat)
      (args : (t.proc p).args = none) : StackStep s t p (.fault p rand)

/-- The stack is mapped, and empty as long as the arguments wait for its first page. -/
structure Sys.StackReady (s : Sys) (p : Nat) : Prop where
  mapped : s.StackMapped p
  waiting : (s.proc p).args ≠ none → (s.proc p).as.asStackvbase = userstack

theorem SteadyInv.stackvbase_pos (hi : SteadyInv exits s) (hp : p ∈ s.live)
    (h : s.StackMapped p) : 0 < (s.proc p).as.asStackvbase.toNat := by
  obtain ⟨lost, own, hl, -⟩ := hi
  exact hl.inv.stackvbase_pos hp ⟨h.aligned, h.le, h.mapped⟩

theorem SteadyInv.fresh (hi : SteadyInv exits s) (hp : p ∈ s.live) : p < s.next := by
  obtain ⟨lost, own, hl, -⟩ := hi
  exact hl.inv.fresh p hp

/-- The page at fault is the one below the base: all above it are mapped. -/
theorem Sys.StackMapped.down {as' : AddrSpace} (hm : s.StackMapped p)
    (hpos : 0 < (s.proc p).as.asStackvbase.toNat) (hg : StackGrown (s.proc p).as as' va)
    (hmiss : isValid (s.pte p (index1 va) (index2 va)) = false) :
    as'.asStackvbase.toNat + 4096 = (s.proc p).as.asStackvbase.toNat := by
  obtain ⟨hbase, hhigh, hlow⟩ := hm.grown hpos hg
  by_contra hne
  have hv := hm.mapped (va.toNat / 4096) (by omega) (by omega)
  rw [index1_eq, index2_eq] at hmiss
  rw [Nat.div_div_eq_div_mul] at hv
  rw [hv] at hmiss
  cases hmiss

section
variable (hi : SteadyInv exits s) (h : Step s a t) (hok : Steady exits s a)
include hi h hok

theorem SteadyInv.stackStep (hq : q ∈ s.live) (hm : s.StackMapped q) :
    StackStep s t q a ∧ t.StackMapped q := by
  have he := (hi.step h hok).2
  obtain ⟨call, hcall, hstep⟩ := step_projects h (hi.fresh hq)
  generalize hc' : t.ctx q = c' at hstep
  have has : (t.proc q).as = c'.as := by rw [← hc']; rfl
  have hargs : (t.proc q).args = c'.args := by rw [← hc']; rfl
  have hsame : c'.as.asStackvbase = (s.proc q).as.asStackvbase → c'.args = (s.proc q).args →
      StackStep s t q a ∧ t.StackMapped q := by
    intro hb ha
    rw [← has] at hb
    exact ⟨.same hb (hargs.trans ha), he.stackMapped_same hm hq hb⟩
  cases hstep with
  | @sbrk amount =>
    refine hsame ?_ (Ctx.sysSbrk_args amount)
    rcases (s.ctx q).sysSbrk_cases amount with ⟨_, -, -, hsb⟩ | ⟨-, old, as, hmb, -, hsb⟩
    · rw [hsb]
      rfl
    · obtain ⟨_, _, heq⟩ := moveBreak_ok hmb
      rw [hsb, heq]
      rfl
  | @fault ft va rand o ho =>
    obtain ⟨rfl, hmode⟩ := hcall
    rcases Ctx.vmFault_stack ho with ⟨hl, ha⟩ | ⟨c₁, rfl, hg, ha, hmiss⟩
    · exact hsame hl.stackvbase ha
    have hpos := hi.stackvbase_pos hq hm
    have hdown := hm.down hpos hg hmiss
    refine ⟨.grown hmode hg.test ?_ ?_ ?_, ?_⟩
    · rw [has]
      exact hg.layout.stackvbase
    · rw [has]
      exact hdown
    · rw [hargs]
      exact ha
    · exact he.stackMapped_grown hm hq hpos (has ▸ hg) (he.done q rand ft va c₁ rfl hmode ho)
  | @loaded l r rand =>
    exact hsame (by rw [Ctx.vmFaultLoaded_same.1]; rfl) Ctx.vmFaultLoaded_same.2
  | others => exact hsame rfl rfl

/-- The arguments wait no longer than for the first page of the stack. -/
theorem SteadyInv.stackReady_old (hq : q ∈ s.live) (hr : s.StackReady q) : t.StackReady q := by
  obtain ⟨hst, hm⟩ := hi.stackStep h hok hq hr.mapped
  refine ⟨hm, ?_⟩
  intro hargs
  cases hst with
  | same hb ha =>
    rw [hb]
    exact hr.waiting (ha ▸ hargs)
  | grown _ _ _ _ ha => exact (hargs ha).elim

end

/-- Programs start with an empty stack. -/
def StartsEmpty (a : Event) : Prop :=
  ∀ p as args, a = .start p as args → as.asStackvbase = userstack

theorem startsEmpty_runprogram {f : File} {found as : AddrSpace} {past : Region} {v : Word}
    (h : f.runprogram found past v = .ok as) (args : Option Args) :
    StartsEmpty (.start p as args) := by
  rintro _ _ _ ⟨⟩
  exact (File.runprogram_ok h).2.1

def SteadyStart (exits : Bool) (s : Sys) (a : Event) : Prop := Steady exits s a ∧ StartsEmpty a

theorem SteadyInv.stackReady_step (hi : SteadyInv exits s)
    (hs : ∀ p, p ∈ s.live → s.StackReady p) (h : Step s a t) (hok : SteadyStart exits s a) :
    ∀ q, q ∈ t.live → t.StackReady q := by
  intro q hq
  by_cases hold : q ∈ s.live
  · exact hi.stackReady_old h hok.1 hold (hs q hold)
  rcases h.added hq hold with ⟨p, heapbase, breakaddr, rfl⟩ | ⟨as, args, rfl⟩
  · obtain ⟨hp, table, hchild⟩ := h.forked
    refine ⟨(hi.step h hok.1).2.stackMapped_child (hs p hp).mapped (by rw [hchild]; rfl), ?_⟩
    rw [hchild]
    exact fun hargs => (hargs rfl).elim
  · have hbase : (t.proc q).as.asStackvbase = userstack := by
      rw [h.started]
      exact hok.2 q as args rfl
    exact ⟨stackMapped_empty hbase, fun _ => hbase⟩

theorem stackReady_reachable (h : Lts.Reachable Init (Lts.Restrict Step (SteadyStart exits)) s) :
    SteadyInv exits s ∧ ∀ p, p ∈ s.live → s.StackReady p := by
  refine Lts.Reachable.invariant
    (fun s => SteadyInv exits s ∧ ∀ p, p ∈ s.live → s.StackReady p) ?_ ?_ h
  · intro s hs
    exact ⟨steadyInv_initial exits hs, hs.forall_live⟩
  · rintro s a t ⟨hst, hok⟩ ⟨hi, hr⟩
    exact ⟨(hi.step hst hok.1).1, hi.stackReady_step hr hst hok⟩

/-- In a run whose forks find the frames for their page tables, every stack is mapped from its base
to USERSTACK and moves down by one page at a time; and the page that takes the arguments of a
program is the one below USERSTACK. -/
theorem stack_grows_by_pages (h : Lts.Reachable Init (Lts.Restrict Step (SteadyStart exits)) s)
    (hp : p ∈ s.live) :
    s.StackMapped p ∧ 0 < (s.proc p).as.asStackvbase.toNat ∧
    (∀ a t, Step s a t → Steady exits s a → StackStep s t p a) ∧
    ((s.proc p).args ≠ none → (s.proc p).as.asStackvbase = userstack ∧
      ∀ a t, Step s a t → Steady exits s a → (t.proc p).args = none →
        (t.proc p).as.asStackvbase = userstack - pageSizeW) := by
  obtain ⟨hi, hr⟩ := stackReady_reachable h
  obtain ⟨hm, hwait⟩ := hr p hp
  refine ⟨hm, hi.stackvbase_pos hp hm, fun a t hs hok => (hi.stackStep hs hok hp hm).1, ?_⟩
  intro hargs
  refine ⟨hwait hargs, ?_⟩
  intro a t hs hok hnone
  cases (hi.stackStep hs hok hp hm).1 with
  | same _ ha => exact (hargs (ha ▸ hnone)).elim
  | grown _ _ _ hdown _ =>
    rw [hwait hargs, toNat_userstack] at hdown
    refine BitVec.eq_of_toNat_eq ?_
    rw [show (userstack - pageSizeW).toNat = 2147479552 from rfl]
    omega

namespace OnePage

theorem stack_grows_by_pages_mapped :
    mapped.StackMapped 0 ∧ (mapped.proc 0).as.asStackvbase = userstack - pageSizeW := by
  have hstart : SteadyStart false boot (.start 0 program none) :=
    ⟨by simp [Steady], startsEmpty_runprogram runprogram_image none⟩
  have hrun : Lts.Reachable Init (Lts.Restrict Step (SteadyStart false)) mapped := by
    refine mapped_reachable (running_reachable hstart ?_) ?_ ?_ <;>
      simp [SteadyStart, Steady, StartsEmpty]
  exact ⟨(stack_grows_by_pages hrun (by decide)).1, rfl⟩

end OnePage

/-- The loads of `make_readonly` through a page table at address 0 find zeros, by the TLB. -/
def Sys.ZerosAtNull (s : Sys) : Prop :=
  ∀ i, i < 1024 → ∃ e, s.tlb.translate (BitVec.ofNat 32 (4 * i)) false = .ok e ∧
    s.mach.userWord e (BitVec.ofNat 32 (4 * i)) = 0#32

/-- The steps of the system, and the fork of a process with a page at address 0 whose kernel stack
takes the last frame: `as_copy` comes back without a page table and `sys_fork` goes on. -/
inductive ForkStep : Sys → Event → Sys → Prop where
  | step {s t : Sys} {a : Event} (h : Step s a t) : ForkStep s a t
  | noTable {s : Sys} {p : Nat} {m : Machine} {stack : Vaddr} {k : Kmem} {mem : CopyMem}
      {addr : Word} {new : AddrSpace} {k' : Kmem} (hr : s.Runs p) (hpt : s.pt p ≠ 0#32)
      (hcard : s.live.card < 200) (hstack : s.mach.kmallocPage = (some stack, m))
      (hk : k.mach = m) (hcopy : k.asCopy (s.proc p).as mem = .ok (.ok (addr, new), k'))
      (hnew : new.pageTable = 0#32) (hnull : s.ZerosAtNull) :
    ForkStep s (.fork p s.next new.asHeapbase new.breakaddr)
      { s with
        mach := k'.mach.makeReadonly (s.pt p) false
        tlb := s.tlb.makeReadonly
        live := insert s.next s.live
        proc := Function.update s.proc s.next ⟨new, none, .user⟩
        next := s.next + 1 }

namespace OnePage

/-- A segment of data that ends at the end of the address space, so that the heap starts at 0. -/
def wideHeader : List Word :=
  [1, 0x2000#32, 0x10000000#32, 0, 0x1000#32, 0xf0000000#32, 6, 0x1000#32]

def wideImage : File := ⟨(elfHeader 2 ++ textHeader ++ wideHeader).flatMap wordBytes, fun _ => none⟩

def wide : AddrSpace :=
  { program with
    asRegion := [⟨0x400000#32, 0x1000#32, 0x1000#32, 0x1000#32, 5#32⟩,
      ⟨0x10000000#32, 0x2000#32, 0x1000#32, 0xf0000000#32, 6#32⟩]
    asHeapbase := 0#32, asHeapvtop := 0x1000#32, breakaddr := 0#32 }

theorem runprogram_wide : wideImage.runprogram program ⟨0, 0, 0, 0, 0⟩ 1 = .ok wide := by
  decide +kernel

def wideRunning : Sys :=
  { running with proc := Function.update boot.proc 0 ⟨wide, none, .user⟩ }

/-- It has touched its stack and the page at address 0. -/
def wideTouched : Sys := afterFault (afterFault wideRunning 0 .write stackVa) 0 .read 0#32

theorem zerosAtNull_wide : wideTouched.ZerosAtNull := by
  have hall : ∀ i, i < 1024 →
      wideTouched.tlb.translate (BitVec.ofNat 32 (4 * i)) false = .ok 0x5600#32 ∧
        wideTouched.mach.userWord 0x5600#32 (BitVec.ofNat 32 (4 * i)) = 0#32 := by
    decide +kernel
  exact fun i hi => ⟨_, hall i hi⟩

def lastFrame : Machine := wideTouched.mach.kmallocPage.2

/-- The child of a fork in the last frame has its parent's stack base and not one page of its
stack. -/
theorem forked_stack_unmapped : ∃ t,
    wideImage.runprogram program ⟨0, 0, 0, 0, 0⟩ 1 = .ok wide ∧
    Lts.Run ForkStep boot
      [.start 0 wide none, .switch (some 0), .trap 0 .write stackVa, .fault 0 0,
        .trap 0 .read 0#32, .fault 0 0, .fork 0 1 0x10001000#32 0x10001000#32] t ∧
    1 ∈ t.live ∧ (t.proc 1).as.asStackvbase = userstack - pageSizeW ∧
    isValid (t.pte 1 511 1023) = false := by
  have hstack := step_afterFault wideRunning 0 .write stackVa true ⟨rfl, by decide, rfl⟩ (by decide)
    rfl rfl
  have hzero := step_afterFault (afterFault wideRunning 0 .write stackVa) 0 .read 0#32 false
    ⟨rfl, by decide, rfl⟩ (by decide) rfl rfl
  have hnone : lastFrame.ptCopy (wideTouched.pt 0) = .ok (none, lastFrame) := rfl
  have hcopy : (⟨lastFrame, ∅, fun _ => 0⟩ : Kmem).asCopy (wideTouched.proc 0).as (copyMem program)
      = _ := Kmem.asCopy_failed rfl rfl (ptCopyAll_first hnone)
  have hfork := ForkStep.noTable (s := wideTouched) (p := 0) ⟨rfl, by decide, rfl⟩ (by decide)
    (by decide) (show wideTouched.mach.kmallocPage = (some 0x80006000#32, lastFrame) from rfl) rfl
    hcopy rfl zerosAtNull_wide
  have hrun : Lts.Run ForkStep boot _ _ :=
    .head (.step (@Step.start boot wide none rfl (by decide))) <|
      .head (.step (Step.switch (q := some 0) (by simp [boot]))) <|
      .head (.step hstack.1) <| .head (.step hstack.2) <| .head (.step hzero.1) <|
      .head (.step hzero.2) <| .single hfork
  exact ⟨_, runprogram_wide, hrun, Finset.mem_insert_self .., rfl, rfl⟩

end OnePage

end OS161
