import Mathlib.Data.Finset.Card
import OS161.Lib.Run
import OS161.Vm.Sbrk

/-! User processes that use the TLB, fault, fork, move their break and exit, in any interleaving. -/
namespace OS161

open Function (update)

inductive Mode where
  | user
  | trapped (ft : FaultType) (va : Vaddr)
  | loading (l : Load)
  | faulted

structure Proc where
  as : AddrSpace
  args : Option Args
  mode : Mode

/-- Processes are numbered in the order of their creation and never renumbered. -/
structure Sys where
  mach : Machine
  tlb : Tlb
  live : Finset Nat
  proc : Nat → Proc
  cur : Option Nat
  next : Nat

inductive Event where
  | switch (q : Option Nat)
  | load (p : Nat) (va : Vaddr) (w : Word)
  | store (p : Nat) (va : Vaddr) (w : Word)
  | trap (p : Nat) (ft : FaultType) (va : Vaddr)
  | fault (p rand : Nat)
  | loaded (p : Nat) (r : ReadResult) (rand : Nat)
  | copyfail (p : Nat)
  | fork (p c : Nat) (heapbase breakaddr : Vaddr)
  | forkFailed (p : Nat)
  | sbrk (p : Nat) (amount : Word)
  | exit (p : Nat)
  | start (p : Nat) (as : AddrSpace) (args : Option Args)

/-- The word of its page an address names. -/
def wordIndex (va : Vaddr) : Nat := ((va >>> 2) &&& 0x3ff#32).toNat

def Machine.userWord (m : Machine) (e : Word) (va : Vaddr) : Word :=
  m.mem (m.coremap.frameIndex (ppage e)) (wordIndex va)

def Machine.setUserWord (m : Machine) (e : Word) (va : Vaddr) (w : Word) : Machine :=
  { m with
    mem := update m.mem (m.coremap.frameIndex (ppage e))
      (update (m.mem (m.coremap.frameIndex (ppage e))) (wordIndex va) w) }

namespace Sys
variable (s : Sys) (p : Nat)

def pt : Vaddr := (s.proc p).as.pageTable

def ctx : Ctx := ⟨s.mach, (s.proc p).as, s.tlb, (s.proc p).args⟩

/-- The state after the current process worked on its context. -/
def put (c : Ctx) (mode : Mode) : Sys :=
  { s with
    mach := c.mach, tlb := c.tlb, proc := update s.proc p ⟨c.as, c.args, mode⟩ }

def setMode (mode : Mode) : Sys := s.put p (s.ctx p) mode

def settle : Outcome → Sys
  | .done c => s.put p c .user
  | .failed _ c => s.put p c .faulted
  | .loading l c => s.put p c (.loading l)

/-- The child of `sys_fork`: `as_copy` leaves `as_heapbase` and `breakaddr` as `kmalloc` found
them. -/
def child (table heapbase breakaddr : Vaddr) : Proc :=
  ⟨{ (s.proc p).as with
      pageTable := table, asHeapbase := heapbase, breakaddr := breakaddr }, none, .user⟩

/-- The process runs in user mode. -/
def Runs : Prop := s.cur = some p ∧ p ∈ s.live ∧ (s.proc p).mode = .user

end Sys

inductive Step : Sys → Event → Sys → Prop where
  /-- `mi_switch`, to a user process or to a thread of the kernel's own. -/
  | switch {s : Sys} {q : Option Nat} (hq : ∀ p, q = some p → p ∈ s.live) :
    Step s (.switch q) { s with cur := q, tlb := if q.isSome then asActivate else s.tlb }
  | load {s : Sys} {p : Nat} {va : Vaddr} {e : Word} (hr : s.Runs p)
      (hva : va.toNat < 2147483648) (he : s.tlb.translate va false = .ok e) :
    Step s (.load p va (s.mach.userWord e va)) s
  | store {s : Sys} {p : Nat} {va : Vaddr} {e w : Word} (hr : s.Runs p)
      (hva : va.toNat < 2147483648) (he : s.tlb.translate va true = .ok e) :
    Step s (.store p va w) { s with mach := s.mach.setUserWord e va w }
  | trap {s : Sys} {p : Nat} {va : Vaddr} {store : Bool} {ft : FaultType} (hr : s.Runs p)
      (hva : va.toNat < 2147483648) (he : s.tlb.translate va store = .error ft) :
    Step s (.trap p ft va) (s.setMode p (.trapped ft va))
  | fault {s : Sys} {p rand : Nat} {va : Vaddr} {ft : FaultType} {o : Outcome}
      (hc : s.cur = some p) (hl : p ∈ s.live) (hm : (s.proc p).mode = .trapped ft va)
      (ho : (s.ctx p).vmFault ft va rand = .ok o) : Step s (.fault p rand) (s.settle p o)
  | loaded {s : Sys} {p rand : Nat} {l : Load} {r : ReadResult} (hc : s.cur = some p)
      (hl : p ∈ s.live) (hm : (s.proc p).mode = .loading l) :
    Step s (.loaded p r rand) (s.settle p ((s.ctx p).vmFaultLoaded l r rand))
  /-- The fault was taken inside `copyin` or `copyout`, which returns EFAULT. -/
  | copyfail {s : Sys} {p : Nat} (hc : s.cur = some p) (hl : p ∈ s.live)
      (hm : (s.proc p).mode = .faulted) : Step s (.copyfail p) (s.setMode p .user)
  /-- What `sys_fork` does to pages, but for the frame of the child's kernel stack, which `exorcise`
  gives back; `Kstate.threadFork` has that frame and the small blocks. -/
  | fork {s : Sys} {p : Nat} {m : Machine} {table heapbase breakaddr : Vaddr} (hr : s.Runs p)
      (hpt : s.pt p ≠ 0#32) (hcard : s.live.card < 200)
      (hm : s.mach.ptCopy (s.pt p) = .ok (some table, m)) :
    Step s (.fork p s.next heapbase breakaddr)
      { s with
        mach := (m.makeReadonly (s.pt p) false).makeReadonly table true
        tlb := s.tlb.makeReadonly
        live := insert s.next s.live
        proc := update s.proc s.next (s.child p table heapbase breakaddr)
        next := s.next + 1 }
  /-- `thread_fork` fails after `as_copy` and drops the copy. -/
  | forkFailed {s : Sys} {p : Nat} {m : Machine} {table : Vaddr} (hr : s.Runs p)
      (hpt : s.pt p ≠ 0#32) (hm : s.mach.ptCopy (s.pt p) = .ok (some table, m)) :
    Step s (.forkFailed p) { s with mach := m }
  | sbrk {s : Sys} {p : Nat} {amount : Word} (hr : s.Runs p) (hpt : s.pt p ≠ 0#32) :
    Step s (.sbrk p amount) (s.put p ((s.ctx p).sysSbrk amount).2 .user)
  /-- `thread_exit`, of the process's own accord or by `kill_curthread`. -/
  | exit {s : Sys} {p : Nat} (hc : s.cur = some p) (hl : p ∈ s.live)
      (hm : (s.proc p).mode = .user ∨ (s.proc p).mode = .faulted) :
    Step s (.exit p)
      { s with
        mach := if s.pt p = 0#32 then s.mach else s.mach.ptDeepDestroy (s.pt p)
        live := s.live.erase p
        cur := none }
  /-- `runprogram`, up to the new process's first instruction. -/
  | start {s : Sys} {as : AddrSpace} {args : Option Args} (has : as.pageTable = 0#32)
      (hcard : s.live.card < 200) :
    Step s (.start s.next as args)
      { s with
        live := insert s.next s.live
        proc := update s.proc s.next ⟨as, args, .user⟩
        next := s.next + 1 }

section
variable {s : Sys} {p rand : Nat} {va : Vaddr} {ft : FaultType} {o : Outcome}

theorem settle_live (s : Sys) (p : Nat) (o : Outcome) : (s.settle p o).live = s.live := by
  cases o <;> rfl

theorem settle_next (s : Sys) (p : Nat) (o : Outcome) : (s.settle p o).next = s.next := by
  cases o <;> rfl

theorem ctx_setMode (s : Sys) (p : Nat) (mode : Mode) : (s.setMode p mode).ctx p = s.ctx p := by
  simp [Sys.setMode, Sys.ctx, Sys.put]

theorem settle_setMode (s : Sys) (p : Nat) (mode : Mode) (o : Outcome) :
    (s.setMode p mode).settle p o = s.settle p o := by
  cases o <;> simp [Sys.settle, Sys.setMode, Sys.put]

/-- A trap and the call of `vm_fault` it leads to. -/
theorem step_trap_fault (store : Bool) (hr : s.Runs p) (hva : va.toNat < 2147483648)
    (he : s.tlb.translate va store = .error ft) (ho : (s.ctx p).vmFault ft va rand = .ok o) :
    Step s (.trap p ft va) (s.setMode p (.trapped ft va)) ∧
      Step (s.setMode p (.trapped ft va)) (.fault p rand) (s.settle p o) := by
  have hm : ((s.setMode p (.trapped ft va)).proc p).mode = .trapped ft va := by
    simp [Sys.setMode, Sys.put]
  rw [← ctx_setMode s p (.trapped ft va)] at ho
  rw [← settle_setMode s p (.trapped ft va)]
  exact ⟨.trap hr hva he, .fault hr.1 hr.2.1 hm ho⟩

end

/-- After boot: no user process, and every frame free or held by the kernel. -/
structure Init (s : Sys) : Prop where
  live : s.live = ∅
  cur : s.cur = none
  frames : ∀ f, f < s.mach.coremap.size →
    (s.mach.coremap.entries f).status = .unallocated → (s.mach.coremap.entries f).shared = 0

/-- The steps of a run in which a frame is left whenever a modify trap meets a shared page. -/
def CowFits (s : Sys) (a : Event) : Prop :=
  ∀ p rand va, a = .fault p rand → (s.proc p).mode = .trapped .readonly va →
    s.mach.coremap.isShared (ppage (s.mach.entry (s.pt p) (index1 va) (index2 va))) = true →
    s.mach.coremap.HasFrame

/-- What holds of every process holds at boot. -/
theorem Init.forall_live {s : Sys} (h : Init s) {P : Nat → Prop} : ∀ p ∈ s.live, P p := by
  simp [h.live]

theorem cowFits_of_ne {s : Sys} {a : Event} (h : ∀ p rand, a ≠ .fault p rand) : CowFits s a :=
  fun p rand _ ha => (h p rand ha).elim

theorem cowFits_miss {s : Sys} {p rand : Nat} {ft : FaultType} {va : Vaddr} (hft : ft ≠ .readonly) :
    CowFits (s.setMode p (.trapped ft va)) (.fault p rand) := by
  rintro p' rand' va' heq hm
  cases heq
  simp only [Sys.setMode, Sys.put, Function.update_self] at hm
  cases hm
  exact (hft rfl).elim

/-- The states of such runs. -/
def Reachable (s : Sys) : Prop := Lts.Reachable Init (Lts.Restrict Step CowFits) s

namespace OnePage

theorem frame0_pos : 0 < (0x1000#32).toNat := by decide

theorem frame0_aligned : (0x1000#32).toNat % 4096 = 0 := by decide

def boot : Sys :=
  ⟨⟨⟨fun _ => .zero, 6, 0x1000#32, 6, 0, frame0_pos, frame0_aligned, by decide⟩,
    fun _ => Machine.zeroPage⟩,
    asActivate, ∅, fun _ => ⟨⟨[], 0, 0, 0, 0, 0, 0⟩, none, .user⟩, none, 0⟩

/-- One page of text, one of data, and an empty heap. -/
def program : AddrSpace :=
  ⟨[⟨0x400000#32, 0x1000#32, 0x1000#32, 0x1000#32, 5#32⟩,
    ⟨0x10000000#32, 0x2000#32, 0x1000#32, 0x1000#32, 6#32⟩],
   userstack, 0x10001000#32, 0x10002000#32, 0x10001000#32, 0#32, 1#32⟩

def stackVa : Vaddr := 0x7ffff004#32

def running : Sys :=
  { boot with
    live := {0}, proc := update boot.proc 0 ⟨program, none, .user⟩, next := 1
    cur := some 0 }

/-- The state after a fault of the current process. -/
def afterFault (s : Sys) (p : Nat) (ft : FaultType) (va : Vaddr) : Sys :=
  match (s.ctx p).vmFault ft va 0 with
  | .ok o => s.settle p o
  | .error _ => s

def switched (s : Sys) (p : Nat) : Sys := { s with cur := some p, tlb := asActivate }

def mapped : Sys := afterFault running 0 .write stackVa

theorem step_afterFault (s : Sys) (p : Nat) (ft : FaultType) (va : Vaddr) (store : Bool)
    (hr : s.Runs p) (hva : va.toNat < 2147483648) (he : s.tlb.translate va store = .error ft)
    (ho : ((s.ctx p).vmFault ft va 0).isOk = true) :
    Step s (.trap p ft va) (s.setMode p (.trapped ft va)) ∧
      Step (s.setMode p (.trapped ft va)) (.fault p 0) (afterFault s p ft va) := by
  unfold afterFault
  cases h : (s.ctx p).vmFault ft va 0 with
  | error c => simp [h, Except.isOk, Except.toBool] at ho
  | ok o => exact step_trap_fault store hr hva he h

section
variable {Ok : Sys → Event → Prop}

theorem running_reachable (hstart : Ok boot (.start 0 program none))
    (hswitch : ∀ s, Ok s (.switch (some 0))) :
    Lts.Reachable Init (Lts.Restrict Step Ok) running := by
  have h : Lts.Reachable Init (Lts.Restrict Step Ok) boot := .of_init ⟨rfl, rfl, fun _ _ _ => rfl⟩
  have h := h.next ⟨@Step.start boot program none rfl (by decide), hstart⟩
  exact h.next ⟨Step.switch (q := some 0) (by simp [boot]), hswitch _⟩

theorem mapped_reachable (h : Lts.Reachable Init (Lts.Restrict Step Ok) running)
    (htrap : Ok running (.trap 0 .write stackVa))
    (hfault : Ok (running.setMode 0 (.trapped .write stackVa)) (.fault 0 0)) :
    Lts.Reachable Init (Lts.Restrict Step Ok) mapped := by
  obtain ⟨h₁, h₂⟩ := step_afterFault running 0 .write stackVa true ⟨rfl, by decide, rfl⟩ (by decide)
    rfl rfl
  exact (h.next ⟨h₁, htrap⟩).next ⟨h₂, hfault⟩

end

end OnePage

end OS161
