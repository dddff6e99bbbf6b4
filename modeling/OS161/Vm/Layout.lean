import OS161.Vm.Mapping
import OS161.Vm.System

/-! One process's `struct addrspace`. Between its calls others may change memory and the TLB. -/
namespace OS161

open Machine (word_ne_zero_of_valid entry_eq_word ptLookup)

variable {c c' : Ctx} {ft : FaultType} {va : Vaddr} {rand : Nat} {o : Outcome} {amount : Word}

def Outcome.ctx : Outcome → Ctx
  | .done c => c
  | .failed _ c => c
  | .loading _ c => c

inductive Call where
  | sbrk (amount : Word)
  | fault (ft : FaultType) (va : Vaddr) (rand : Nat)
  | loaded (l : Load) (r : ReadResult) (rand : Nat)
  | others (m : Machine) (t : Tlb)

inductive ProcStep : Ctx → Call → Ctx → Prop where
  | sbrk {c : Ctx} {amount : Word} : ProcStep c (.sbrk amount) (c.sysSbrk amount).2
  | fault {c : Ctx} {ft : FaultType} {va : Vaddr} {rand : Nat} {o : Outcome}
      (ho : c.vmFault ft va rand = .ok o) : ProcStep c (.fault ft va rand) o.ctx
  | loaded {c : Ctx} {l : Load} {r : ReadResult} {rand : Nat} :
    ProcStep c (.loaded l r rand) (c.vmFaultLoaded l r rand).ctx
  | others {c : Ctx} {m : Machine} {t : Tlb} :
      ProcStep c (.others m t) { c with mach := m, tlb := t }

/-- The fields `vm_fault` tests an address against are the same. -/
structure SameLayout (as as' : AddrSpace) : Prop where
  region : as'.asRegion = as.asRegion
  stackvbase : as'.asStackvbase = as.asStackvbase
  heapbase : as'.asHeapbase = as.asHeapbase
  heapvtop : as'.asHeapvtop = as.asHeapvtop
  breakaddr : as'.breakaddr = as.breakaddr

theorem SameLayout.refl (as : AddrSpace) : SameLayout as as := ⟨rfl, rfl, rfl, rfl, rfl⟩

theorem SameLayout.of_eq {as as' : AddrSpace} (h : as' = as) : SameLayout as as' := h ▸ .refl as

/-- The stack has grown to the page of `va`, which none of the other regions claims. -/
structure StackGrown (as as' : AddrSpace) (va : Vaddr) : Prop where
  test : as.mappedRegion va = .ok (some .stack)
  layout : SameLayout { as with asStackvbase := pageOf va } as'

/-- What the STACK test of `vm_fault` says about an address. -/
theorem AddrSpace.mappedRegion_stack (as : AddrSpace) (h : as.mappedRegion va = .ok (some .stack)) :
    (as.asStackvbase - pageSizeW).toNat ≤ va.toNat ∧ va.toNat < 2147483648 := by
  unfold AddrSpace.mappedRegion at h
  split at h
  · split at h
    · cases h
    split at h
    · cases h
    split at h
    · cases h
    split at h
    · rename_i hst
      exact ⟨BitVec.le_def.mp hst.1, BitVec.lt_def.mp hst.2⟩
    · cases h
  · cases h

namespace Ctx

/-- The call has left the address space and the arguments of its process alone. -/
def Same (c c' : Ctx) : Prop := c'.as = c.as ∧ c'.args = c.args

theorem mapZeroed_same (flags : Word) : c.Same (c.mapZeroed va flags).2 := by
  unfold mapZeroed
  split <;> exact ⟨rfl, rfl⟩

variable {lookup : Lookup}

theorem ensureSecond_same (h : c.ensureSecond va lookup = some c') : c.Same c' := by
  unfold ensureSecond at h
  split at h
  · split at h
    · cases h
      exact ⟨rfl, rfl⟩
    · cases h
  · cases h
    exact ⟨rfl, rfl⟩

theorem ensureTable_same (h : c.ensureTable = some c') :
    SameLayout c.as c'.as ∧ c'.args = c.args := by
  unfold ensureTable at h
  split at h
  · split at h
    · cases h
      exact ⟨⟨rfl, rfl, rfl, rfl, rfl⟩, rfl⟩
    · cases h
  · cases h
    exact ⟨.refl _, rfl⟩

theorem mapZero_same (c : Ctx) : c.Same c.mapZero.2 := by
  unfold mapZero
  split
  · exact mapZeroed_same _
  · split
    · rename_i c₁ hc₁
      obtain ⟨has, hargs⟩ := ensureSecond_same hc₁
      exact ⟨(mapZeroed_same _).1.trans has, (mapZeroed_same _).2.trans hargs⟩
    · exact ⟨rfl, rfl⟩
  · exact ⟨rfl, rfl⟩

/-- `sys_sbrk` fails at address 0, or comes to what its second half makes of the break. -/
theorem sysSbrk_cases (c : Ctx) (amount : Word) :
    (∃ e, (c.mapZero.1 = .error e ∨ c.mapZero.1 = .ok () ∧ c.as.moveBreak amount = .error e) ∧
      (c.sysSbrk amount).1 = .error e ∧ (c.sysSbrk amount).2.as = c.as) ∨
    c.mapZero.1 = .ok () ∧ ∃ old as, c.as.moveBreak amount = .ok (old, as) ∧
      (c.sysSbrk amount).1 = .ok old ∧ (c.sysSbrk amount).2.as = as := by
  have has := c.mapZero_same.1
  unfold sysSbrk
  cases hz : c.mapZero with
  | mk r c₁ =>
    rw [hz] at has
    cases r with
    | error e => exact .inl ⟨e, .inl rfl, rfl, has⟩
    | ok u =>
      dsimp only
      rw [has]
      cases hm : c.as.moveBreak amount with
      | error e => exact .inl ⟨e, .inr ⟨rfl, rfl⟩, rfl, has⟩
      | ok x => exact .inr ⟨rfl, x.1, x.2, rfl, rfl, rfl⟩

/-- The page at fault is the new stack base, and the arguments are taken. -/
def StackPage (c : Ctx) (va : Vaddr) (c' : Ctx) : Prop :=
  c'.as = { c.as with asStackvbase := pageOf va } ∧ c'.args = none

theorem startLoad_same (r : Region) : c.Same (c.startLoad r va).ctx := by
  unfold startLoad
  split <;> exact ⟨rfl, rfl⟩

theorem growHeap_same : c.Same (c.growHeap va rand).ctx := by
  unfold growHeap
  split <;> exact ⟨rfl, rfl⟩

theorem growStack_cases : c.Same (c.growStack va rand).ctx ∨
    ∃ c', c.growStack va rand = .done c' ∧ c.StackPage va c' := by
  unfold growStack
  split
  · exact .inr ⟨_, rfl, rfl, rfl⟩
  · exact .inl ⟨rfl, rfl⟩

theorem mapMissing_cases {region : Mapping} :
    c.Same (c.mapMissing va rand region lookup).ctx ∨ region = .stack ∧
      ∃ c', c.mapMissing va rand region lookup = .done c' ∧ c.StackPage va c' := by
  unfold mapMissing
  split
  · exact .inl ⟨rfl, rfl⟩
  rename_i c₁ hc₁
  simp only [Same, StackPage]
  rw [← (ensureSecond_same hc₁).1, ← (ensureSecond_same hc₁).2]
  cases region with
  | code | data => exact .inl (startLoad_same _)
  | heap => exact .inl growHeap_same
  | stack => exact growStack_cases.imp id fun h => ⟨rfl, h⟩

theorem access_cases (c : Ctx) (va : Vaddr) (ft : FaultType) (rand : Nat) (region : Mapping) :
    c.Same (c.access va ft rand region).ctx ∨ region = .stack ∧
      ∃ c', c.access va ft rand region = .done c' ∧ c.StackPage va c' := by
  unfold access
  split
  · exact .inl ⟨rfl, rfl⟩
  · exact mapMissing_cases

theorem modify_same (h : c.modify va = .ok o) : c.Same o.ctx := by
  unfold modify at h
  split at h
  · split at h
    · cases h
      exact ⟨rfl, rfl⟩
    · cases h
      exact ⟨rfl, rfl⟩
  · cases h

/-- The entry that maps an address, in the caller's table. -/
abbrev pte (c : Ctx) (va : Vaddr) : Word :=
  c.mach.entry c.as.pageTable (index1 va) (index2 va)

theorem ptLookup_valid (hft : ft ≠ .readonly) (hv : isValid (c.pte va) = true) :
    c.mach.ptLookup c.as.pageTable va ft =
      (.pteFound, if isReadonly (c.pte va) then c.pte va &&& ~~~tlbloDirty else c.pte va) := by
  obtain ⟨hz, hw⟩ := word_ne_zero_of_valid hv
  rw [ptLookup, if_neg hw, ← entry_eq_word hz hw]
  dsimp only
  rw [if_pos hv]
  cases ft with
  | readonly => exact (hft rfl).elim
  | read | write => rfl

theorem ptLookup_missing (ft : FaultType) (hz : c.as.pageTable ≠ 0#32)
    (hv : ¬ isValid (c.pte va) = true) :
    ∃ lookup, c.mach.ptLookup c.as.pageTable va ft = (lookup, 0#32) ∧
      (lookup = .noSecondLevelPt ∧ c.mach.word c.as.pageTable (index1 va) = 0#32 ∨
        lookup = .invalid ∧ c.mach.word c.as.pageTable (index1 va) ≠ 0#32) := by
  by_cases hw : c.mach.word c.as.pageTable (index1 va) = 0#32
  · exact ⟨_, if_pos hw, .inl ⟨rfl, hw⟩⟩
  · rw [ptLookup, if_neg hw, ← entry_eq_word hz hw]
    exact ⟨_, if_neg hv, .inr ⟨rfl, hw⟩⟩

theorem access_missing (ft : FaultType) (rand : Nat) (region : Mapping)
    (hz : c.as.pageTable ≠ 0#32) (hv : ¬ isValid (c.pte va) = true) :
    ∃ lookup, c.access va ft rand region = c.mapMissing va rand region lookup ∧
      (lookup = .noSecondLevelPt ↔ c.mach.word c.as.pageTable (index1 va) = 0#32) := by
  obtain ⟨lookup, hl, hcase⟩ := ptLookup_missing ft hz hv
  refine ⟨lookup, ?_, ?_⟩
  · rw [access, hl]
    rcases hcase with ⟨rfl, -⟩ | ⟨rfl, -⟩ <;> rfl
  · rcases hcase with ⟨rfl, hw⟩ | ⟨rfl, hw⟩ <;> simp [hw]

/-- A fault leaves the stack and the arguments alone, or maps a page that was missing, makes it the
base and takes the arguments. -/
theorem vmFault_stack (h : c.vmFault ft va rand = .ok o) :
    SameLayout c.as o.ctx.as ∧ o.ctx.args = c.args ∨
      ∃ c', o = .done c' ∧ StackGrown c.as c'.as va ∧ c'.args = none ∧
        isValid (c.pte va) = false := by
  cases vmFault_cases h with
  | noRegion | noTable => exact .inl ⟨.refl _, rfl⟩
  | modify _ htab _ ho =>
    obtain ⟨has, hargs⟩ := modify_same ho
    obtain ⟨hl, hargs₁⟩ := ensureTable_same htab
    exact .inl ⟨has ▸ hl, hargs.trans hargs₁⟩
  | @access region c₁ _ hreg htab hft ho =>
    subst ho
    obtain ⟨hl, hargs₁⟩ := ensureTable_same htab
    rcases c₁.access_cases va ft rand region with ⟨has, hargs⟩ | ⟨rfl, c', hc', has, hargs⟩
    · exact .inl ⟨has ▸ hl, hargs.trans hargs₁⟩
    by_cases hv : isValid (c.pte va) = true
    · -- The page is there already, and the fault only fills the TLB.
      left
      rw [ensureTable, if_neg (word_ne_zero_of_valid hv).1] at htab
      cases htab
      rw [access, ptLookup_valid hft hv]
      exact ⟨.refl _, rfl⟩
    · refine .inr ⟨c', hc', ⟨hreg, ?_⟩, hargs, Bool.eq_false_iff.mpr hv⟩
      rw [has]
      exact ⟨hl.region, rfl, hl.heapbase, hl.heapvtop, hl.breakaddr⟩

theorem vmFaultLoaded_same {l : Load} {r : ReadResult} : c.Same (c.vmFaultLoaded l r rand).ctx := by
  unfold vmFaultLoaded
  dsimp only
  split
  · exact ⟨rfl, rfl⟩
  · split <;> exact ⟨rfl, rfl⟩

end Ctx

section
variable {s t : Sys} {a : Event} {p q : Nat} {mode : Mode}

theorem ctx_put_self : (s.put p c mode).ctx p = c := by
  simp [Sys.put, Sys.ctx]

theorem ctx_put_other (h : p ≠ q) :
    (s.put q c mode).ctx p = { s.ctx p with mach := c.mach, tlb := c.tlb } := by
  simp [Sys.put, Sys.ctx, h]

theorem settle_eq_put : ∃ mode, s.settle p o = s.put p o.ctx mode := by
  cases o with
  | done | failed | loading => exact ⟨_, rfl⟩

/-- The call of `p` that an event is, if it is one. -/
def Issues (s : Sys) (a : Event) (p : Nat) : Call → Prop
  | .sbrk amount => a = .sbrk p amount
  | .fault ft va rand => a = .fault p rand ∧ (s.proc p).mode = .trapped ft va
  | .loaded l r rand => a = .loaded p r rand ∧ (s.proc p).mode = .loading l
  | .others _ _ => True

/-- A step of the paging system is a call of the process, or does no more than change memory and
the TLB for it. -/
theorem step_projects (h : Step s a t) (hp : p < s.next) :
    ∃ call, Issues s a p call ∧ ProcStep (s.ctx p) call (t.ctx p) := by
  have hmem : ∀ (t : Sys), t.proc p = s.proc p →
      ∃ call, Issues s a p call ∧ ProcStep (s.ctx p) call (t.ctx p) := by
    intro t ht
    refine ⟨.others t.mach t.tlb, trivial, ?_⟩
    have hctx : t.ctx p = { s.ctx p with mach := t.mach, tlb := t.tlb } := by
      simp [Sys.ctx, ht]
    rw [hctx]
    exact .others
  have hput : ∀ (q : Nat) (c : Ctx) (mode : Mode),
      (p = q → ∃ call, Issues s a p call ∧ ProcStep (s.ctx p) call c) →
      ∃ call, Issues s a p call ∧ ProcStep (s.ctx p) call ((s.put q c mode).ctx p) := by
    intro q c mode hself
    by_cases hpq : p = q
    · obtain ⟨call, hcall⟩ := hself hpq
      subst hpq
      exact ⟨call, by rw [ctx_put_self]; exact hcall⟩
    · refine ⟨.others c.mach c.tlb, trivial, ?_⟩
      rw [ctx_put_other hpq]
      exact .others
  have hnew : ∀ x : Proc, Function.update s.proc s.next x p = s.proc p :=
    fun x => Function.update_of_ne (Nat.ne_of_lt hp) x s.proc
  cases h with
  | switch | load | store | forkFailed | exit => exact hmem _ rfl
  | @trap q _ _ _ _ _ _ | @copyfail q _ _ _ =>
    refine hput q _ _ ?_
    rintro rfl
    exact ⟨.others s.mach s.tlb, trivial, .others⟩
  | @fault q rand va ft o _ _ hm ho =>
    obtain ⟨mode, hput'⟩ := settle_eq_put (s := s) (p := q) (o := o)
    rw [hput']
    refine hput q _ _ ?_
    rintro rfl
    exact ⟨.fault ft va rand, ⟨rfl, hm⟩, .fault ho⟩
  | @loaded q rand l r _ _ hm =>
    obtain ⟨mode, hput'⟩ := settle_eq_put (s := s) (p := q) (o := (s.ctx q).vmFaultLoaded l r rand)
    rw [hput']
    refine hput q _ _ ?_
    rintro rfl
    exact ⟨.loaded l r rand, ⟨rfl, hm⟩, .loaded⟩
  | fork | start => exact hmem _ (hnew _)
  | @sbrk q amount _ _ =>
    refine hput q _ _ ?_
    rintro rfl
    exact ⟨.sbrk amount, rfl, .sbrk⟩

end

end OS161
