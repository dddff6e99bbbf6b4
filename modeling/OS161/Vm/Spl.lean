import OS161.Vm.Layout

/-! `vm_fault` raises the interrupt level and has to put it back at each of its exits. -/
namespace OS161

def splHigh : Int := 15

/-- What runs with `curspl` at hand. -/
abbrev AtSpl := StateT Int (Except Crash)

def splx (newspl : Int) : AtSpl Int := do
  let oldspl ← get
  set newspl
  return oldspl

def splhigh : AtSpl Int := splx splHigh

namespace AtSpl
variable {α β : Type} {x : AtSpl α} {f : α → AtSpl β} {e : Except Crash α} {a : α} {b : β}
  {curspl curspl' : Int}

theorem run_bind : (x >>= f).run curspl = .ok (b, curspl') ↔
    ∃ a mid, x.run curspl = .ok (a, mid) ∧ (f a).run mid = .ok (b, curspl') := by
  rw [StateT.run_bind, bind_eq_ok, Prod.exists]

theorem lift_eq_ok : (liftM e : AtSpl α).run curspl = .ok (a, curspl') ↔
    e = .ok a ∧ curspl' = curspl := by
  cases e with
  | error c =>
    constructor
    · intro h
      cases h
    · rintro ⟨h, -⟩
      cases h
  | ok y =>
    constructor
    · intro h
      cases h
      exact ⟨rfl, rfl⟩
    · rintro ⟨h, rfl⟩
      cases h
      rfl

end AtSpl

/-- `faulttype`: VM_FAULT_READ, VM_FAULT_WRITE, VM_FAULT_READONLY or something else. -/
def faultTypeOf (n : Int) : Option FaultType :=
  if n = 0 then some .read
  else if n = 1 then some .write
  else if n = 2 then some .readonly
  else none

/-- A call of VOP_READ: its result, and the context after it. -/
abbrev VopRead := Load → Ctx → ReadResult × Ctx

/-- How the parts of `vm_fault` that map a page return: the update of the TLB puts the level back,
the errors do not. -/
def Outcome.exit (read : VopRead) (rand : Nat) (spl : Int) :
    Outcome → AtSpl (Option Errno × Option Ctx)
  | .failed e c => return (some e, some c)
  | .done c => do
    let _ ← splx spl
    return (none, some c)
  | .loading l c =>
    match (read l c).2.vmFaultLoaded l (read l c).1 rand with
    | .failed e c => return (some e, some c)
    | o => do
      let _ ← splx spl
      return (none, some o.ctx)

section
variable (read : VopRead) (faulttype : Int) (va : Vaddr) (rand : Nat)

/-- `vm_fault` from the point on where the address is known to be in one of the parts. -/
def Ctx.faultIn (spl : Int) (c : Ctx) (region : Mapping) : AtSpl (Option Errno × Option Ctx) :=
  match c.ensureTable with
  | none => return (some .enomem, some c)
  | some c =>
    match faultTypeOf faulttype with
    | some .readonly => do
      let o ← c.modify va
      o.exit read rand spl
    | some ft => (c.access va ft rand region).exit read rand spl
    | none => do
      let _ ← splx spl
      return (some .einval, some c)

/-- `vm_fault`; there is no context where `curthread->t_vmspace` is NULL. -/
def vmFaultSpl (c : Option Ctx) : AtSpl (Option Errno × Option Ctx) := do
  let spl ← splhigh
  match c with
  | none => return (some .efault, none)
  | some c =>
    c.as.checkSetup
    match ← c.as.mappedRegion va with
    | none =>
      let _ ← splx spl
      return (some .efault, some c)
    | some region => c.faultIn read faulttype va rand spl region

end

/-- VOP_READ fails, or is short. -/
def ReadFails (read : VopRead) (l : Load) (c : Ctx) : Prop :=
  (read l c).1.result ≠ none ∨ (read l c).1.count < l.len.toNat

namespace Ctx
variable (read : VopRead) (c : Ctx) (va : Vaddr)

/-- There is no frame for `as_load_page`, or its read fails. -/
def LoadFails (r : Region) : Prop :=
  ∀ frame m, c.mach.kmallocZeroed = (some frame, m) →
    ReadFails read ⟨va, frame, c.as.v, r.readOffset va, r.readLen va, r.pFlags⟩
      { c with mach := m }

/-- There is no new page for this part of the address space. -/
def NewPageFails : Mapping → Prop
  | .code => c.LoadFails read va (c.as.asRegion.getD 0 ⟨0, 0, 0, 0, 0⟩)
  | .data => c.LoadFails read va (c.as.asRegion.getD 1 ⟨0, 0, 0, 0, 0⟩)
  | _ => c.mach.kmallocZeroed.1 = none

/-- The page is not mapped, and there is no second-level table or no page for it. -/
def AccessFails (ft : FaultType) (region : Mapping) : Prop :=
  (c.mach.ptLookup c.as.pageTable va ft).1 ≠ .pteFound ∧
    ∀ c', c.ensureSecond va (c.mach.ptLookup c.as.pageTable va ft).1 = some c' →
      c'.NewPageFails read va region

/-- The page may be written, and there is no frame for its copy. -/
def CopyFails : Prop :=
  (c.mach.ptLookup c.as.pageTable va .readonly).1 = .writePermitted ∧
    ∃ e, (c.mach.ptCopyOnWrite c.as.pageTable va).1 = .error e

def FaultFails (region : Mapping) : Option FaultType → Prop
  | some .readonly => c.CopyFails va
  | some ft => c.AccessFails read va ft region
  | none => False

end Ctx

/-- There is no address space; or the address is in one of its parts, and there is no first-level
table or the rest fails. -/
def ForgetsSpl (read : VopRead) (faulttype : Int) (va : Vaddr) : Option Ctx → Prop
  | none => True
  | some c => ∃ region, c.as.mappedRegion va = .ok (some region) ∧
      ∀ c', c.ensureTable = some c' → c'.FaultFails read va region (faultTypeOf faulttype)

def Outcome.Fails (read : VopRead) : Outcome → Prop
  | .failed _ _ => True
  | .done _ => False
  | .loading l c => ReadFails read l c

section
variable {read : VopRead} {c : Ctx} {va : Vaddr} {rand : Nat} {region : Mapping} {o : Outcome}
  {spl curspl curspl' : Int} {faulttype : Int} {r : Option Errno × Option Ctx}

theorem vmFaultLoaded_failed_iff {l : Load} {rr : ReadResult} :
    (∃ e c', c.vmFaultLoaded l rr rand = .failed e c') ↔
      rr.result ≠ none ∨ rr.count < l.len.toNat := by
  unfold Ctx.vmFaultLoaded
  cases hres : rr.result with
  | some e => simp
  | none =>
    by_cases hlen : rr.count < l.len.toNat
    · have hne : min rr.count l.len.toNat ≠ l.len.toNat := by omega
      simp [hne, hlen]
    · have heq : min rr.count l.len.toNat = l.len.toNat := by omega
      simp [heq, hlen]

theorem Outcome.exit_level (h : (o.exit read rand spl).run curspl = .ok (r, curspl')) :
    o.Fails read ∧ curspl' = curspl ∨ ¬ o.Fails read ∧ curspl' = spl := by
  cases o with
  | failed e c =>
    cases h
    exact .inl ⟨trivial, rfl⟩
  | done c =>
    cases h
    exact .inr ⟨id, rfl⟩
  | loading l c =>
    have hiff : (∃ e c', (read l c).2.vmFaultLoaded l (read l c).1 rand = .failed e c') ↔
        ReadFails read l c := vmFaultLoaded_failed_iff
    rw [Outcome.Fails, ← hiff]
    unfold Outcome.exit at h
    dsimp only at h
    split at h
    · rename_i e c' heq
      cases h
      exact .inl ⟨⟨e, c', heq⟩, rfl⟩
    rename_i hne
    cases h
    refine .inr ⟨?_, rfl⟩
    rintro ⟨e, c', heq⟩
    exact hne e c' heq

theorem Ctx.modify_fails (h : c.modify va = .ok o) : o.Fails read ↔ c.CopyFails va := by
  unfold Ctx.modify at h
  split at h
  · rename_i hl
    rw [CopyFails, hl]
    split at h
    · rename_i hcopy
      cases h
      simp [Outcome.Fails, hcopy]
    · rename_i hcopy
      cases h
      simp [Outcome.Fails, hcopy]
  · cases h

theorem Ctx.startLoad_fails {x : Region} :
    (c.startLoad x va).Fails read ↔ c.LoadFails read va x := by
  unfold Ctx.startLoad Ctx.LoadFails
  split
  · rename_i hk
    simp [Outcome.Fails, hk]
  · rename_i hk
    simp [Outcome.Fails, hk]

theorem Ctx.mapMissing_fails {lookup : Lookup} :
    (c.mapMissing va rand region lookup).Fails read ↔
      ∀ c', c.ensureSecond va lookup = some c' → c'.NewPageFails read va region := by
  unfold Ctx.mapMissing
  split
  · rename_i hnone
    simp [Outcome.Fails, hnone]
  rename_i c' hsome
  rw [hsome]
  have hgoal : ∀ {P : Ctx → Prop}, (∀ c'', some c' = some c'' → P c'') ↔ P c' := by simp
  rw [hgoal]
  cases region with
  | code | data => exact startLoad_fails
  | heap =>
    show (c'.growHeap va rand).Fails read ↔ c'.mach.kmallocZeroed.1 = none
    unfold Ctx.growHeap
    split <;> simp [Outcome.Fails, *]
  | stack =>
    show (c'.growStack va rand).Fails read ↔ c'.mach.kmallocZeroed.1 = none
    unfold Ctx.growStack
    split <;> simp [Outcome.Fails, *]

variable {ft : FaultType}

theorem Ctx.access_fails :
    (c.access va ft rand region).Fails read ↔ c.AccessFails read va ft region := by
  unfold Ctx.access Ctx.AccessFails
  split
  · rename_i hl
    simp [Outcome.Fails, hl]
  rename_i hl hl'
  rw [hl', mapMissing_fails]
  simp only [ne_eq, iff_and_self]
  exact fun _ => hl

theorem Ctx.faultIn_level
    (h : (c.faultIn read faulttype va rand spl region).run splHigh = .ok (r, curspl')) :
    (∀ c', c.ensureTable = some c' → c'.FaultFails read va region (faultTypeOf faulttype)) ∧
        curspl' = splHigh ∨
      ¬ (∀ c', c.ensureTable = some c' →
        c'.FaultFails read va region (faultTypeOf faulttype)) ∧ curspl' = spl := by
  unfold Ctx.faultIn at h
  split at h
  · rename_i hnone
    cases h
    simp [hnone]
  rename_i c' hsome
  simp only [hsome, Option.some.injEq, forall_eq']
  split at h
  · rename_i hft
    obtain ⟨o, _, hlift, h⟩ := AtSpl.run_bind.mp h
    obtain ⟨ho, rfl⟩ := AtSpl.lift_eq_ok.mp hlift
    rw [hft, Ctx.FaultFails, ← modify_fails ho]
    exact Outcome.exit_level h
  · rename_i ft hne hft
    rw [hft, Ctx.FaultFails, ← access_fails]
    · exact Outcome.exit_level h
    · exact hne
  · rename_i hft
    cases h
    rw [hft]
    exact .inr ⟨id, rfl⟩

/-- The level at the return of `vm_fault`. -/
theorem vmFaultSpl_level {c : Option Ctx}
    (h : (vmFaultSpl read faulttype va rand c).run curspl = .ok (r, curspl')) :
    ForgetsSpl read faulttype va c ∧ curspl' = splHigh ∨
      ¬ ForgetsSpl read faulttype va c ∧ curspl' = curspl := by
  obtain ⟨spl, _, hspl, h⟩ := AtSpl.run_bind.mp h
  cases hspl
  cases c with
  | none =>
    cases h
    exact .inl ⟨trivial, rfl⟩
  | some c =>
    obtain ⟨u, _, hchk, h⟩ := AtSpl.run_bind.mp h
    obtain ⟨-, rfl⟩ := AtSpl.lift_eq_ok.mp hchk
    obtain ⟨found, _, hlift, h⟩ := AtSpl.run_bind.mp h
    obtain ⟨hreg, rfl⟩ := AtSpl.lift_eq_ok.mp hlift
    unfold ForgetsSpl
    cases found with
    | none =>
      cases h
      exact .inr ⟨by simp [hreg], rfl⟩
    | some region =>
      simp only [hreg, Except.ok.injEq, Option.some.injEq, exists_eq_left']
      exact Ctx.faultIn_level h

def Outcome.error : Outcome → Option Errno
  | .failed e _ => some e
  | _ => none

/-- What a fault returns once its page is loaded, and leaves. -/
def Outcome.returned (read : VopRead) (rand : Nat) : Outcome → Option Errno × Option Ctx
  | .loading l c =>
    let o := (read l c).2.vmFaultLoaded l (read l c).1 rand
    (o.error, some o.ctx)
  | o => (o.error, some o.ctx)

theorem Outcome.exit_returned (o : Outcome) :
    ((o.exit read rand spl).run curspl).map Prod.fst = .ok (o.returned read rand) := by
  cases o with
  | failed | done => rfl
  | loading l c =>
    unfold Outcome.exit Outcome.returned
    dsimp only
    split
    · rename_i heq
      rw [heq]
      rfl
    · rename_i hne
      cases ho : (read l c).2.vmFaultLoaded l (read l c).1 rand with
      | failed e c' => exact absurd ho (hne e c')
      | done | loading => rfl

theorem Ctx.faultIn_returned (hft : faultTypeOf faulttype = some ft)
    (hchk : c.as.checkSetup = .ok ()) (hreg : c.as.mappedRegion va = .ok (some region)) :
    ((c.faultIn read faulttype va rand spl region).run curspl).map Prod.fst =
      (c.vmFault ft va rand).map (Outcome.returned read rand) := by
  unfold Ctx.faultIn Ctx.vmFault
  rw [hchk, hreg]
  cases htab : c.ensureTable with
  | none => rfl
  | some c' =>
    cases ft with
    | readonly =>
      cases hmod : c'.modify va with
      | error e =>
        simp only [hft, hmod]
        rfl
      | ok o =>
        simp only [hft, hmod]
        exact Outcome.exit_returned o
    | read | write =>
      simp only [hft]
      exact Outcome.exit_returned _

theorem vmFaultSpl_returned (hft : faultTypeOf faulttype = some ft) :
    ((vmFaultSpl read faulttype va rand (some c)).run curspl).map Prod.fst =
      (c.vmFault ft va rand).map (Outcome.returned read rand) := by
  cases hchk : c.as.checkSetup with
  | error e =>
    unfold Ctx.vmFault
    simp only [vmFaultSpl, StateT.run_bind, hchk]
    rfl
  | ok u =>
    cases hreg : c.as.mappedRegion va with
    | error e =>
      unfold Ctx.vmFault
      simp only [vmFaultSpl, StateT.run_bind, hchk, hreg]
      rfl
    | ok found =>
      cases found with
      | none =>
        unfold Ctx.vmFault
        simp only [vmFaultSpl, StateT.run_bind, hchk, hreg]
        rfl
      | some region =>
        rw [← Ctx.faultIn_returned hft hchk hreg]
        simp only [vmFaultSpl, StateT.run_bind, hchk, hreg]
        rfl

/-- `vm_fault` returns with the level on entry exactly if that was the high one, or the call leaves
by none of the exits that forget it. Apart from the level the fault is that of `vmFault`. -/
theorem vmFault_restores_iff (read : VopRead) (c : Option Ctx) (faulttype : Int) (va : Vaddr)
    (rand : Nat) (curspl : Int) {r : Option Errno × Option Ctx} {curspl' : Int}
    (h : (vmFaultSpl read faulttype va rand c).run curspl = .ok (r, curspl')) :
    (curspl' = curspl ↔ curspl = splHigh ∨ ¬ ForgetsSpl read faulttype va c) ∧
      ∀ c₀ ft, c = some c₀ → faultTypeOf faulttype = some ft →
        (c₀.vmFault ft va rand).map (Outcome.returned read rand) = .ok r := by
  refine ⟨?_, ?_⟩
  · rcases vmFaultSpl_level h with ⟨hf, rfl⟩ | ⟨hf, rfl⟩
    · simp only [hf, not_true_eq_false, or_false]
      exact eq_comm
    · simp only [hf, not_false_eq_true, or_true]
  · rintro c₀ ft rfl hft
    exact (vmFaultSpl_returned hft).symm.trans (congrArg (Except.map Prod.fst) h)

end

namespace OnePage

/-- A read that finds nothing. -/
def emptyRead : VopRead := fun _ c => (⟨none, 0, fun _ => 0#8⟩, c)

/-- The program's first touch of its stack, with interrupts on. -/
theorem vmFault_restores_stack :
    ∃ r, (vmFaultSpl emptyRead 1 stackVa 0 (some (running.ctx 0))).run 0 = .ok (r, 0) := by
  have hrun : ∃ r curspl',
      (vmFaultSpl emptyRead 1 stackVa 0 (some (running.ctx 0))).run 0 = .ok (r, curspl') :=
    ⟨_, _, rfl⟩
  obtain ⟨r, curspl', h⟩ := hrun
  have hkeeps : ¬ ForgetsSpl emptyRead 1 stackVa (some (running.ctx 0)) := by
    rintro ⟨region, hreg, hall⟩
    have hstack : (running.ctx 0).as.mappedRegion stackVa = .ok (some .stack) := rfl
    cases hstack.symm.trans hreg
    obtain ⟨-, hpage⟩ := hall _ rfl
    exact Option.some_ne_none _ (hpage _ rfl)
  have hlevel := (vmFault_restores_iff _ _ _ _ _ _ h).1.mpr (.inr hkeeps)
  exact ⟨r, hlevel ▸ h⟩

/-- The same program when the six frames are taken. -/
def starved : Ctx :=
  { running.ctx 0 with mach := Nat.repeat (fun m => m.kmallocPage.2) 6 running.mach }

/-- The fault finds no frame and returns ENOMEM with interrupts off. -/
theorem vmFault_forgets_level :
    (vmFaultSpl emptyRead 1 stackVa 0 (some starved)).run 0 =
      .ok ((some .enomem, some starved), 15) :=
  rfl

end OnePage

end OS161
