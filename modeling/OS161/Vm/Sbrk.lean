import OS161.Vm.Fault

/-! `sys_sbrk`: the page it maps at address 0, then the break and the heap top. -/
namespace OS161

namespace AddrSpace
variable (as : AddrSpace) (amount : Word)

/-- The break and the heap top after `sys_sbrk`, in 32-bit arithmetic; both branches return the
old break and test the new one against the stack base. -/
def moveBreak : Except Errno (Vaddr × AddrSpace) :=
  let newBreak := as.breakaddr + amount
  let pageEnd := (as.breakaddr &&& pageFrame) + pageSizeW
  if newBreak ≤ pageEnd then
    if newBreak ≤ as.asStackvbase then .ok (as.breakaddr, { as with breakaddr := newBreak })
    else .error .enomem
  else
    let pagen := (newBreak - pageEnd) / pageSizeW + 1
    if newBreak ≤ as.asStackvbase then
      .ok (as.breakaddr,
        { as with breakaddr := newBreak, asHeapvtop := (pagen + 1) * pageSizeW + as.asHeapvtop })
    else .error .enomem

end AddrSpace

namespace Ctx
variable (c : Ctx)

/-- A zeroed page mapped at `va`, without an entry in the TLB. -/
def mapZeroed (va : Vaddr) (flags : Word) : Except Errno Unit × Ctx :=
  match c.mach.kmallocZeroed with
  | (some frame, m) =>
    (.ok (), { c with mach := (m.updateSecondPtEntry c.as.pageTable va frame flags).2 })
  | (none, _) => (.error .enomem, c)

/-- The head of `sys_sbrk`, which looks up and maps address 0. In a new second-level table the
entry gets flags 1, so no write permission. -/
def mapZero : Except Errno Unit × Ctx :=
  match c.mach.ptLookup c.as.pageTable 0#32 .write with
  | (.invalid, _) => c.mapZeroed 0#32 pfW
  | (.noSecondLevelPt, _) =>
    match c.ensureSecond 0#32 .noSecondLevelPt with
    | some c => c.mapZeroed 0#32 1#32
    | none => (.error .enomem, c)
  | _ => (.ok (), c)

def sysSbrk (amount : Word) : Except Errno Vaddr × Ctx :=
  match c.mapZero with
  | (.error e, c) => (.error e, c)
  | (.ok (), c) =>
    match c.as.moveBreak amount with
    | .ok (old, as) => (.ok old, { c with as := as })
    | .error e => (.error e, c)

end Ctx

end OS161
