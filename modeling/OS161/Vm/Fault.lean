import OS161.Vm.AddrSpace
import OS161.Vm.Tlb

/-! `vm_fault`, split where `as_load_page` may sleep in VOP_READ. -/
namespace OS161

/-- What a fault of the current thread works on. -/
structure Ctx where
  mach : Machine
  as : AddrSpace
  tlb : Tlb
  args : Option Args

/-- A page on its way from the executable into its frame. -/
structure Load where
  va : Vaddr
  frame : Vaddr
  v : Word
  offset : Word
  len : Word
  flags : Word

/-- What VOP_READ did: its result and the bytes it moved. -/
structure ReadResult where
  result : Option Errno
  count : Nat
  bytes : Nat → Byte

inductive Outcome where
  | done (c : Ctx)
  | failed (e : Errno) (c : Ctx)
  | loading (l : Load) (c : Ctx)

/-- The arguments of a new program, laid out in its first stack page. -/
def Machine.putArgs (m : Machine) (frame page : Vaddr) : Option Args → Machine
  | some a => m.setPage frame (a.page page)
  | none => m

namespace Ctx
variable (c : Ctx)

/-- The call of `pt_create` for an address space without a table; `none` is ENOMEM. -/
def ensureTable : Option Ctx :=
  if c.as.pageTable = 0#32 then
    match c.mach.ptCreate with
    | (some pt, m) => some { c with mach := m, as := { c.as with pageTable := pt } }
    | (none, _) => none
  else some c

/-- The new second-level table for NO_SECOND_LEVEL_PT; `none` is ENOMEM. -/
def ensureSecond (va : Vaddr) (lookup : Lookup) : Option Ctx :=
  if lookup = .noSecondLevelPt then
    match c.mach.kmallocZeroed with
    | (some second, m) =>
      some { c with mach := m.updateFirstPtEntry c.as.pageTable va second }
    | (none, _) => none
  else some c

/-- `update_second_pt_entry`, then the TLB. -/
def mapAndRefill (va frame : Vaddr) (flags : Word) (rand : Nat) : Ctx :=
  let r := c.mach.updateSecondPtEntry c.as.pageTable va frame flags
  { c with mach := r.2, tlb := c.tlb.refill va r.1 rand }

/-- The first half of `as_load_page`, up to VOP_READ. -/
def startLoad (r : Region) (va : Vaddr) : Outcome :=
  match c.mach.kmallocZeroed with
  | (some frame, m) =>
    .loading ⟨va, frame, c.as.v, r.readOffset va, r.readLen va, r.pFlags⟩ { c with mach := m }
  | (none, _) => .failed .enomem c

def growHeap (va : Vaddr) (rand : Nat) : Outcome :=
  match c.mach.kmallocZeroed with
  | (some frame, m) => .done ({ c with mach := m }.mapAndRefill va frame pfW rand)
  | (none, _) => .failed .enomem c

/-- The new page becomes the stack base; the first one also takes the arguments. -/
def growStack (va : Vaddr) (rand : Nat) : Outcome :=
  match c.mach.kmallocZeroed with
  | (some frame, m) =>
    let c := { c with
      mach := m.putArgs frame (pageOf va) c.args
      as := { c.as with asStackvbase := pageOf va }
      args := none }
    .done (c.mapAndRefill va frame pfW rand)
  | (none, _) => .failed .enomem c

/-- The part of `vm_fault` for a page that is not mapped yet. -/
def mapMissing (va : Vaddr) (rand : Nat) (region : Mapping) (lookup : Lookup) : Outcome :=
  match c.ensureSecond va lookup with
  | none => .failed .enomem c
  | some c =>
    match region with
    | .code => c.startLoad (c.as.asRegion.getD 0 ⟨0, 0, 0, 0, 0⟩) va
    | .data => c.startLoad (c.as.asRegion.getD 1 ⟨0, 0, 0, 0, 0⟩) va
    | .heap => c.growHeap va rand
    | .stack => c.growStack va rand

/-- The part of `vm_fault` for VM_FAULT_READONLY. A page without write permission is met with a
panic where the process should be killed. -/
def modify (va : Vaddr) : Except Crash Outcome :=
  match c.mach.ptLookup c.as.pageTable va .readonly with
  | (.writePermitted, _) =>
    match c.mach.ptCopyOnWrite c.as.pageTable va with
    | (.error e, m) => .ok (.failed e { c with mach := m })
    | (.ok entrylo, m) =>
      let page := pageOf va
      .ok (.done { c with mach := m, tlb := c.tlb.write page entrylo (c.tlb.probeSlot page) })
  | _ => .error .panic

def access (va : Vaddr) (ft : FaultType) (rand : Nat) (region : Mapping) : Outcome :=
  match c.mach.ptLookup c.as.pageTable va ft with
  | (.pteFound, entrylo) => .done { c with tlb := c.tlb.refill va entrylo rand }
  | (lookup, _) => c.mapMissing va rand region lookup

def vmFault (ft : FaultType) (va : Vaddr) (rand : Nat) : Except Crash Outcome := do
  c.as.checkSetup
  match ← c.as.mappedRegion va with
  | none => return .failed .efault c
  | some region =>
    match c.ensureTable with
    | none => return .failed .enomem c
    | some c =>
      match ft with
      | .readonly => c.modify va
      | _ => return c.access va ft rand region

/-- What a call of `vm_fault` that returns has come to. -/
inductive FaultCase (ft : FaultType) (va : Vaddr) (rand : Nat) : Outcome → Prop where
  | noRegion (h : c.as.mappedRegion va = .ok none) : FaultCase ft va rand (.failed .efault c)
  | noTable (h : c.ensureTable = none) : FaultCase ft va rand (.failed .enomem c)
  | modify {region : Mapping} {c' : Ctx} {o : Outcome}
      (hreg : c.as.mappedRegion va = .ok (some region)) (htab : c.ensureTable = some c')
      (hft : ft = .readonly) (ho : c'.modify va = .ok o) : FaultCase ft va rand o
  | access {region : Mapping} {c' : Ctx} {o : Outcome}
      (hreg : c.as.mappedRegion va = .ok (some region)) (htab : c.ensureTable = some c')
      (hft : ft ≠ .readonly) (ho : o = c'.access va ft rand region) : FaultCase ft va rand o

theorem vmFault_cases {c : Ctx} {ft : FaultType} {va : Vaddr} {rand : Nat} {o : Outcome}
    (h : c.vmFault ft va rand = .ok o) : c.FaultCase ft va rand o := by
  simp only [vmFault, bind, Except.bind, pure, Except.pure] at h
  split at h
  · cases h
  split at h
  · cases h
  split at h
  · rename_i hreg
    cases h
    exact .noRegion hreg
  rename_i hreg
  split at h
  · rename_i htab
    cases h
    exact .noTable htab
  rename_i htab
  split at h
  · exact .modify hreg htab rfl h
  rename_i hft
  cases h
  exact .access hreg htab hft rfl

/-- The rest of `as_load_page` and of `vm_fault`, once VOP_READ has returned. On an error the
frame is not given back. -/
def vmFaultLoaded (l : Load) (r : ReadResult) (rand : Nat) : Outcome :=
  let count := min r.count l.len.toNat
  let c := { c with
    mach := c.mach.setPage l.frame (packPage fun n => if n < count then r.bytes n else 0#8) }
  match r.result with
  | some e => .failed e c
  | none =>
    if count = l.len.toNat then .done (c.mapAndRefill l.va l.frame l.flags rand)
    else .failed .enoexec c

end Ctx

end OS161
