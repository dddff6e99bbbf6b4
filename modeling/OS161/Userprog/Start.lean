import OS161.Userprog.Execv
import OS161.Vm.Pager

/-! `sys_execv` and `runprogram` both start a program; only `runprogram` defines a heap. -/
namespace OS161

variable {call : ExecCall} {s s' : Image} {f : File} {argc n : Nat} {argv stackptr entry : Vaddr}
  {v : Word} {found as : AddrSpace} {past : Region}

/-- The call gets as far as opening the executable `f`. -/
def ExecCall.Opens (call : ExecCall) (v : Word) (f : File) : Prop :=
  ∃ c name argc, call.copyIn = .ok (c, .ok (name, argc)) ∧ call.vfsOpen name = .ok (v, f)

theorem Image.fail_ne_entered {c : ArgCopy} {old : Word} {e : Errno} :
    s.fail c old e ≠ .ok (.entered argc argv stackptr entry s') := by
  intro h
  obtain ⟨_, _, h⟩ := bind_eq_ok.mp h
  split at h
  · cases h
  · obtain ⟨_, _, h⟩ := bind_eq_ok.mp h
    cases h

/-- A call that goes to user mode has made its address space in the block that `as_create` got. -/
theorem ExecCall.load_entered {c : ArgCopy} {name : List Byte}
    (hopen : call.vfsOpen name = .ok (v, f))
    (h : call.load s c name n = .ok (.entered argc argv stackptr entry s')) :
    ∃ addr left as, call.newSpace = some (addr, left) ∧
      f.loadElf (.asCreate left) call.past = .ok (as, entry) ∧ s'.as = { as with v := v } ∧
      s'.args = some (c.strings.take n) ∧ argc = n ∧
      (stackptr, argv) = stackFor n c.strings := by
  simp only [load, hopen] at h
  cases hn : call.newSpace with
  | none =>
    simp only [hn] at h
    obtain ⟨s₁, -, h⟩ := bind_eq_ok.mp h
    exact absurd h Image.fail_ne_entered
  | some p =>
    obtain ⟨addr, left⟩ := p
    simp only [hn] at h
    cases hl : f.loadElf (.asCreate left) call.past with
    | error e =>
      simp only [hl] at h
      obtain ⟨s₁, -, h⟩ := bind_eq_ok.mp h
      exact absurd h Image.fail_ne_entered
    | ok r =>
      obtain ⟨as, entrypoint⟩ := r
      simp only [hl] at h
      obtain ⟨s₁, hs₁, h⟩ := bind_eq_ok.mp h
      obtain rfl := Image.vopIncref_decref hs₁
      obtain ⟨s₂, hs₂, h⟩ := bind_eq_ok.mp h
      obtain rfl := Image.asDestroy_ok hs₂
      cases h
      exact ⟨addr, left, as, rfl, hl, by simp [Image.as], rfl, rfl, rfl⟩

theorem ExecCall.sysExecv_entered (hopen : call.Opens v f)
    (h : call.sysExecv s = .ok (.entered argc argv stackptr entry s')) :
    ∃ addr left as, call.newSpace = some (addr, left) ∧
      f.loadElf (.asCreate left) call.past = .ok (as, entry) ∧ s'.as = { as with v := v } := by
  obtain ⟨c, name, n, hcopy, hopen⟩ := hopen
  obtain ⟨c', r, ⟨_, _, _, _, s₀⟩ | _, hcopy', h, hmark⟩ := sysExecv_ok h <;> cases hmark
  cases hcopy.symm.trans hcopy'
  obtain ⟨addr, left, as, hn, hl, has, -⟩ := load_entered hopen h
  exact ⟨addr, left, as, hn, hl, has⟩

/-- The heap of `runprogram` ends a page or two above the last segment, where `load_elf` put it. -/
theorem Region.heapStart_add_ne (r : Region) : r.heapStart + pageSizeW ≠ r.pVaddr + r.pMemsz := by
  intro h
  have hlt := (r.pVaddr + r.pMemsz).isLt
  have hsize : pageSizeW.toNat = 4096 := rfl
  have hN := congrArg BitVec.toNat h
  simp only [heapStart] at hN
  generalize r.pVaddr + r.pMemsz = top at hN hlt
  split at hN
  · have hpage : (top &&& pageFrame).toNat = top.toNat / 4096 * 4096 := toNat_pageOf top
    rw [BitVec.toNat_add, BitVec.toNat_add, hpage, hsize] at hN
    omega
  · rw [BitVec.toNat_add, hsize] at hN
    omega

/-- `sys_execv` and `runprogram` give a program the same regions, stack, vnode and empty page table.
The end of its heap never agrees, and under `sys_execv` the start of the heap and the break are
whatever the new record's block held before. -/
theorem execv_against_runprogram (hloads : f.loads.length = 2) (hopen : call.Opens v f)
    (hrun : f.runprogram found past v = .ok as)
    (hexec : call.sysExecv s = .ok (.entered argc argv stackptr entry s')) :
    (s'.as.asRegion = as.asRegion ∧ s'.as.asStackvbase = as.asStackvbase ∧ s'.as.v = as.v ∧
      s'.as.pageTable = as.pageTable) ∧
    s'.as.asHeapvtop ≠ as.asHeapvtop ∧
    ∃ addr left, call.newSpace = some (addr, left) ∧ s'.as.asHeapbase = left.asHeapbase ∧
      s'.as.breakaddr = left.breakaddr := by
  obtain ⟨addr, left, as₀, hn, hl, has⟩ := ExecCall.sysExecv_entered hopen hexec
  obtain rfl := File.loadElf_eq hl
  obtain rfl := File.runprogram_eq hrun
  rw [has]
  refine ⟨⟨rfl, rfl, rfl, rfl⟩, ?_, addr, left, hn, rfl, rfl⟩
  have hlast : f.lastLoad call.past = (f.loads.map Phdr.region).getD 1 past := by
    simp [File.lastLoad, hloads]
  simp only [AddrSpace.setupHeap, AddrSpace.asDefineHeap, hlast]
  exact (Region.heapStart_add_ne _).symm

namespace OnePage

/-- `execv` of the program "x" with the pointers `argv`, whose new address space falls on a block
that held `left`. -/
def execArgs (left : AddrSpace) (argv : Nat → Option Word) : ExecCall :=
  { execX fun _ => .ok (1#32, image) with
    newSpace := some (0x80100040#32, left), argv := argv, temp := fun _ => some 0x80100100#32 }

/-- Without arguments. -/
def execOver (left : AddrSpace) : ExecCall := execArgs left fun _ => some 0#32

def noArgs : ArgCopy := ⟨fun i => if i < 10 then 0#32 else deadbeef, [], [], false⟩

theorem copyArgs_execOver (left : AddrSpace) :
    (execOver left).copyArgs 16 0 noArgs = .ok ({ noArgs with unprotected := true }, .ok 0) := by
  rfl

section
variable {left as : AddrSpace} {argv : Nat → Option Word} {c : ArgCopy} {argc : Nat} {sp av : Vaddr}

theorem copyIn_execArgs (h : (execArgs left argv).copyArgs 16 0 noArgs = .ok (c, .ok argc)) :
    (execArgs left argv).copyIn = .ok (c, .ok ([0x78#8], argc)) := by
  have hname : (execArgs left argv).copyinstr 0x10000000#32 30 = .ok [0x78#8] := by rfl
  simp only [execArgs, execX, noArgs] at hname h
  simp only [ExecCall.copyIn, execArgs, execX, hname, h, if_true, bind, Except.bind, pure,
    Except.pure, Except.map]

theorem opens_execOver (left : AddrSpace) : (execOver left).Opens 1#32 image :=
  ⟨_, _, _, copyIn_execArgs (copyArgs_execOver left), rfl⟩

/-- Where the copying succeeds, the call goes to user mode. -/
theorem sysExecv_execArgs
    (hargs : (execArgs left argv).copyArgs 16 0 noArgs = .ok (c, .ok argc))
    (h : image.loadElf (.asCreate left) ⟨0, 0, 0, 0, 0⟩ = .ok (as, 0x400000#32))
    (hstack : stackFor argc c.strings = (sp, av)) :
    ∃ s', (execArgs left argv).sysExecv caller = .ok (.entered argc av sp 0x400000#32 s') ∧
      s'.as = { as with v := 1#32 } ∧ s'.args = some (c.strings.take argc) := by
  simp only [ExecCall.sysExecv, copyIn_execArgs hargs, bind, Except.bind]
  simp only [ExecCall.goOn, ExecCall.load, execArgs, execX, h, hstack]
  exact ⟨_, rfl, rfl, rfl⟩

end

theorem loadElf_zeros : image.loadElf (.asCreate ⟨[], 0, 0, 0, 0, 0, 0⟩) ⟨0, 0, 0, 0, 0⟩
    = .ok (⟨program.asRegion, userstack, 0, 0x10001000#32, 0, 0, 0⟩, 0x400000#32) := by
  decide +kernel

/-- Over a block of zeros. -/
theorem execv_against_runprogram_zeros :
    ∃ s', (execOver ⟨[], 0, 0, 0, 0, 0, 0⟩).sysExecv caller
        = .ok (.entered 0 0x7ffffffc#32 0x7ffffffc#32 0x400000#32 s') ∧
      s'.as.asRegion = program.asRegion ∧ s'.as.asHeapvtop ≠ program.asHeapvtop := by
  obtain ⟨s', hs', -⟩ := sysExecv_execArgs (copyArgs_execOver _) loadElf_zeros rfl
  have h := execv_against_runprogram (by decide +kernel) (opens_execOver _) runprogram_image hs'
  exact ⟨s', hs', h.1.1, h.2.1⟩

/-- A program started by `sys_execv` over a block that was in use before has a heap where the last
user of the block left a number, with the end of the heap in another place; `runprogram` puts both
after the data. -/
theorem execv_leaves_heap :
    image.loads.length = 2 ∧ image.runprogram program ⟨0, 0, 0, 0, 0⟩ 1 = .ok program ∧
    ∃ s', (execOver { program with asHeapbase := deadbeef, breakaddr := deadbeef }).sysExecv caller
        = .ok (.entered 0 0x7ffffffc#32 0x7ffffffc#32 0x400000#32 s') ∧
      s'.as.asHeapbase = deadbeef ∧ s'.as.breakaddr = deadbeef ∧
      s'.as.asHeapvtop = 0x10001000#32 ∧
      program.asHeapbase = 0x10001000#32 ∧ program.breakaddr = 0x10001000#32 ∧
      program.asHeapvtop = 0x10002000#32 := by
  have hload : image.loadElf
      (.asCreate { program with asHeapbase := deadbeef, breakaddr := deadbeef }) ⟨0, 0, 0, 0, 0⟩
      = .ok (⟨program.asRegion, userstack, deadbeef, 0x10001000#32, deadbeef, 0, 1⟩,
        0x400000#32) := by
    decide +kernel
  obtain ⟨s', hs', has, -⟩ := sysExecv_execArgs (copyArgs_execOver _) hload rfl
  refine ⟨by decide +kernel, runprogram_image, s', hs', ?_⟩
  rw [has]
  exact ⟨rfl, rfl, rfl, rfl, rfl, rfl⟩

end OnePage

end OS161
