import OS161.Userprog.Elf
import OS161.Vm.System

/-! `sys_execv` with every way out of it. What it meets on its way is given with the call. -/
namespace OS161

open Function (update update_self update_of_ne)

/-- What `sys_execv` works on. `refs` counts the references to the vnode at an address; where there
are none there is no vnode. -/
structure Image where
  mach : Machine
  tlb : Tlb
  space : Word → AddrSpace
  tVmspace : Word
  refs : Word → Nat
  /-- `curthread->args`, as far as `curthread->argc`. -/
  args : Option (List (List Byte))
  /-- Ghost: the call has read user memory without `copyin`. -/
  unprotected : Bool

namespace Image
variable (s : Image)

/-- The address space of the current thread. -/
def as : AddrSpace := s.space s.tVmspace

def vopIncref (v : Word) : Image := { s with refs := update s.refs v (s.refs v + 1) }

/-- VOP_DECREF; the last reference takes the vnode with it. -/
def vopDecref (v : Word) : Except Crash Image :=
  if s.refs v = 0 then .error .badPointer
  else .ok { s with refs := update s.refs v (s.refs v - 1) }

/-- `as_destroy`, which frees what the address space holds but not the record itself. -/
def asDestroy (addr : Word) : Except Crash Image :=
  if addr = 0#32 then .error .nullDeref
  else
    let as := s.space addr
    let s := { s with
      mach := if as.pageTable = 0#32 then s.mach else s.mach.ptDeepDestroy as.pageTable }
    if as.v = 0#32 then .ok s else s.vopDecref as.v

end Image

/-- A call of `sys_execv` and what it meets. -/
structure ExecCall where
  progname : Vaddr
  /-- `arg[i]`, read straight from user memory. -/
  argv : Nat → Option Word
  user : Vaddr → Option Byte
  /-- The words of the block `kmalloc` returns for `ARG`. -/
  argBlock : Option (Nat → Word)
  /-- Whether `kmalloc` has a block for `PROGNAME`. -/
  nameBlock : Bool
  /-- The block for the copy of an argument. -/
  temp : Nat → Option Word
  vfsOpen : List Byte → Except Errno (Word × File)
  /-- The block `as_create` gets, and what stood there. -/
  newSpace : Option (Word × AddrSpace)
  past : Region

/-- `ARG`, the blocks of the arguments and the strings in them. -/
structure ArgCopy where
  arg : Nat → Word
  blocks : List Word
  strings : List (List Byte)
  unprotected : Bool

inductive ExecResult where
  | entered (argc : Nat) (argv stackptr entrypoint : Vaddr) (s : Image)
  | failed (e : Errno) (s : Image)

def ExecResult.image : ExecResult → Image
  | entered _ _ _ _ s => s
  | failed _ s => s

def ExecResult.mark (unprotected : Bool) : ExecResult → ExecResult
  | entered argc argv stackptr entrypoint s =>
    entered argc argv stackptr entrypoint { s with unprotected := unprotected }
  | failed e s => failed e { s with unprotected := unprotected }

/-- `copycheck`: how much of the `len` bytes lies below USERTOP. -/
def copycheck (userptr : Vaddr) (len : Nat) : Except Errno Nat :=
  let top := userptr + BitVec.ofNat 32 len - 1#32
  if top < userptr then .error .efault
  else if userstack ≤ userptr then .error .efault
  else if userstack ≤ top then .ok (userstack - userptr).toNat
  else .ok len

def deadbeef : Word := 0xdeadbeef#32

namespace ExecCall
variable (call : ExecCall)

/-- The loop of `copystr` over the bytes from `src` on; `e` is what it returns at the limit. -/
def copystr (e : Errno) : Nat → Vaddr → Except Errno (List Byte)
  | 0, _ => .error e
  | n + 1, src =>
    match call.user src with
    | none => .error .efault
    | some b => if b = 0#8 then .ok [] else (b :: ·) <$> copystr e n (src + 1#32)

def copyinstr (usersrc : Vaddr) (len : Nat) : Except Errno (List Byte) := do
  let stoplen ← copycheck usersrc len
  call.copystr (if stoplen < len then .efault else .enametoolong) (min len stoplen) usersrc

/-- The loop over the arguments from the `i`th on; `arg[i]` and the string whose length is taken are
read as they are. A vector without a NULL among its first 16 words counts as empty. -/
def copyArgs : Nat → Nat → ArgCopy → Except Crash (ArgCopy × Except Errno Nat)
  | 0, _, c => .ok (c, .ok 0)
  | n + 1, i, c =>
    match call.argv i with
    | none => .error .panic
    | some ptr =>
      let c := { c with unprotected := true }
      if ptr = 0#32 then .ok (c, .ok i)
      else
        match call.temp i with
        | none => .ok (c, .error .enomem)
        | some temp =>
          match call.copyinstr ptr 30 with
          | .error e => .ok ({ c with blocks := temp :: c.blocks }, .error e)
          | .ok s =>
            copyArgs n (i + 1) { c with
              arg := update c.arg i temp, blocks := temp :: c.blocks, strings := c.strings ++ [s] }

/-- Everything up to the end of the copying from user level. `ARG` is written to before it is
tested, and only ten of its words are. -/
def copyIn : Except Crash (ArgCopy × Except Errno (List Byte × Nat)) :=
  match call.argBlock with
  | none => .error .nullDeref
  | some found =>
    let c : ArgCopy := ⟨fun i => if i < 10 then 0#32 else found i, [], [], false⟩
    if call.nameBlock then
      match call.copyinstr call.progname 30 with
      | .error e => .ok (c, .error e)
      | .ok name => do
        let r ← call.copyArgs 16 0 c
        return (r.1, r.2.map (name, ·))
    else .ok (c, .error .enomem)

end ExecCall

/-- One turn of the loop that frees the arguments; `blocks` are those that are allocated. -/
def ArgCopy.kfreeArg (c : ArgCopy) (blocks : List Word) (i : Nat) : Except Crash (List Word) :=
  if c.arg i = 0#32 ∨ c.arg i = deadbeef then .ok blocks
  else if c.arg i ∈ blocks then .ok (blocks.erase (c.arg i))
  else .error .badPointer

/-- The label `fail`. -/
def Image.fail (s : Image) (c : ArgCopy) (oldAddr : Word) (e : Errno) :
    Except Crash ExecResult := do
  let _ ← (List.range 16).foldlM c.kfreeArg c.blocks
  if oldAddr = 0#32 then return .failed e s
  else
    let s ← s.asDestroy s.tVmspace
    return .failed e { s with tVmspace := oldAddr, tlb := asActivate }

/-- The stack pointer below the arguments and the address of `argv`. -/
def stackFor (argc : Nat) (strings : List (List Byte)) : Vaddr × Vaddr :=
  let sum := BitVec.ofNat 32 ((strings.take argc).map fun s => s.length + 1).sum
  let stackptr := userstack - (BitVec.ofNat 32 ((argc + 1) * 4) + sum)
  (stackptr, stackptr + sum)

/-- `sys_execv` from the saving of the old address space on. The tests of `PROGNAME` and `old_addr`
against 0xdeadbeef are left out: `kmalloc` returns addresses in kseg0. -/
def ExecCall.load (call : ExecCall) (s : Image) (c : ArgCopy) (name : List Byte) (argc : Nat) :
    Except Crash ExecResult :=
  let oldAddr := s.tVmspace
  match call.vfsOpen name with
  | .error e => s.fail c oldAddr e
  | .ok (v, file) =>
    let s := s.vopIncref v
    match call.newSpace with
    | none => do
      let s ← s.vopDecref v
      { s with tVmspace := 0#32 }.fail c oldAddr .enomem
    | some (addr, found) =>
      let new := AddrSpace.asCreate found
      let s := { s with
        space := update s.space addr new, tVmspace := addr, tlb := asActivate }
      match file.loadElf new call.past with
      | .error e => do
        let s ← s.vopDecref v
        s.fail c oldAddr e
      | .ok (as, entrypoint) => do
        let s := { s with space := update s.space addr { as with v := v } }
        let s ← (s.vopIncref v).vopDecref v
        let s ← { s with args := some (c.strings.take argc) }.asDestroy oldAddr
        let stack := stackFor argc c.strings
        return .entered argc stack.2 stack.1 entrypoint s

/-- The call once the copying is over, with what it came to. -/
def ExecCall.goOn (call : ExecCall) (s : Image) (c : ArgCopy) :
    Except Errno (List Byte × Nat) → Except Crash ExecResult
  | .error e => s.fail c 0#32 e
  | .ok (name, argc) => call.load s c name argc

def ExecCall.sysExecv (call : ExecCall) (s : Image) : Except Crash ExecResult := do
  let r ← call.copyIn
  let result ← call.goOn s r.1 r.2
  return result.mark r.1.unprotected

/-- The caller's image is as it was: the same address space with the same regions, page table,
frames and reference on its executable. -/
structure Image.Kept (s s' : Image) : Prop where
  vmspace : s'.tVmspace = s.tVmspace
  space : s'.space s.tVmspace = s.as
  table : ∀ i j, s'.mach.entry s.as.pageTable i j = s.mach.entry s.as.pageTable i j
  frames : ∀ f, s'.mach.coremap.entries f = s.mach.coremap.entries f
  vnode : s'.refs s.as.v = s.refs s.as.v

/-- A process holds a reference on its executable. -/
structure Image.Process (s : Image) : Prop where
  vmspace : s.tVmspace ≠ 0#32
  v : s.as.v ≠ 0#32
  refs : s.refs s.as.v ≠ 0

/-- What the blocks of `kmalloc` are: the new address space's is not in use, and the words of `ARG`
that the call frees without having written them are none that it gives to `kfree`. -/
structure ExecCall.Fresh (call : ExecCall) (s : Image) : Prop where
  space : ∀ addr found, call.newSpace = some (addr, found) → addr ≠ 0#32 ∧ addr ≠ s.tVmspace
  arg : ∀ found, call.argBlock = some found → ∀ i, 10 ≤ i → i < 16 →
    found i = 0#32 ∨ found i = deadbeef

/-- If the call gets to open the program, the program is there, and the word that stood in the place
of the new address space's vnode is not the caller's own. -/
def ExecCall.Harmless (call : ExecCall) (s : Image) : Prop :=
  ∀ c name argc, call.copyIn = .ok (c, .ok (name, argc)) →
    (call.vfsOpen name).isOk ∧
      ∀ addr found, call.newSpace = some (addr, found) → found.v ≠ s.as.v

section
variable {call : ExecCall} {s s' s₁ : Image} {c : ArgCopy} {v old addr : Word} {e e₁ : Errno}
  {name : List Byte} {argc : Nat}

theorem Image.vopDecref_ok (h : s.vopDecref v = .ok s₁) :
    s₁ = { s with refs := update s.refs v (s.refs v - 1) } ∧ s.refs v ≠ 0 := by
  unfold vopDecref at h
  split at h
  · cases h
  rename_i hv
  cases h
  exact ⟨rfl, hv⟩

theorem Image.vopIncref_decref (h : (s.vopIncref v).vopDecref v = .ok s₁) : s₁ = s := by
  obtain ⟨rfl, -⟩ := vopDecref_ok h
  simp [vopIncref]

theorem Image.fail_before (h : s.fail c 0#32 e₁ = .ok (.failed e s')) : s' = s := by
  obtain ⟨_, _, h⟩ := bind_eq_ok.mp h
  cases h
  rfl

theorem Image.fail_after (hold : old ≠ 0#32) (h : s.fail c old e₁ = .ok (.failed e s')) :
    ∃ s₁, s.asDestroy s.tVmspace = .ok s₁ ∧
      s' = { s₁ with tVmspace := old, tlb := asActivate } := by
  obtain ⟨_, _, h⟩ := bind_eq_ok.mp h
  rw [if_neg hold] at h
  obtain ⟨s₁, hs₁, h⟩ := bind_eq_ok.mp h
  cases h
  exact ⟨s₁, hs₁, rfl⟩

/-- What destroying an address space does. -/
theorem Image.asDestroy_ok (h : s.asDestroy addr = .ok s₁) :
    s₁ = { s with
      mach := if (s.space addr).pageTable = 0#32 then s.mach else
        s.mach.ptDeepDestroy (s.space addr).pageTable
      refs := if (s.space addr).v = 0#32 then s.refs else
        update s.refs (s.space addr).v (s.refs (s.space addr).v - 1) } := by
  simp only [asDestroy] at h
  split at h
  · cases h
  by_cases hv : (s.space addr).v = 0#32
  · rw [if_pos hv] at h ⊢
    cases h
    rfl
  · rw [if_neg hv] at h ⊢
    exact (vopDecref_ok h).1

/-- The ways in which the second half of the call fails: the program is not there and the caller's
own space is destroyed, or it cannot be loaded and the new one is. -/
theorem ExecCall.load_failed (hp : s.Process) (h : call.load s c name argc = .ok (.failed e s')) :
    ((call.vfsOpen name).isOk = false ∧ ∃ s₁, s.asDestroy s.tVmspace = .ok s₁ ∧
      s' = { s₁ with tVmspace := s.tVmspace, tlb := asActivate }) ∨
    (call.vfsOpen name).isOk = true ∧ ∃ addr found s₁, call.newSpace = some (addr, found) ∧
      { s with
        space := update s.space addr (.asCreate found)
        tVmspace := addr, tlb := asActivate }.asDestroy addr = .ok s₁ ∧
      s' = { s₁ with tVmspace := s.tVmspace, tlb := asActivate } := by
  unfold load at h
  cases ho : call.vfsOpen name with
  | error e₀ =>
    simp only [ho] at h
    exact .inl ⟨rfl, Image.fail_after hp.vmspace h⟩
  | ok p =>
    obtain ⟨v, file⟩ := p
    refine .inr ⟨rfl, ?_⟩
    simp only [ho] at h
    cases hn : call.newSpace with
    | none =>
      simp only [hn] at h
      obtain ⟨s₁, _, h⟩ := bind_eq_ok.mp h
      obtain ⟨s₂, hs₂, _⟩ := Image.fail_after hp.vmspace h
      cases hs₂
    | some q =>
      obtain ⟨addr, found⟩ := q
      simp only [hn] at h
      cases hl : file.loadElf (.asCreate found) call.past with
      | error e₀ =>
        simp only [hl] at h
        obtain ⟨s₁, hs₁, h⟩ := bind_eq_ok.mp h
        have hs₁ := Image.vopIncref_decref
          (s := { s with
            space := update s.space addr (.asCreate found)
            tVmspace := addr, tlb := asActivate }) hs₁
        subst hs₁
        obtain ⟨s₂, hs₂, hs'⟩ := Image.fail_after hp.vmspace h
        exact ⟨addr, found, s₂, rfl, hs₂, hs'⟩
      | ok q =>
        simp only [hl] at h
        obtain ⟨_, _, h⟩ := bind_eq_ok.mp h
        obtain ⟨_, _, h⟩ := bind_eq_ok.mp h
        cases h

theorem ExecCall.sysExecv_ok {result : ExecResult} (h : call.sysExecv s = .ok result) :
    ∃ c r result₀, call.copyIn = .ok (c, r) ∧ call.goOn s c r = .ok result₀ ∧
      result = result₀.mark c.unprotected := by
  obtain ⟨⟨c, r⟩, hcopy, h⟩ := bind_eq_ok.mp h
  obtain ⟨result₀, hres, h⟩ := bind_eq_ok.mp h
  cases h
  exact ⟨c, r, result₀, hcopy, hres, rfl⟩

/-- A call that fails leaves the caller's image as it was exactly if it fails before it opens the
program, or after it with a new address space whose vnode word is not the caller's vnode. -/
theorem failed_execv_kept_iff (hp : s.Process) (hf : call.Fresh s)
    (h : call.sysExecv s = .ok (.failed e s')) : s.Kept s' ↔ call.Harmless s := by
  obtain ⟨c, r, _ | ⟨e₀, s₀⟩, hcopy, h, hmark⟩ := ExecCall.sysExecv_ok h <;> cases hmark
  cases r with
  | error e₀ =>
    obtain rfl := Image.fail_before h
    refine iff_of_true ⟨rfl, rfl, fun _ _ => rfl, fun _ => rfl, rfl⟩ ?_
    intro c' name argc hc
    rw [hcopy] at hc
    cases hc
  | ok p =>
    obtain ⟨name, argc⟩ := p
    have hharm : call.Harmless s ↔ (call.vfsOpen name).isOk ∧
        ∀ addr found, call.newSpace = some (addr, found) → found.v ≠ s.as.v := by
      constructor
      · exact fun hh => hh c name argc hcopy
      intro hh c' name' argc' hc
      rw [hcopy] at hc
      cases hc
      exact hh
    rw [hharm]
    rcases ExecCall.load_failed hp h with ⟨ho, s₁, hs₁, rfl⟩ | ⟨ho, addr, found, s₁, hn, hs₁, rfl⟩
    · refine iff_of_false ?_ (by simp [ho])
      intro hk
      have hv := hk.vnode
      have hpos := hp.refs
      rw [Image.asDestroy_ok hs₁, if_neg (show (s.space s.tVmspace).v ≠ 0#32 from hp.v)] at hv
      simp only [Image.as, update_self] at hv hpos
      omega
    · have hne := (hf.space addr found hn).2
      have hs₁ := Image.asDestroy_ok hs₁
      simp only [update_self, AddrSpace.asCreate, if_true] at hs₁
      rw [and_iff_right ho]
      constructor
      · intro hk addr' found' hn' heq
        rw [hn] at hn'
        cases hn'
        have hv := hk.vnode
        have hpos := hp.refs
        simp only [hs₁, heq, if_neg hp.v, update_self] at hv
        omega
      · intro hh
        have hv := hh addr found hn
        refine ⟨rfl, ?_, ?_, ?_, ?_⟩
        · simp [hs₁, Image.as, update_of_ne hne.symm]
        · simp [hs₁]
        · simp [hs₁]
        simp only [hs₁]
        split
        · rfl
        · rw [update_of_ne hv.symm]

end

namespace OnePage

/-- The process with one stack page, whose record is at 0x80100000. -/
def caller : Image :=
  ⟨mapped.mach, mapped.tlb, fun _ => (mapped.proc 0).as, 0x80100000#32,
    fun v => if v = 1 then 1 else 0, none, false⟩

/-- `execv` of the program "x" without arguments. -/
def execX (vfsOpen : List Byte → Except Errno (Word × File)) : ExecCall where
  progname := 0x10000000#32
  argv _ := some 0#32
  user va := some (if va = 0x10000000#32 then 0x78#8 else 0#8)
  argBlock := some fun _ => deadbeef
  nameBlock := true
  temp _ := none
  vfsOpen := vfsOpen
  newSpace := some (0x80100040#32, ⟨[], 0, 0, 0, 0, 0, 0⟩)
  past := ⟨0, 0, 0, 0, 0⟩

def emptyFile : File := ⟨[], fun _ => none⟩

/-- A program that is no executable leaves the caller as it was. -/
theorem failed_execv_kept_noexec :
    ∃ s', (execX fun _ => .ok (2#32, emptyFile)).sysExecv caller = .ok (.failed .enoexec s') ∧
      caller.Kept s' := by
  have hp : caller.Process := ⟨by decide, by decide +kernel, by decide +kernel⟩
  obtain ⟨s', hs'⟩ : ∃ s', (execX fun _ => .ok (2#32, emptyFile)).sysExecv caller
      = .ok (.failed .enoexec s') := ⟨_, rfl⟩
  refine ⟨s', hs', (failed_execv_kept_iff hp ?_ hs').mpr ?_⟩
  · refine ⟨?_, ?_⟩
    · rintro addr found h
      cases h
      exact ⟨by decide, by decide⟩
    · rintro found h
      cases h
      exact fun _ _ _ => .inr rfl
  · rintro c name argc _
    refine ⟨rfl, ?_⟩
    rintro addr found h
    cases h
    decide +kernel

/-- A program that does not exist costs the caller its page table, whose frames go back to the free
list while the address space stays in use, and its reference on the executable. -/
theorem missing_program_destroys_image :
    ∃ s', (execX fun _ => .error .enoent).sysExecv caller = .ok (.failed .enoent s') ∧
      s'.tVmspace = caller.tVmspace ∧ s'.refs caller.as.v = 0 ∧
      s'.mach = caller.mach.ptDeepDestroy caller.as.pageTable ∧ ¬ caller.Kept s' := by
  refine ⟨_, rfl, rfl, rfl, rfl, ?_⟩
  intro hk
  have hv := hk.vnode
  exact absurd hv (by decide +kernel)

end OnePage

end OS161
