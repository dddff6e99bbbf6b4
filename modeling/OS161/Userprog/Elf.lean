import OS161.Vm.AddrSpace

/-! `load_elf` and the address space `runprogram` makes of an executable. -/
namespace OS161

/-- An executable on disk: its bytes, and the offsets at which VOP_READ fails. -/
structure File where
  bytes : List Byte
  fails : Nat → Option Errno

/-- VOP_READ of a whole header; a short read is ENOEXEC. -/
def File.readHeader (f : File) (offset len : Nat) : Except Errno (List Byte) :=
  match f.fails offset with
  | some e => .error e
  | none =>
    if offset + len ≤ f.bytes.length then .ok ((f.bytes.drop offset).take len)
    else .error .enoexec

def getHalf (b : List Byte) (i : Nat) : BitVec 16 := b.getD i 0 ++ b.getD (i + 1) 0

def getWord (b : List Byte) (i : Nat) : Word := getHalf b i ++ getHalf b (i + 2)

/-- The fields of `Elf32_Ehdr` that `load_elf` reads. -/
structure Ehdr where
  eIdent : List Byte
  eType : BitVec 16
  eMachine : BitVec 16
  eVersion : Word
  eEntry : Word
  ePhoff : Word
  ePhentsize : BitVec 16
  ePhnum : BitVec 16

def ehdrSize : Nat := 52

def Ehdr.ofBytes (b : List Byte) : Ehdr :=
  ⟨b.take 16, getHalf b 16, getHalf b 18, getWord b 20, getWord b 24, getWord b 28, getHalf b 42,
    getHalf b 44⟩

/-- A 32-bit big-endian MIPS executable of ELF version 1. -/
def Ehdr.isExecutable (eh : Ehdr) : Bool :=
  eh.eIdent.take 7 == [0x7f, 0x45, 0x4c, 0x46, 1, 2, 1] && eh.eVersion == 1 && eh.eType == 2 &&
    eh.eMachine == 8

/-- The fields of `Elf32_Phdr` that `load_elf` reads. -/
structure Phdr where
  pType : Word
  pOffset : Word
  pVaddr : Word
  pFilesz : Word
  pMemsz : Word
  pFlags : Word

def phdrSize : Nat := 32

def Phdr.ofBytes (b : List Byte) : Phdr :=
  ⟨getWord b 0, getWord b 4, getWord b 8, getWord b 16, getWord b 20, getWord b 24⟩

def Phdr.region (ph : Phdr) : Region :=
  ⟨ph.pVaddr, ph.pOffset, ph.pFilesz, ph.pMemsz, ph.pFlags⟩

def ptNull : Word := 0#32
def ptLoad : Word := 1#32
def ptPhdr : Word := 6#32
def ptMipsReginfo : Word := 0x70000000#32

namespace File
variable (f : File)

def ehdr : Except Errno Ehdr := do
  let b ← f.readHeader 0 ehdrSize
  return .ofBytes b

def phdr (eh : Ehdr) (i : Nat) : Except Errno Phdr := do
  let b ← f.readHeader ((eh.ePhoff.toNat + i * eh.ePhentsize.toNat) % 2 ^ 32) phdrSize
  return .ofBytes b

/-- The loop over the program headers from `i` on, which both passes of `load_elf` share: the
PT_LOAD headers in the order of the file. -/
def segments (eh : Ehdr) : Nat → Nat → Except Errno (List Phdr)
  | 0, _ => .ok []
  | n + 1, i => do
    let ph ← f.phdr eh i
    if ph.pType = ptNull ∨ ph.pType = ptPhdr ∨ ph.pType = ptMipsReginfo then segments eh n (i + 1)
    else if ph.pType = ptLoad then return ph :: (← segments eh n (i + 1))
    else .error .enoexec

/-- `load_elf`. The first pass counts the segments, the second fills the region table; `past` is
what lies before the table if it is empty. -/
def loadElf (as : AddrSpace) (past : Region) : Except Errno (AddrSpace × Vaddr) := do
  let eh ← f.ehdr
  if eh.isExecutable then
    let counted ← f.segments eh eh.ePhnum.toNat 0
    let segs ← f.segments eh eh.ePhnum.toNat 0
    let regions := segs.map Phdr.region
    let last := if counted.length = 0 then past else regions.getD (counted.length - 1) past
    return ({ as with
      asRegion := regions
      asStackvbase := userstack
      asHeapvtop := last.pVaddr + last.pMemsz }, eh.eEntry)
  else .error .enoexec

/-- The address space with which `runprogram` goes to user mode. -/
def runprogram (found : AddrSpace) (past : Region) (v : Word) : Except Errno AddrSpace := do
  let r ← f.loadElf (.asCreate found) past
  return { r.1 with v := v }.setupHeap past

end File

variable {f : File} {as as' found : AddrSpace} {past : Region} {v : Word} {entry : Vaddr}

/-- The PT_LOAD headers of a file, if it has any that can be read. -/
def File.loads (f : File) : List Phdr :=
  match f.ehdr >>= fun eh => f.segments eh eh.ePhnum.toNat 0 with
  | .ok segs => segs
  | .error _ => []

/-- The segment that `load_elf` takes for the last. -/
def File.lastLoad (f : File) (past : Region) : Region :=
  if f.loads.length = 0 then past else (f.loads.map Phdr.region).getD (f.loads.length - 1) past

/-- `load_elf` fills the region table and sets the two ends of the stack and the heap; the other
fields are as they were found. -/
theorem File.loadElf_eq (h : f.loadElf as past = .ok (as', entry)) :
    as' = { as with
      asRegion := f.loads.map Phdr.region
      asStackvbase := userstack
      asHeapvtop := (f.lastLoad past).pVaddr + (f.lastLoad past).pMemsz } := by
  obtain ⟨eh, heh, h⟩ := bind_eq_ok.mp h
  split at h
  · obtain ⟨segs, hsegs, h⟩ := bind_eq_ok.mp h
    obtain ⟨segs', hsegs', h⟩ := bind_eq_ok.mp h
    rw [hsegs] at hsegs'
    cases hsegs'
    cases h
    have hloads : f.loads = segs := by
      simp only [File.loads, heh, bind, Except.bind, hsegs]
    simp only [File.lastLoad, hloads]
  · cases h

theorem File.runprogram_eq (h : f.runprogram found past v = .ok as) :
    as = { AddrSpace.asCreate found with
      asRegion := f.loads.map Phdr.region
      asStackvbase := userstack
      v := v }.setupHeap past := by
  obtain ⟨⟨as₀, entry⟩, hr, h⟩ := bind_eq_ok.mp h
  obtain rfl := File.loadElf_eq hr
  cases h
  rfl

theorem File.runprogram_ok (h : f.runprogram found past v = .ok as) :
    as.asRegion = f.loads.map Phdr.region ∧ as.asStackvbase = userstack ∧ as.pageTable = 0#32 ∧
      ∃ as₀ : AddrSpace, as₀.asRegion = f.loads.map Phdr.region ∧ as = as₀.setupHeap past := by
  obtain rfl := File.runprogram_eq h
  exact ⟨rfl, rfl, rfl, _, rfl, rfl⟩

end OS161
