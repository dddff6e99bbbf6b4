import OS161.Fs.Uio
import OS161.Vm.Fault

/-! `as_load_page` on the first touch of a page, and `load_segment` of all at once. -/
namespace OS161

open Buffer

/-- The bytes of an executable; the size of a file is an `off_t`. -/
structure Contents where
  bytes : List Byte
  size_lt : bytes.length < 2 ^ 31

namespace Contents
variable (f : Contents)

/-- How much of the file lies at and after an offset. -/
def left (offset : Int) : Nat := if 0 ≤ offset then f.bytes.length - offset.toNat else 0

def byte (pos : Int) : Byte := f.bytes.getD pos.toNat 0#8

/-- A VOP_READ that returns the bytes of the file: at its end fewer than were asked for. -/
def vopRead (x : Xfer) : Except Crash Xfer := do
  let r ← uiomove (fun n => f.byte (x.uio.offset + n)) (min x.uio.resid (f.left x.uio.offset)) x
  return r.2

/-- What `load_segment` and `as_load_page` do with the `uio` they have set up. -/
def readThenZeros (x : Xfer) (fillamt : Nat) : Except Crash (Except Errno Buf) := do
  let x ← f.vopRead x
  if x.uio.resid ≠ 0 then return .error .enoexec
  else if 0 < fillamt then
    let x ← uiomovezeros fillamt
      { x with uio := { x.uio with resid := x.uio.resid + fillamt } }
    return .ok x.mem
  else return .ok x.mem

/-- `load_segment` on the memory of the process. -/
def loadSegment (mem : Buf) (offset : Int) (vaddr memsize filesize : Nat) :
    Except Crash (Except Errno Buf) :=
  let filesize := if filesize > memsize then memsize else filesize
  f.readThenZeros ⟨mem, ⟨vaddr, memsize, offset, filesize, .read⟩⟩ (memsize - filesize)

/-- `as_load_page` from `mk_kuio` on, into a page that `bzero` has cleared. -/
def fillPage (offset len : Word) : Except Crash (Except Errno Buf) :=
  f.readThenZeros ⟨fun _ => 0#8, { mkKuio pageSize offset.toInt .read with resid := len.toNat }⟩
    (pageSize - len.toNat)

def asLoadPage (r : Region) (va : Vaddr) : Except Crash (Except Errno Buf) :=
  f.fillPage (r.readOffset va) (r.readLen va)

/-- The same read as `vm_fault` sees it. -/
def readResult (offset len : Word) : ReadResult :=
  ⟨none, min len.toNat (f.left offset.toInt), fun n => f.byte (offset.toInt + n)⟩

/-- What the segment has at an address of it. -/
def segmentByte (r : Region) (a : Nat) : Byte :=
  if a - r.pVaddr.toNat < min r.pFilesz.toNat r.pMemsz.toNat then
    f.byte (r.pOffset.toInt + (a - r.pVaddr.toNat : Nat))
  else 0#8

end Contents

section
variable {f : Contents} {r : Region} {va : Vaddr} {x : Xfer} {mem page image : Buf}
  {fillamt a : Nat}

theorem Contents.vopRead_eq (h : x.uio.Ok) (hrw : x.uio.rw = .read) :
    f.vopRead x =
      .ok ⟨blit x.mem x.uio.base (fun n => f.byte (x.uio.offset + n)) 0
          (min x.uio.resid (f.left x.uio.offset)),
        x.uio.advance (min x.uio.resid (f.left x.uio.offset))⟩ := by
  rw [vopRead, uiomove_eq h (Nat.min_le_left ..), Xfer.moved]
  simp only [hrw]
  rfl

/-- The read is short, or the buffer has the file's bytes and then zeros. -/
theorem Contents.readThenZeros_eq (hlen : x.uio.resid + fillamt ≤ x.uio.len)
    (hlt : x.uio.len < 2 ^ 32) (hoff : offT x.uio.offset = x.uio.offset) (hrw : x.uio.rw = .read) :
    f.readThenZeros x fillamt = .ok (if x.uio.resid ≤ f.left x.uio.offset then
      .ok (blit (blit x.mem x.uio.base (fun n => f.byte (x.uio.offset + n)) 0 x.uio.resid)
        (x.uio.base + x.uio.resid) (fun _ => 0#8) 0 fillamt) else .error .enoexec) := by
  have hok : x.uio.Ok := ⟨by omega, hlt, hoff⟩
  rw [readThenZeros, vopRead_eq hok hrw]
  simp only [bind, Except.bind, pure, Except.pure]
  split
  · rename_i hshort
    rw [if_neg]
    intro hleft
    simp [Uio.advance, Nat.min_eq_left hleft] at hshort
  rename_i hread
  have hleft : x.uio.resid ≤ f.left x.uio.offset := by
    simp only [Uio.advance] at hread
    omega
  rw [Nat.min_eq_left hleft, if_pos hleft]
  split
  · rw [uiomovezeros_eq ⟨?_, ?_, ?_⟩ ?_ ?_]
    · rfl
    · simp only [Uio.advance]
      omega
    · simp only [Uio.advance]
      omega
    · exact offT_offT
    · exact hrw
    · simp [Uio.advance]
  · obtain rfl : fillamt = 0 := by omega
    rw [blit_zero]

/-- The page of an address of the segment, and how much of it the file holds. -/
structure InSegment (r : Region) (va : Vaddr) : Prop where
  aligned : pageOf r.pVaddr = r.pVaddr
  memEnd : r.pVaddr.toNat + r.pMemsz.toNat ≤ userstack.toNat
  fileEnd : r.pVaddr.toNat + r.pFilesz.toNat ≤ userstack.toNat
  start : r.pVaddr.toNat ≤ va.toNat
  inside : va.toNat < r.pVaddr.toNat + r.pMemsz.toNat

namespace InSegment
variable (h : InSegment r va)
include h

theorem start_le : r.pVaddr.toNat ≤ (pageOf va).toNat := by
  have hal := congrArg BitVec.toNat h.aligned
  have hs := h.start
  rw [toNat_pageOf] at hal ⊢
  omega

theorem page_lt : (pageOf va).toNat + pageSize ≤ 2147483648 := by
  have hlt : va.toNat < 2147483648 := Nat.lt_of_lt_of_le h.inside h.memEnd
  rw [toNat_pageOf, pageSize]
  omega

theorem toNat_readLen : (r.readLen va).toNat =
    min pageSize (r.pVaddr.toNat + r.pFilesz.toNat - (pageOf va).toNat) := by
  have hpage := h.page_lt
  have hend : (r.pVaddr + r.pFilesz).toNat = r.pVaddr.toNat + r.pFilesz.toNat := by
    rw [BitVec.toNat_add, Nat.mod_eq_of_lt]
    exact Nat.lt_of_le_of_lt h.fileEnd (by decide)
  have hnext : (pageOf va + pageSizeW).toNat = (pageOf va).toNat + pageSize := by
    rw [BitVec.toNat_add, toNat_pageSizeW, pageSize, Nat.mod_eq_of_lt]
    omega
  rw [Region.readLen]
  simp only [BitVec.le_def, gt_iff_lt, BitVec.lt_def, hend, hnext]
  split
  · rw [toNat_pageSizeW]
    rw [pageSize] at *
    omega
  split
  · rw [BitVec.toNat_sub_of_le (by rw [BitVec.le_def]; omega), hend]
    omega
  · simp only [BitVec.toNat_ofNat]
    omega

theorem readLen_le : (r.readLen va).toNat ≤ pageSize := by
  rw [h.toNat_readLen]
  exact Nat.min_le_left ..

theorem toInt_readOffset : (r.readOffset va).toInt =
    offT (r.pOffset.toInt + ((pageOf va).toNat - r.pVaddr.toNat : Nat)) := by
  have hs := h.start_le
  have hp := h.page_lt
  have hsub : (pageOf va - r.pVaddr).toNat = (pageOf va).toNat - r.pVaddr.toNat :=
    BitVec.toNat_sub_of_le (BitVec.le_def.mpr hs)
  have hint : (pageOf va - r.pVaddr).toInt = ((pageOf va).toNat - r.pVaddr.toNat : Nat) := by
    rw [BitVec.toInt_eq_toNat_of_lt, hsub]
    rw [pageSize] at hp
    omega
  rw [Region.readOffset, BitVec.toInt_add, hint]
  rfl

end InSegment

theorem offT_toInt (w : Word) : offT w.toInt = w.toInt :=
  offT_eq (BitVec.le_toInt w) (BitVec.toInt_lt (x := w))

namespace Contents

theorem fillPage_eq {offset len : Word} (hlen : len.toNat ≤ pageSize) :
    f.fillPage offset len = .ok (if len.toNat ≤ f.left offset.toInt then
      .ok (blit (blit (fun _ => 0#8) 0 (fun n => f.byte (offset.toInt + n)) 0 len.toNat)
        len.toNat (fun _ => 0#8) 0 (pageSize - len.toNat)) else .error .enoexec) := by
  rw [fillPage, readThenZeros_eq]
  · simp only [mkKuio, Nat.zero_add]
  · simp only [mkKuio]
    omega
  · exact show pageSize < 2 ^ 32 by decide
  · exact offT_toInt offset
  · rfl

theorem loadSegment_eq : f.loadSegment mem r.pOffset.toInt r.pVaddr.toNat
      r.pMemsz.toNat r.pFilesz.toNat = .ok
    (if min r.pFilesz.toNat r.pMemsz.toNat ≤ f.left r.pOffset.toInt then
      .ok (blit (blit mem r.pVaddr.toNat (fun n => f.byte (r.pOffset.toInt + n)) 0
          (min r.pFilesz.toNat r.pMemsz.toNat))
        (r.pVaddr.toNat + min r.pFilesz.toNat r.pMemsz.toNat) (fun _ => 0#8) 0
        (r.pMemsz.toNat - min r.pFilesz.toNat r.pMemsz.toNat)) else .error .enoexec) := by
  have hmin : (if r.pFilesz.toNat > r.pMemsz.toNat then r.pMemsz.toNat else r.pFilesz.toNat) =
      min r.pFilesz.toNat r.pMemsz.toNat := by
    split <;> omega
  rw [loadSegment, hmin, readThenZeros_eq]
  · simp only
    omega
  · exact BitVec.isLt _
  · exact offT_toInt r.pOffset
  · rfl

/-- The image has the segment at every address of it. -/
theorem loadSegment_byte (hi : f.loadSegment mem r.pOffset.toInt
      r.pVaddr.toNat r.pMemsz.toNat r.pFilesz.toNat = .ok (.ok image))
    (ha : r.pVaddr.toNat ≤ a) (ha' : a < r.pVaddr.toNat + r.pMemsz.toNat) :
    image a = f.segmentByte r a := by
  rw [loadSegment_eq] at hi
  split at hi
  · cases hi
    rw [segmentByte]
    split
    · rw [blit_outside (by omega), blit_inside ha (by omega), Nat.zero_add]
    · rw [blit_inside (by omega) (by omega)]
  · cases hi

/-- A page with bytes of the file in it is read from where the segment has them. -/
theorem readOffset_exact (h : InSegment r va) (hpos : 0 < f.left (r.readOffset va).toInt) :
    (r.readOffset va).toInt = r.pOffset.toInt + ((pageOf va).toNat - r.pVaddr.toNat : Nat) := by
  have hnn : 0 ≤ (r.readOffset va).toInt := by
    by_contra hneg
    rw [left, if_neg hneg] at hpos
    omega
  have hp := h.page_lt
  have hlo := BitVec.le_toInt r.pOffset
  have hhi := BitVec.toInt_lt (x := r.pOffset)
  rw [h.toInt_readOffset] at hnn ⊢
  generalize hs : (r.pOffset.toInt + ((pageOf va).toNat - r.pVaddr.toNat : Nat)) = s at hnn ⊢
  by_cases hlt : s < 2147483648
  · exact offT_eq (by omega) (by omega)
  have hwrap : offT s = s - 4294967296 := by
    rw [← Int.bmod_eq_of_le (m := 4294967296) (n := s - 4294967296) (by omega) (by omega)]
    exact (Int.sub_bmod_right ..).symm
  omega

theorem asLoadPage_byte (h : InSegment r va) (hp : f.asLoadPage r va = .ok (.ok page))
    (hpa : (pageOf va).toNat ≤ a) (hpa' : a < (pageOf va).toNat + pageSize)
    (ha' : a < r.pVaddr.toNat + r.pMemsz.toNat) :
    page (a - (pageOf va).toNat) = f.segmentByte r a := by
  have hlen := h.toNat_readLen
  have hs := h.start_le
  rw [asLoadPage, fillPage_eq h.readLen_le] at hp
  split at hp
  · rw [← Except.ok.inj (Except.ok.inj hp), segmentByte]
    split
    · -- in the part of the page that is read
      rw [blit_outside (by omega), blit_inside (by omega) (by omega)]
      have hoff := readOffset_exact (f := f) h (by omega)
      have hpos : (r.readOffset va).toInt + (0 + (a - (pageOf va).toNat - 0) : Nat) =
          r.pOffset.toInt + (a - r.pVaddr.toNat : Nat) := by
        omega
      exact congrArg f.byte hpos
    · rw [blit_inside (by omega) (by omega)]
  · cases hp

theorem asLoadPage_of_contained (h : InSegment r va)
    (hc : r.pOffset.toNat + r.pFilesz.toNat ≤ f.bytes.length) :
    ∃ page, f.asLoadPage r va = .ok (.ok page) := by
  have hlen := h.toNat_readLen
  have hs := h.start_le
  have hf := f.size_lt
  rw [asLoadPage, fillPage_eq h.readLen_le, if_pos]
  · exact ⟨_, rfl⟩
  by_cases hzero : (r.readLen va).toNat = 0
  · omega
  have hint : r.pOffset.toInt = r.pOffset.toNat := BitVec.toInt_eq_toNat_of_lt (by omega)
  have hoff : (r.readOffset va).toInt =
      (r.pOffset.toNat + ((pageOf va).toNat - r.pVaddr.toNat) : Nat) := by
    rw [h.toInt_readOffset, hint, offT_eq (by omega) (by omega)]
    omega
  rw [hoff, left, if_pos (by omega)]
  omega

theorem loadSegment_of_contained (hc : r.pOffset.toNat + r.pFilesz.toNat ≤ f.bytes.length) :
    ∃ image, f.loadSegment mem r.pOffset.toInt r.pVaddr.toNat r.pMemsz.toNat r.pFilesz.toNat =
      .ok (.ok image) := by
  have hf := f.size_lt
  rw [loadSegment_eq, if_pos]
  · exact ⟨_, rfl⟩
  have hint : r.pOffset.toInt = r.pOffset.toNat := BitVec.toInt_eq_toNat_of_lt (by omega)
  rw [hint, left, if_pos (by omega)]
  omega

theorem page_zeros {src : Buf} {n k : Nat} :
    (fun i => if i < n then src i else 0#8) =
      blit (blit (fun _ => 0#8) 0 src 0 n) n (fun _ => 0#8) 0 k := by
  funext i
  by_cases hi : i < n
  · rw [if_pos hi, blit_outside (.inl hi), blit_inside (Nat.zero_le i) (by omega), Nat.zero_add,
      Nat.sub_zero]
  rw [if_neg hi]
  by_cases hk : i < n + k
  · rw [blit_inside (by omega) hk]
  · rw [blit_outside (by omega), blit_outside (by omega)]

end Contents

theorem Ctx.vmFaultLoaded_asLoadPage {c c' : Ctx} {l : Load} (h : InSegment r va)
    (hl : c.startLoad r va = .loading l c') (hp : f.asLoadPage r va = .ok (.ok page))
    (rand : Nat) : c'.vmFaultLoaded l (f.readResult l.offset l.len) rand =
      .done ({ c' with mach := c'.mach.setPage l.frame (packPage page) }.mapAndRefill va l.frame
        r.pFlags rand) := by
  rw [startLoad] at hl
  split at hl
  · obtain ⟨rfl, rfl⟩ := hl
    rw [Contents.asLoadPage, Contents.fillPage_eq h.readLen_le] at hp
    split at hp
    · have hmin : min (min (r.readLen va).toNat (f.left (r.readOffset va).toInt))
          (r.readLen va).toNat = (r.readLen va).toNat := by
        omega
      rw [← Except.ok.inj (Except.ok.inj hp), ← Contents.page_zeros, vmFaultLoaded]
      simp only [Contents.readResult, hmin, if_true]
    · cases hp
  · cases hl

/-- The page `as_load_page` makes and the image of `load_segment` have the same bytes, those of the
segment, and a segment that the file contains is never reported short. That page is the one that
`vm_fault` maps when the read is done. -/
theorem demand_load_eq_eager (h : InSegment r va) (f : Contents) :
    (∀ page, f.asLoadPage r va = .ok (.ok page) →
      ∀ a, (pageOf va).toNat ≤ a → a < (pageOf va).toNat + pageSize →
        a < r.pVaddr.toNat + r.pMemsz.toNat → page (a - (pageOf va).toNat) = f.segmentByte r a) ∧
    (∀ mem image, f.loadSegment mem r.pOffset.toInt r.pVaddr.toNat r.pMemsz.toNat
        r.pFilesz.toNat = .ok (.ok image) →
      ∀ a, r.pVaddr.toNat ≤ a → a < r.pVaddr.toNat + r.pMemsz.toNat →
        image a = f.segmentByte r a) ∧
    (r.pOffset.toNat + r.pFilesz.toNat ≤ f.bytes.length →
      (∃ page, f.asLoadPage r va = .ok (.ok page)) ∧
      ∀ mem, ∃ image, f.loadSegment mem r.pOffset.toInt r.pVaddr.toNat r.pMemsz.toNat
        r.pFilesz.toNat = .ok (.ok image)) ∧
    ∀ (c c' : Ctx) l page rand, c.startLoad r va = .loading l c' →
      f.asLoadPage r va = .ok (.ok page) → c'.vmFaultLoaded l (f.readResult l.offset l.len) rand =
        .done ({ c' with mach := c'.mach.setPage l.frame (packPage page) }.mapAndRefill va l.frame
          r.pFlags rand) :=
  ⟨fun _ hp _ hpa hpa' ha => Contents.asLoadPage_byte h hp hpa hpa' ha,
    fun _ _ hi _ ha ha' => Contents.loadSegment_byte hi ha ha',
    fun hc => ⟨Contents.asLoadPage_of_contained h hc,
      fun _ => Contents.loadSegment_of_contained hc⟩,
    fun _ _ _ _ rand hl hp => Ctx.vmFaultLoaded_asLoadPage h hl hp rand⟩

end

/-- Three bytes of data and five of bss. -/
def smallSegment : Region := ⟨0x400000#32, 1#32, 3#32, 8#32, 0#32⟩

def smallFile : Contents := ⟨[9, 1, 2, 3, 7], by decide⟩

theorem demand_load_small : InSegment smallSegment 0x400005#32 ∧
    ∃ page, smallFile.asLoadPage smallSegment 0x400005#32 = .ok (.ok page) ∧
      page 1 = 2#8 ∧ page 3 = 0#8 := by
  have h : InSegment smallSegment 0x400005#32 := by
    constructor <;> decide
  obtain ⟨hbytes, -, hread, -⟩ := demand_load_eq_eager h smallFile
  obtain ⟨page, hp⟩ := (hread (by decide)).1
  exact ⟨h, page, hp, hbytes page hp 0x400001 (by decide) (by decide) (by decide),
    hbytes page hp 0x400003 (by decide) (by decide) (by decide)⟩

end OS161
