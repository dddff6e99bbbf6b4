import OS161.Kern.Bitmap
import OS161.Lib.BigEndian
import OS161.Dev.Lhd

/-! `sfs_vnode.c` on a device without errors. A vnode is named by its inode number. -/
namespace OS161.Sfs

open Function (update)

open Buffer
open Call (require failIf attempt crash fail)
open BigEndian (read write)

def blockSize : Nat := 512
def ndirect : Nat := 15
def dbperidb : Nat := 128
def nameLen : Nat := 60
def rootLocation : Nat := 1
def mapLocation : Nat := 2
def noIno : Nat := 0
/-- The size of a `struct sfs_dir`. -/
def dirSize : Nat := 64

def zeros : Buf := fun _ => 0#8

/-- SFS_TYPE_INVAL, SFS_TYPE_FILE and SFS_TYPE_DIR. -/
inductive FileType where
  | inval | file | dir
  deriving DecidableEq, Repr

def FileType.code : FileType → Nat
  | .inval => 0
  | .file => 1
  | .dir => 2

section inode
variable (i : Buf)

def sfiSize : Nat := read 4 i 0
def sfiType : Nat := read 2 i 4
def sfiLinkcount : Nat := read 2 i 6
def sfiDirect (k : Nat) : Nat := read 4 i (8 + 4 * k)
def sfiIndirect : Nat := read 4 i 68

def setSize (v : Nat) : Buf := write 4 i 0 v
def setType (t : FileType) : Buf := write 2 i 4 t.code
def setLinkcount (v : Nat) : Buf := write 2 i 6 v
def setDirect (k v : Nat) : Buf := write 4 i (8 + 4 * k) v
def setIndirect (v : Nat) : Buf := write 4 i 68 v

end inode

/-- An entry of an indirect block. -/
def idEntry (idbuf : Buf) (j : Nat) : Nat := read 4 idbuf (4 * j)

def setIdEntry (idbuf : Buf) (j v : Nat) : Buf := write 4 idbuf (4 * j) v

/-- A string of C. -/
structure Name where
  chars : List Byte
  nonzero : 0#8 ∉ chars
  deriving DecidableEq

def sfdIno (sd : Buf) : Nat := read 4 sd 0

/-- The name of a directory entry, whose last character is taken to be zero. -/
def sfdName (sd : Buf) : List Byte :=
  ((List.range (nameLen - 1)).map fun k => sd (4 + k)).takeWhile (· ≠ 0#8)

/-- `bzero`, the inode number and `strcpy` of the name. -/
def dirEntry (ino : Nat) (name : Name) : Buf :=
  write 4 (fun k => if 4 ≤ k then name.chars.getD (k - 4) 0#8 else 0#8) 0 ino

/-- `struct sfs_vnode`, with the reference count of its abstract vnode. -/
structure SfsVnode where
  inode : Buf
  dirty : Bool
  refcount : Nat

/-- `struct sfs_fs` and its device; `vnodes` is the table of loaded vnodes. -/
structure Fs where
  nblocks : Nat
  disk : Nat → Buf
  freemap : Bitmap
  freemapdirty : Bool
  vnodes : List Nat
  sv : Nat → SfsVnode

/-- How the code ends a call: the panics about blocks that are free, the assertion of
`bitmap_unmark`, and all others. -/
inductive SfsCrash where
  | markedFree | unallocated | unmarkFree
  | other (c : Crash)
  deriving DecidableEq, Repr

abbrev SfsCall := Call SfsCrash Fs Errno

def panic : SfsCrash := .other .panic
def assertion : SfsCrash := .other .assertion

/-- The vnode `v` with another inode, which is then dirty. -/
def Fs.setInode (s : Fs) (v : Nat) (i : Buf) : Fs :=
  { s with sv := update s.sv v { s.sv v with inode := i, dirty := true } }

def Fs.setRefcount (s : Fs) (v n : Nat) : Fs :=
  { s with sv := update s.sv v { s.sv v with refcount := n } }

/-- `sfs_rblock` where the device reports no error; a block that is not on the device makes
`sfs_rwblock` panic. -/
def rblock (block : Nat) : SfsCall Buf := do
  let s ← Call.get
  require panic (block < s.nblocks)
  pure (s.disk block)

def wblock (data : Buf) (block : Nat) : SfsCall Unit := do
  let s ← Call.get
  require panic (block < s.nblocks)
  Call.modify fun s => { s with disk := update s.disk block data }

/-- The disk holds the volume, and all its commands complete. -/
structure OnDisk (answers : Nat → LhdCode) (h : Lhd) (s : Fs) : Prop where
  ok : ∀ n, answers n = .ok
  blocks : h.blocks = s.nblocks
  disk : ∀ block, ∀ k < blockSize, h.disk block k = s.disk block k

section
variable {answers : Nat → LhdCode} {h : Lhd} {s : Fs} {block : Nat} (hs : OnDisk answers h s)
  (hblock : block < 2 ^ 22) (data : Buf)
include hs hblock

omit hs in
theorem sectorOf_small : sectorOf block = block := (sectorOf_eq_self (by omega)).mpr (.inl hblock)

theorem OnDisk.refuses_iff : h.Refuses (sectorOf block) ↔ ¬ block < s.nblocks := by
  rw [sectorOf_small hblock, Lhd.Refuses, hs.blocks]
  omega

/-- `sfs_rblock` does on the disk what `rblock` says. -/
theorem OnDisk.rblock :
    (rblock block s = .error panic ∧ sfsRblock answers data block h = .error .panic) ∨
    ∃ d t, rblock block s = .ok (.ok d, s) ∧ sfsRblock answers data block h = .ok (.ok (), t) ∧
      OnDisk answers t.lhd s ∧ ∀ k < blockSize, t.xfer.mem k = d k := by
  have hout := hs.refuses_iff hblock
  by_cases hin : block < s.nblocks
  · have hio := (lhdIo_eq sfsUio_atSector fun h => hout.mp h hin).trans
      (@lhdSector_read_ok answers ⟨h, data, sfsUio block .read⟩ _ sfsUio_atSector rfl (hs.ok _))
    have hrun := @sfsRwblock_ok _ _ maxRetries _ hio
    refine .inr ⟨s.disk block, _, ?_, hrun, ⟨hs.ok, ?_, ?_⟩, fun k hk => ?_⟩
    · simp [Sfs.rblock, bind, Call.bind, Call.get, require, hin, pure, Call.pure]
    · simp only [Lhd.complete, hs.ok, hs.blocks]
    · simpa only [Lhd.complete, hs.ok] using hs.disk
    · rw [(sfsRblock_fetched hrun).2 k hk, sectorOf_small hblock, hs.disk block k hk]
  · refine .inl ⟨?_, sfsRwblock_einval (lhdIo_out sfsUio_atSector (hout.mpr hin))⟩
    simp [Sfs.rblock, bind, Call.bind, Call.get, require, hin, crash]

theorem OnDisk.wblock :
    (wblock data block s = .error panic ∧ sfsWblock answers data block h = .error .panic) ∨
    ∃ s' t, wblock data block s = .ok (.ok (), s') ∧
      sfsWblock answers data block h = .ok (.ok (), t) ∧ OnDisk answers t.lhd s' := by
  have hout := hs.refuses_iff hblock
  by_cases hin : block < s.nblocks
  · have hrun := (@sfsRwblock_write answers ⟨h, data, sfsUio block .write⟩ _ 9 sfsUio_atSector rfl
      (fun h => hout.mp h hin) sfsUio_advance_mod).1 (hs.ok _)
    refine .inr ⟨{ s with disk := update s.disk block data }, _, ?_, hrun, hs.ok, ?_, ?_⟩
    · simp [Sfs.wblock, bind, Call.bind, Call.get, require, hin, pure, Call.pure, Call.modify]
    · simp only [LhdIo.written, Lhd.complete, hs.ok, hs.blocks]
    intro b k hk
    simp only [LhdIo.written, Lhd.complete, hs.ok, sectorOf_small hblock, blit_through]
    by_cases hb : b = block
    · rw [hb, Function.update_self, Function.update_self]
      exact (blit_inside (Nat.zero_le k) (by rwa [Nat.zero_add])).trans (by simp [sfsUio, mkKuio])
    · rw [Function.update_of_ne hb, Function.update_of_ne hb]
      exact hs.disk b k hk
  · refine .inl ⟨?_, sfsRwblock_einval (lhdIo_out sfsUio_atSector (hout.mpr hin))⟩
    simp [Sfs.wblock, bind, Call.bind, Call.get, require, hin, crash]

end

def clearblock (block : Nat) : SfsCall Unit := wblock zeros block

def syncInode (v : Nat) : SfsCall Unit := do
  let s ← Call.get
  if (s.sv v).dirty then do
    wblock (s.sv v).inode v
    Call.modify fun s =>
      { s with sv := update s.sv v { s.sv v with dirty := false } }
  else pure ()

/-- `bitmap_alloc` of the free map. -/
def freemapAlloc : SfsCall Nat := fun s =>
  match bitmapAlloc s.freemap with
  | .error c => .error (.other c)
  | .ok none => .ok (.error .enospc, s)
  | .ok (some (block, map)) => .ok (.ok block, { s with freemap := map, freemapdirty := true })

def balloc : SfsCall Nat := do
  let block ← freemapAlloc
  let s ← Call.get
  require panic (block < s.nblocks)
  clearblock block
  pure block

def bfree (block : Nat) : SfsCall Unit := fun s =>
  match bitmapUnmark s.freemap block with
  | .error _ => .error .unmarkFree
  | .ok map => .ok (.ok (), { s with freemap := map, freemapdirty := true })

def bused (block : Nat) : SfsCall Bool := do
  let s ← Call.get
  require panic (block < s.nblocks)
  pure (bitmapIsset s.freemap block)

/-- The end of `sfs_bmap`: the block is handed back if it is in use. -/
def handBack (block : Nat) : SfsCall Nat :=
  if block = 0 then pure 0
  else do
    let used ← bused block
    require .markedFree (used = true)
    pure block

def bmapDirect (v fileblock : Nat) (doalloc : Bool) : SfsCall Nat := do
  let s ← Call.get
  let block := sfiDirect (s.sv v).inode fileblock
  if block = 0 ∧ doalloc then do
    let block ← balloc
    Call.modify fun s => s.setInode v (setDirect (s.sv v).inode fileblock block)
    handBack block
  else handBack block

/-- The part of `sfs_bmap` after the indirect block is in the buffer. -/
def bmapEntry (idbuf : Buf) (idblock idoff : Nat) (doalloc : Bool) : SfsCall Nat := do
  let block := idEntry idbuf idoff
  if block = 0 ∧ doalloc then do
    let block ← balloc
    wblock (setIdEntry idbuf idoff block) idblock
    handBack block
  else handBack block

def bmapIndirect (v idoff : Nat) (doalloc : Bool) : SfsCall Nat := do
  let s ← Call.get
  let idblock := sfiIndirect (s.sv v).inode
  if idblock = 0 ∧ !doalloc then pure 0
  else if idblock = 0 then do
    let idblock ← balloc
    Call.modify fun s => s.setInode v (setIndirect (s.sv v).inode idblock)
    bmapEntry zeros idblock idoff doalloc
  else do
    let idbuf ← rblock idblock
    bmapEntry idbuf idblock idoff doalloc

def bmap (v fileblock : Nat) (doalloc : Bool) : SfsCall Nat :=
  if fileblock < ndirect then bmapDirect v fileblock doalloc
  else do
    let fileblock := fileblock - ndirect
    failIf .einval (0 < fileblock / dbperidb)
    bmapIndirect v (fileblock % dbperidb) doalloc

/-- The file system with the transfer in progress. -/
structure Io where
  fs : Fs
  xfer : Xfer

abbrev IoCall := Call SfsCrash Io Errno

def onFs {α : Type} (m : SfsCall α) : IoCall α := Call.zoom Io.fs (fun s t => { s with fs := t }) m

/-- A call with a transfer of its own. -/
def withUio (x : Xfer) (m : IoCall Unit) : SfsCall Xfer :=
  Call.withLocal (fun s => Io.mk s x) Io.fs Io.xfer m

def Io.setUio (s : Io) (u : Uio) : Io := { s with xfer := { s.xfer with uio := u } }

/-- `uiomove(iobuf+skipstart, len, uio)`. -/
def moveAt (iobuf : Buf) (skipstart len : Nat) : IoCall Buf := fun s =>
  match uiomove (fun k => iobuf (skipstart + k)) len s.xfer with
  | .error c => .error (.other c)
  | .ok (ptr, x) => .ok (.ok (blit iobuf skipstart ptr 0 len), { s with xfer := x })

/-- The buffer of `sfs_partialio`: the block, or zeros where no block is mapped. -/
def loadBlock (diskblock : Nat) (rw : UioRw) : IoCall Buf :=
  if diskblock = 0 then do
    require assertion (rw = .read)
    pure zeros
  else onFs (rblock diskblock)

/-- The file's block a transfer is at. -/
def fileblockOf (u : Uio) : Nat := toU32 (u.offset.tdiv blockSize)

def partialio (v skipstart len : Nat) : IoCall Unit := do
  let s ← Call.get
  let uio := s.xfer.uio
  require assertion ((skipstart + len) % 2 ^ 32 ≤ blockSize)
  let diskblock ← onFs (bmap v (fileblockOf uio) (uio.rw = .write))
  let iobuf ← loadBlock diskblock uio.rw
  -- with a negative offset the pointer is in front of the buffer
  require (.other .outOfBounds) (len = 0 ∨ skipstart + len ≤ blockSize)
  let iobuf ← moveAt iobuf skipstart len
  if uio.rw = .write then onFs (wblock iobuf diskblock) else pure ()

/-- `sfs_rwblock` of one block, which the offset names. -/
def rwblock : IoCall Unit := fun s =>
  let block := fileblockOf s.xfer.uio
  if block < s.fs.nblocks then
    match uiomove (s.fs.disk block) blockSize s.xfer, s.xfer.uio.rw with
    | .error c, _ => .error (.other c)
    | .ok (_, x), .read => .ok (.ok (), ⟨s.fs, x⟩)
    | .ok (buf, x), .write =>
      .ok (.ok (), ⟨{ s.fs with disk := update s.fs.disk block buf }, x⟩)
  else .error panic

def moveZeros : IoCall Unit := fun s =>
  match uiomovezeros blockSize s.xfer with
  | .error c => .error (.other c)
  | .ok x => .ok (.ok (), { s with xfer := x })

/-- The transfer of `sfs_blockio` with the offset and residue of the device. -/
def deviceIo (diskblock : Nat) : IoCall Unit := do
  let s ← Call.get
  let saved := s.xfer.uio
  let diskoff := offT (diskblock * blockSize)
  require assertion (blockSize ≤ saved.resid)
  Call.modify fun s => s.setUio { s.xfer.uio with offset := diskoff, resid := blockSize }
  let result ← attempt rwblock
  Call.modify fun s => s.setUio { s.xfer.uio with
    offset := offT (s.xfer.uio.offset - diskoff + saved.offset)
    resid := toU32 (s.xfer.uio.resid - blockSize + saved.resid) }
  Call.result result

def blockio (v : Nat) : IoCall Unit := do
  let s ← Call.get
  let uio := s.xfer.uio
  let diskblock ← onFs (bmap v (fileblockOf uio) (uio.rw = .write))
  if diskblock = 0 then do
    require assertion (uio.rw = .read)
    moveZeros
  else deviceIo diskblock

/-- The leading partial block of `sfs_io`. -/
def leading (v : Nat) : IoCall Unit := do
  let s ← Call.get
  let uio := s.xfer.uio
  let blkoff := toU32 (uio.offset.tmod blockSize)
  if blkoff ≠ 0 then partialio v blkoff (min (sizeSub blockSize blkoff) uio.resid) else pure ()

/-- The loop of `sfs_io` over whole blocks. -/
def wholeBlocks (v : Nat) : Nat → IoCall Unit
  | 0 => pure ()
  | n + 1 => do
    blockio v
    wholeBlocks v n

def trailing (v : Nat) : IoCall Unit := do
  let s ← Call.get
  let uio := s.xfer.uio
  require assertion (uio.resid < blockSize)
  if 0 < uio.resid then partialio v 0 uio.resid else pure ()

/-- The remaining blocks after the leading one. -/
def aligned (v : Nat) : IoCall Unit := do
  let s ← Call.get
  let uio := s.xfer.uio
  if uio.resid = 0 then pure ()
  else do
    require assertion (uio.offset.tmod blockSize = 0)
    wholeBlocks v (uio.resid / blockSize)
    trailing v

/-- `out:` of `sfs_io`: a write may have made the file longer. -/
def Io.finish (s : Io) (v extraresid : Nat) : Io :=
  let uio := s.xfer.uio
  let i := (s.fs.sv v).inode
  let t := s.setUio { uio with resid := (uio.resid + extraresid) % 2 ^ 32 }
  if uio.rw = .write ∧ offT (sfiSize i) < uio.offset then
    { t with fs := s.fs.setInode v (setSize i (toU32 uio.offset)) }
  else t

/-- `sfs_io` after the check for the end of the file. -/
def ioFrom (v extraresid : Nat) : IoCall Unit := do
  let result ← attempt (do
    leading v
    aligned v)
  Call.modify fun s => s.finish v extraresid
  Call.result result

def io (v : Nat) : IoCall Unit := do
  let s ← Call.get
  let uio := s.xfer.uio
  let size := offT (sfiSize (s.fs.sv v).inode)
  let endpos := offT (uio.offset + uio.resid)
  if uio.rw = .write then ioFrom v 0
  else if size ≤ uio.offset then pure ()
  else if endpos ≤ size then ioFrom v 0
  else do
    let extraresid := toU32 (endpos - size)
    require assertion (extraresid < uio.resid)
    Call.modify fun s => s.setUio { uio with resid := uio.resid - extraresid }
    ioFrom v extraresid

def readdir (v slot : Nat) : SfsCall Buf := do
  let x ← withUio ⟨zeros, mkKuio dirSize (offT (slot * dirSize)) .read⟩ (io v)
  require panic (x.uio.resid = 0)
  pure x.mem

def writedir (v : Nat) (sd : Buf) (slot : Nat) : SfsCall Unit := do
  let x ← withUio ⟨sd, mkKuio dirSize (offT (slot * dirSize)) .write⟩ (io v)
  require panic (x.uio.resid = 0)

def dirNentries (v : Nat) : SfsCall Nat := do
  let s ← Call.get
  let i := (s.sv v).inode
  require assertion (sfiType i = FileType.dir.code)
  require panic (sfiSize i % dirSize = 0)
  pure (sfiSize i / dirSize)

/-- What a search of a directory hands back: the slot and the inode number of the name, and the
last free slot. -/
structure Scan where
  found : Option (Nat × Nat)
  empty : Option Nat

/-- The body of the loop of `sfs_dir_findname`. -/
def scanSlot (name : Name) (a : Scan) (i : Nat) (tsd : Buf) : SfsCall Scan :=
  if sfdIno tsd = noIno then pure { a with empty := some i }
  else if sfdName tsd = name.chars then do
    require assertion (a.found = none)
    pure { a with found := some (i, sfdIno tsd) }
  else pure a

def scanSlots (v : Nat) (name : Name) : Nat → SfsCall Scan
  | 0 => pure ⟨none, none⟩
  | i + 1 => do
    let a ← scanSlots v name i
    let tsd ← readdir v i
    scanSlot name a i tsd

/-- `sfs_dir_findname`; ENOENT is `found = none`. -/
def dirFindname (v : Nat) (name : Name) : SfsCall Scan := do
  let nentries ← dirNentries v
  scanSlots v name nentries

def emptySlot (v : Nat) (a : Scan) : SfsCall Nat :=
  match a.empty with
  | some slot => pure slot
  | none => dirNentries v

def dirLink (v : Nat) (name : Name) (ino : Nat) : SfsCall Nat := do
  let a ← dirFindname v name
  failIf .eexist (a.found ≠ none)
  failIf .enametoolong (nameLen < name.chars.length + 1)
  let slot ← emptySlot v a
  writedir v (dirEntry ino name) slot
  pure slot

def dirUnlink (v slot : Nat) : SfsCall Unit := writedir v zeros slot

/-- Whether the kernel's heap has room for a vnode and for its place in the table. -/
inductive Heap where
  | room | noVnode | noTable
  deriving DecidableEq, Repr

/-- The search of `sfs_loadvnode` in the table. -/
def findLoaded (ino : Nat) : List Nat → SfsCall Bool
  | [] => pure false
  | v :: vs => do
    let used ← bused v
    require .unallocated (used = true)
    if v = ino then pure true else findLoaded ino vs

/-- The vnode with a forced type, for a new object. -/
def forceType (i : Buf) (forcetype : FileType) : SfsCall SfsVnode :=
  if forcetype = .inval then pure ⟨i, false, 1⟩
  else do
    require assertion (sfiType i = FileType.inval.code)
    pure ⟨setType i forcetype, true, 1⟩

def readVnode (ino : Nat) (forcetype : FileType) (heap : Heap) : SfsCall Unit := do
  failIf .enomem (heap = .noVnode)
  let used ← bused ino
  require .unallocated (used = true)
  let i ← rblock ino
  let sv ← forceType i forcetype
  require panic (sfiType sv.inode = FileType.file.code ∨ sfiType sv.inode = FileType.dir.code)
  failIf .enomem (heap = .noTable)
  Call.modify fun s =>
    { s with vnodes := s.vnodes ++ [ino], sv := update s.sv ino sv }

def loadvnode (ino : Nat) (forcetype : FileType) (heap : Heap) : SfsCall Unit := do
  let s ← Call.get
  let found ← findLoaded ino s.vnodes
  if found then do
    require assertion (forcetype = .inval)
    Call.modify fun s => s.setRefcount ino ((s.sv ino).refcount + 1)
  else readVnode ino forcetype heap

def getroot (heap : Heap) : SfsCall Unit := do
  match ← attempt (loadvnode rootLocation .inval heap) with
  | .ok _ => pure ()
  | .error _ => crash panic

/-- The vnode and the slot of a name. -/
def lookonce (v : Nat) (name : Name) (heap : Heap) : SfsCall (Nat × Nat) := do
  let a ← dirFindname v name
  match a.found with
  | none => fail .enoent
  | some (slot, ino) => do
    loadvnode ino .inval heap
    let s ← Call.get
    require panic (sfiLinkcount (s.sv ino).inode ≠ 0)
    pure (ino, slot)

def makeobj (type : FileType) (heap : Heap) : SfsCall Nat := do
  let ino ← balloc
  loadvnode ino type heap
  pure ino

def truncateDirect (v blocklen : Nat) : Nat → SfsCall Unit
  | 0 => pure ()
  | i + 1 => do
    truncateDirect v blocklen i
    let s ← Call.get
    let block := sfiDirect (s.sv v).inode i
    if blocklen ≤ i ∧ block ≠ 0 then do
      bfree block
      Call.modify fun s => s.setInode v (setDirect (s.sv v).inode i 0)
    else pure ()

/-- The variables of the loop of `sfs_truncate` over the indirect block. -/
structure IdScan where
  idbuf : Buf
  hasnonzero : Bool
  iddirty : Bool

def truncateEntries (blocklen : Nat) (idbuf : Buf) : Nat → SfsCall IdScan
  | 0 => pure ⟨idbuf, false, false⟩
  | j + 1 => do
    let a ← truncateEntries blocklen idbuf j
    let block := idEntry a.idbuf j
    if blocklen < ndirect + j ∧ block ≠ 0 then do
      bfree block
      pure { a with idbuf := setIdEntry a.idbuf j 0, iddirty := true }
    else pure { a with hasnonzero := a.hasnonzero || block != 0 }

def truncateIndirect (v blocklen : Nat) : SfsCall Unit := do
  let s ← Call.get
  let idblock := sfiIndirect (s.sv v).inode
  if blocklen < ndirect + dbperidb - 1 ∧ idblock ≠ 0 then do
    let idbuf ← rblock idblock
    let a ← truncateEntries blocklen idbuf dbperidb
    if !a.hasnonzero then do
      bfree idblock
      Call.modify fun s => s.setInode v (setIndirect (s.sv v).inode 0)
    else if a.iddirty then wblock a.idbuf idblock
    else pure ()
  else pure ()

def truncate (v : Nat) (len : Int) : SfsCall Unit := do
  let blocklen := toU32 ((offT (len + blockSize - 1)).tdiv blockSize)
  truncateDirect v blocklen ndirect
  truncateIndirect v blocklen
  Call.modify fun s => s.setInode v (setSize (s.sv v).inode (toU32 len))

/-- An operation in the table for files, which for directories is `sfs_isdir`. -/
def fileOp {α : Type} (v : Nat) (m : SfsCall α) : SfsCall α := do
  let s ← Call.get
  if sfiType (s.sv v).inode = FileType.dir.code then fail .eisdir else m

/-- An operation in the table for directories, which for files is `sfs_notdir`. -/
def dirOp {α : Type} (v : Nat) (m : SfsCall α) : SfsCall α := do
  let s ← Call.get
  if sfiType (s.sv v).inode = FileType.dir.code then m else fail .enotdir

/-- The call `m` if no directory entry refers to the file. -/
def ifUnlinked (v : Nat) (m : SfsCall Unit) : SfsCall Unit := do
  let s ← Call.get
  if sfiLinkcount (s.sv v).inode = 0 then m else pure ()

/-- `sfs_reclaim` of a vnode with one reference left. -/
def reclaimLast (v : Nat) : SfsCall Unit := do
  ifUnlinked v (fileOp v (truncate v 0))
  syncInode v
  ifUnlinked v (bfree v)
  let s ← Call.get
  require panic (v ∈ s.vnodes)
  Call.modify fun s => { s with vnodes := s.vnodes.erase v }

def reclaim (v : Nat) : SfsCall Unit := do
  let s ← Call.get
  if (s.sv v).refcount ≠ 1 then do
    require assertion (1 < (s.sv v).refcount)
    Call.modify fun s => s.setRefcount v ((s.sv v).refcount - 1)
    fail .ebusy
  else reclaimLast v

/-- VOP_DECREF, which looks at no error of `sfs_reclaim`. -/
def decref (v : Nat) : SfsCall Unit := do
  let s ← Call.get
  require assertion (0 < (s.sv v).refcount)
  if 1 < (s.sv v).refcount then Call.modify fun s => s.setRefcount v ((s.sv v).refcount - 1)
  else do
    let _ ← attempt (reclaim v)
    pure ()

def read (v : Nat) (x : Xfer) : SfsCall Xfer := do
  require assertion (x.uio.rw = .read)
  withUio x (io v)

def write (v : Nat) (x : Xfer) : SfsCall Xfer := do
  require assertion (x.uio.rw = .write)
  withUio x (io v)

/-- `linkcount += d` and the dirty flag. -/
def addLinks (v : Nat) (d : Int) : SfsCall Unit :=
  Call.modify fun s =>
    s.setInode v (setLinkcount (s.sv v).inode ((sfiLinkcount (s.sv v).inode + d) % 2 ^ 16).toNat)

/-- The part of `sfs_creat` that makes a new file. -/
def creatNew (v : Nat) (name : Name) (heap : Heap) : SfsCall Nat := do
  let ino ← makeobj .file heap
  match ← attempt (dirLink v name ino) with
  | .error e => do
    decref ino
    fail e
  | .ok _ => do
    addLinks ino 1
    pure ino

def creat (v : Nat) (name : Name) (excl : Bool) (heap : Heap) : SfsCall Nat := do
  let a ← dirFindname v name
  match a.found with
  | some (_, ino) => do
    failIf .eexist (excl = true)
    loadvnode ino .inval heap
    pure ino
  | none => creatNew v name heap

def link (dir : Nat) (name : Name) (file : Nat) : SfsCall Unit := do
  let _ ← dirLink dir name file
  addLinks file 1

def remove (dir : Nat) (name : Name) (heap : Heap) : SfsCall Unit := do
  let (victim, slot) ← lookonce dir name heap
  match ← attempt (dirUnlink dir slot) with
  | .ok _ => do
    let s ← Call.get
    require assertion (0 < sfiLinkcount (s.sv victim).inode)
    addLinks victim (-1)
    decref victim
  | .error e => do
    decref victim
    fail e

/-- `puke_harder:` of `sfs_rename`. -/
def renameUndo (dir g1 slot2 : Nat) : SfsCall Unit := do
  match ← attempt (dirUnlink dir slot2) with
  | .error _ => crash panic
  | .ok _ => addLinks g1 (-1)

/-- `sfs_rename` after the file has its new name. -/
def renameUnlink (dir g1 slot1 slot2 : Nat) : SfsCall Unit := do
  addLinks g1 1
  match ← attempt (dirUnlink dir slot1) with
  | .error e => do
    renameUndo dir g1 slot2
    decref g1
    fail e
  | .ok _ => do
    let s ← Call.get
    require assertion (0 < sfiLinkcount (s.sv g1).inode)
    addLinks g1 (-1)
    decref g1

def rename (d1 : Nat) (n1 : Name) (d2 : Nat) (n2 : Name) (heap : Heap) : SfsCall Unit := do
  require assertion (d1 = d2)
  require assertion (d1 = rootLocation)
  let (g1, slot1) ← lookonce d1 n1 heap
  let s ← Call.get
  require assertion (sfiType (s.sv g1).inode = FileType.file.code)
  match ← attempt (dirLink d1 n2 g1) with
  | .error e => do
    decref g1
    fail e
  | .ok slot2 => renameUnlink d1 g1 slot1 slot2

def lookup (v : Nat) (path : Name) (heap : Heap) : SfsCall Nat := do
  let (final, _) ← lookonce v path heap
  pure final

end OS161.Sfs
