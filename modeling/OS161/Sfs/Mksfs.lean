import Mathlib.Data.List.Perm.Subperm
import OS161.Sfs.Load

/-! `mksfs` and `sfs_domount`; numbers on the disk are in the kernel's order of bytes. -/
namespace OS161.Sfs

open List (range' mem_cons mem_append mem_range'_1 nodup_range' mem_singleton not_mem_nil)

open Buffer
open Function (update update_of_ne update_self)
open Call (wp ensures_bind after_ok)

def sbLocation : Nat := 0
def sfsMagic : Nat := 0xabadf001
def volnameSize : Nat := 32
def maxBitBlocks : Nat := 32
def charBit : Nat := 8

def bitmapSize (nblocks : Nat) : Nat := bitBlocks nblocks * 4096

def spMagic (sp : Buf) : Nat := BigEndian.read 4 sp 0
def spNblocks (sp : Buf) : Nat := BigEndian.read 4 sp 4

/-- How `mksfs` ends without an image. -/
inductive MkError where
  | nameTooLong | tooLarge | assertion
  deriving DecidableEq, Repr

abbrev Disk := Nat → Buf

/-- The `struct sfs_super` of `writesuper`. -/
def superblock (volname : Name) (nblocks : Nat) : Buf :=
  let sp : Buf := fun k => if 8 ≤ k then volname.chars.getD (k - 8) 0#8 else 0#8
  BigEndian.write 4 (BigEndian.write 4 sp 0 sfsMagic) 4 nblocks

def writesuper (volname : Name) (nblocks : Nat) (disk : Disk) : Except MkError Disk :=
  if volnameSize ≤ volname.chars.length then .error .nameTooLong
  else .ok (update disk sbLocation (superblock volname nblocks))

/-- The `struct sfs_inode` of `writerootdir`. -/
def rootInode : Buf := setLinkcount (setType (setSize zeros 0) .dir) 1

def writerootdir (disk : Disk) : Disk := update disk rootLocation rootInode

def doallocbit (bitbuf : Buf) (bit : Nat) : Except MkError Buf :=
  let byte := bit / charBit
  let mask : Byte := 1#8 <<< (bit % charBit)
  if bitbuf byte &&& mask = 0#8 then .ok (update bitbuf byte (bitbuf byte ||| mask))
  else .error .assertion

/-- The blocks `writebitmap` marks, in their order. -/
def allocbits (fsblocks : Nat) : List Nat :=
  sbLocation :: rootLocation :: (range' mapLocation (bitBlocks fsblocks) ++
    range' fsblocks (bitmapSize fsblocks - fsblocks))

/-- The last loop of `writebitmap`. -/
def writeBits (bitbuf : Buf) : Nat → Disk → Disk
  | 0, disk => disk
  | i + 1, disk => update (writeBits bitbuf i disk) (mapLocation + i)
      fun k => bitbuf (i * blockSize + k)

def writebitmap (fsblocks : Nat) (disk : Disk) : Except MkError Disk :=
  if maxBitBlocks < bitBlocks fsblocks then .error .tooLarge
  else do
    let bitbuf ← (allocbits fsblocks).foldlM doallocbit zeros
    return writeBits bitbuf (bitBlocks fsblocks) disk

/-- `main`, once the volume name is checked, for a disk with `size` blocks. -/
def mksfs (volname : Name) (size : Nat) (disk : Disk) : Except MkError Disk := do
  let disk ← writesuper volname size disk
  writebitmap size (writerootdir disk)

/-- `sfs_mapio` for reading. -/
def mapio (disk : Disk) : Nat → Buf → Buf
  | 0, bitdata => bitdata
  | j + 1, bitdata =>
    blit (mapio disk j bitdata) (j * blockSize) (disk (mapLocation + j)) 0 blockSize

/-- The `struct sfs_fs` of `sfs_domount`. -/
def mounted (disk : Disk) (nblocks : Nat) : Fs :=
  let map := bitmapCreate (bitmapSize nblocks)
  { nblocks := nblocks
    disk := disk
    freemap := { map with v := mapio disk (bitBlocks nblocks) map.v }
    freemapdirty := false
    vnodes := []
    sv := fun _ => ⟨zeros, false, 0⟩ }

/-- `sfs_domount` of a disk with `blocks` blocks; `room` says whether `kmalloc` has memory. From
then on the device is taken to have the blocks its superblock counts. -/
def domount (disk : Disk) (blocks : Nat) (room : Bool) : Except SfsCrash (Except Errno Fs) :=
  let sp := disk sbLocation
  if !room then .ok (.error .enomem)
  else if blocks = 0 then .error panic
  else if spMagic sp ≠ sfsMagic then .ok (.error .einval)
  else if blocks < mapLocation + bitBlocks (spNblocks sp) then .error panic
  else .ok (.ok (mounted disk (spNblocks sp)))

variable {n m i b : Nat} {buf : Buf} {disk : Disk} {volname : Name}

/-- The bits of a buffer. -/
def bitsOf (buf : Buf) : Bitmap := ⟨0, buf⟩

theorem doallocbit_ok (h : bitmapIsset (bitsOf buf) i = false) :
    doallocbit buf i = .ok ((bitsOf buf).mark i).v := by
  have hclear : buf (i / charBit) &&& (1#8 <<< (i % charBit)) = 0#8 := by
    simpa [bitmapIsset, bitMask, bitsOf, bitsPerWord, charBit] using h
  simp only [doallocbit, if_pos hclear]
  rfl

theorem isset_bitsOf_v (map : Bitmap) : bitmapIsset (bitsOf map.v) i = bitmapIsset map i := rfl

theorem doallocbits_ok (l : List Nat) (hl : l.Nodup)
    (h : ∀ i ∈ l, bitmapIsset (bitsOf buf) i = false) :
    ∃ buf', l.foldlM doallocbit buf = .ok buf' ∧
      ∀ i, bitmapIsset (bitsOf buf') i = (decide (i ∈ l) || bitmapIsset (bitsOf buf) i) := by
  induction l generalizing buf with
  | nil => exact ⟨buf, rfl, fun i => by simp⟩
  | cons a l ih =>
    obtain ⟨ha, hl⟩ := List.nodup_cons.mp hl
    have hrest : ∀ i ∈ l, bitmapIsset (bitsOf ((bitsOf buf).mark a).v) i = false := by
      intro i hi
      rw [isset_bitsOf_v, isset_mark, h i (List.mem_cons_of_mem _ hi), Bool.or_false]
      exact decide_eq_false fun heq => ha (heq ▸ hi)
    obtain ⟨buf', hrun, hbits⟩ := ih hl hrest
    refine ⟨buf', ?_, fun i => ?_⟩
    · rw [List.foldlM_cons, doallocbit_ok (h a List.mem_cons_self)]
      exact hrun
    · rw [hbits i, isset_bitsOf_v, isset_mark]
      simp only [mem_cons, Bool.decide_or]
      cases decide (i = a) <;> cases decide (i ∈ l) <;> rfl

theorem writeBits_below (h : b < mapLocation) : writeBits buf m disk b = disk b := by
  induction m with
  | zero => rfl
  | succ m ih => rw [writeBits, update_of_ne (by omega), ih]

theorem writeBits_at (h : i < m) :
    writeBits buf m disk (mapLocation + i) = fun k => buf (i * blockSize + k) := by
  induction m with
  | zero => omega
  | succ m ih =>
    rw [writeBits]
    by_cases heq : i = m
    · rw [heq, update_self]
    · rw [update_of_ne (by omega), ih (by omega)]

theorem mapio_at (h : i < m * blockSize) :
    mapio disk m buf i = disk (mapLocation + i / blockSize) (i % blockSize) := by
  induction m with
  | zero => omega
  | succ m ih =>
    rw [mapio]
    by_cases hlow : i < m * blockSize
    · rw [blit_outside (.inl hlow), ih hlow]
    rw [Nat.succ_mul] at h
    have hdiv : i / blockSize = m := by
      unfold blockSize at h hlow ⊢
      omega
    have hmod : i % blockSize = i - m * blockSize := by
      unfold blockSize at h hlow ⊢
      omega
    rw [blit_inside (Nat.le_of_not_lt hlow) h, hdiv, hmod, Nat.zero_add]

/-- The kernel reads the bits that were written. -/
theorem mapio_writeBits (h : i < m * blockSize) {buf' : Buf} :
    mapio (writeBits buf m disk) m buf' i = buf i := by
  have hlt : i / blockSize < m := Nat.div_lt_of_lt_mul (Nat.mul_comm m _ ▸ h)
  rw [mapio_at h, writeBits_at hlt]
  exact congrArg buf (Nat.div_add_mod' i blockSize)

theorem nodup_allocbits (h : firstData n ≤ n) : (allocbits n).Nodup := by
  unfold firstData mapLocation at h
  simp only [allocbits, sbLocation, rootLocation, mapLocation, List.nodup_cons, mem_cons,
    mem_append, mem_range'_1, List.nodup_append]
  refine ⟨by omega, by omega, nodup_range', nodup_range', ?_⟩
  omega

theorem not_mem_allocbits (h : firstData n ≤ n) (hb : b < bitmapSize n) :
    b ∉ allocbits n ↔ firstData n ≤ b ∧ b < n := by
  unfold firstData mapLocation at h ⊢
  simp only [allocbits, sbLocation, rootLocation, mapLocation, mem_cons, mem_append,
    mem_range'_1]
  omega

/-- An empty volume of `n` blocks. -/
structure Image (n : Nat) (disk : Disk) : Prop where
  magic : spMagic (disk sbLocation) = sfsMagic
  nblocks : spNblocks (disk sbLocation) = n
  root : disk rootLocation = rootInode
  bits : ∀ buf, ∀ b < bitmapSize n,
    bitmapIsset (bitsOf (mapio disk (bitBlocks n) buf)) b = decide (b ∈ allocbits n)

/-- A volume that has just been mounted. -/
structure Fresh (n : Nat) (s : Fs) : Prop where
  nblocks : s.nblocks = n
  nbits : s.freemap.nbits = bitmapSize n
  isset : ∀ b < bitmapSize n, bitmapIsset s.freemap b = decide (b ∈ allocbits n)
  vnodes : s.vnodes = []
  root : s.disk rootLocation = rootInode

theorem spMagic_superblock : spMagic (superblock volname n) = sfsMagic := by
  rw [spMagic, superblock, BigEndian.read_write_of_disjoint (by omega)]
  exact BigEndian.read_write_of_lt (by decide)

theorem spNblocks_superblock (h : n < 2 ^ 32) : spNblocks (superblock volname n) = n :=
  BigEndian.read_write_of_lt h

/-- A bitmap of whole blocks has no leftover bits. -/
theorem bitmapCreate_bitmapSize : bitmapCreate (bitmapSize n) = ⟨bitmapSize n, fun _ => 0#8⟩ := by
  simp only [bitmapCreate]
  rw [if_neg]
  simp only [Bitmap.words, bitsPerWord, bitmapSize]
  omega

theorem writebitmap_ok (disk : Disk) (hdata : firstData n ≤ n) (hmax : bitBlocks n ≤ maxBitBlocks) :
    ∃ buf, writebitmap n disk = .ok (writeBits buf (bitBlocks n) disk) ∧
      ∀ i, bitmapIsset (bitsOf buf) i = decide (i ∈ allocbits n) := by
  have hzeros : ∀ i, bitmapIsset (bitsOf zeros) i = false := by simp [bitmapIsset, bitsOf, zeros]
  obtain ⟨buf, hbuf, hbits⟩ := doallocbits_ok (allocbits n) (nodup_allocbits hdata)
    fun i _ => hzeros i
  refine ⟨buf, ?_, fun i => by rw [hbits i, hzeros i, Bool.or_false]⟩
  rw [writebitmap, if_neg (Nat.not_lt.mpr hmax), hbuf]
  rfl

theorem isset_congr {map map' : Bitmap} (h : map.v (b / bitsPerWord) = map'.v (b / bitsPerWord)) :
    bitmapIsset map b = bitmapIsset map' b := by
  rw [bitmapIsset_eq, bitmapIsset_eq, h]

theorem mksfs_image (volname : Name) (disk : Disk) (hdata : firstData n ≤ n)
    (hmax : n ≤ maxBitBlocks * 4096) (hname : volname.chars.length < volnameSize) :
    ∃ disk', mksfs volname n disk = .ok disk' ∧ Image n disk' := by
  have hsmall : n < 2 ^ 32 := by
    unfold maxBitBlocks at hmax
    omega
  have hblocks : bitBlocks n ≤ maxBitBlocks := by
    unfold bitBlocks maxBitBlocks at *
    omega
  obtain ⟨buf, hwrite, hbits⟩ := writebitmap_ok
    (writerootdir (update disk sbLocation (superblock volname n))) hdata hblocks
  refine ⟨writeBits buf (bitBlocks n)
    (writerootdir (update disk sbLocation (superblock volname n))), ?_, ?_, ?_, ?_, ?_⟩
  · rw [mksfs, writesuper, if_neg (Nat.not_le.mpr hname)]
    exact hwrite
  · rw [writeBits_below (by decide)]
    exact spMagic_superblock
  · rw [writeBits_below (by decide)]
    exact spNblocks_superblock hsmall
  · rw [writeBits_below (by decide), writerootdir, update_self]
  intro buf' b hb
  rw [← hbits b]
  refine isset_congr (mapio_writeBits ?_)
  unfold bitmapSize at hb
  unfold blockSize bitsPerWord
  omega

theorem domount_image (h : Image n disk) (hdata : firstData n ≤ n) :
    domount disk n true = .ok (.ok (mounted disk n)) ∧ Fresh n (mounted disk n) := by
  have hpos : n ≠ 0 := by
    unfold firstData mapLocation at hdata
    omega
  have hmap : ¬ n < mapLocation + bitBlocks n := Nat.not_lt.mpr hdata
  refine ⟨?_, rfl, ?_, fun b hb => h.bits _ b hb, rfl, h.root⟩
  · simp only [domount, Bool.not_true, Bool.false_eq_true, if_false, if_neg hpos, h.magic,
      h.nblocks, ne_eq, not_true_eq_false, if_neg hmap]
  · simp only [mounted, bitmapCreate_bitmapSize]

theorem mksfs_ok {image : Disk} (h : mksfs volname n disk = .ok image) :
    volname.chars.length < volnameSize ∧ n ≤ maxBitBlocks * 4096 ∧
      spNblocks (image sbLocation) = n := by
  rw [mksfs, writesuper] at h
  split at h
  · cases h
  rename_i hname
  replace h : writebitmap n (writerootdir (update disk sbLocation
    (superblock volname n))) = .ok image := h
  rw [writebitmap] at h
  split at h
  · cases h
  rename_i hmax
  have hle : n ≤ maxBitBlocks * 4096 := by
    unfold bitBlocks maxBitBlocks at hmax
    unfold maxBitBlocks
    omega
  refine ⟨Nat.not_le.mp hname, hle, ?_⟩
  cases hbits : (allocbits n).foldlM doallocbit zeros with
  | error e =>
    rw [hbits] at h
    cases h
  | ok bitbuf =>
    rw [hbits] at h
    cases h
    rw [writeBits_below (by decide)]
    refine spNblocks_superblock ?_
    unfold maxBitBlocks at hle
    omega

theorem fresh_of_domount {image : Disk} {room : Bool} {s : Fs}
    (hmk : mksfs volname n disk = .ok image) (hmount : domount image n room = .ok (.ok s)) :
    Fresh n s ∧ firstData n ≤ n ∧ n ≤ maxBitBlocks * 4096 := by
  obtain ⟨hname, hmax, hblocks⟩ := mksfs_ok hmk
  have hdata : room = true ∧ firstData n ≤ n := by
    rw [domount, hblocks] at hmount
    cases room with
    | false => cases hmount
    | true =>
      refine ⟨rfl, ?_⟩
      by_contra hlt
      have hmap : n < mapLocation + bitBlocks n := Nat.not_le.mp hlt
      simp only [Bool.not_true, Bool.false_eq_true, if_false, if_pos hmap] at hmount
      split at hmount
      · cases hmount
      · split at hmount <;> cases hmount
  obtain ⟨rfl, hdata⟩ := hdata
  obtain ⟨image', hmk', himage⟩ := mksfs_image volname disk hdata hmax hname
  rw [hmk] at hmk'
  cases hmk'
  obtain ⟨hmount', hs⟩ := domount_image himage hdata
  rw [hmount] at hmount'
  cases hmount'
  exact ⟨hs, hdata, hmax⟩

section fresh
variable {s t : Fs}

theorem le_bitmapSize (n : Nat) : n ≤ bitmapSize n := by
  unfold bitmapSize bitBlocks
  omega

theorem Fresh.free_iff (h : Fresh n s) (hdata : firstData n ≤ n) :
    Free s b ↔ firstData n ≤ b ∧ b < n := by
  constructor
  · rintro ⟨hlt, hclear⟩
    rw [h.nbits] at hlt
    rw [h.isset b hlt, decide_eq_false_iff_not] at hclear
    exact (not_mem_allocbits hdata hlt).mp hclear
  · intro hb
    have hlt : b < bitmapSize n := hb.2.trans_le (le_bitmapSize n)
    refine ⟨h.nbits ▸ hlt, ?_⟩
    rw [h.isset b hlt, decide_eq_false_iff_not]
    exact (not_mem_allocbits hdata hlt).mpr hb

theorem Fresh.format (h : Fresh n s) (hdata : firstData n ≤ n) (hmax : n ≤ maxBitBlocks * 4096) :
    Format s where
  padded := by
    intro i hi hlt
    simp only [Bitmap.words, bitsPerWord, h.nbits, bitmapSize] at hi hlt
    omega
  nblocks_le := by
    rw [h.nblocks, h.nbits]
    exact le_bitmapSize n
  small := by
    rw [h.nblocks]
    unfold maxBitBlocks at hmax
    omega
  data := by
    rw [h.nblocks]
    exact hdata
  free := by
    intro b hlt hclear
    rw [h.nblocks]
    exact (h.free_iff hdata).mp ⟨hlt, hclear⟩

/-- `k` calls of `sfs_balloc` in a row. -/
def ballocs : Nat → SfsCall (List Nat)
  | 0 => pure []
  | k + 1 => do
    let bs ← ballocs k
    let b ← balloc
    pure (bs ++ [b])

/-- What is left after the blocks `bs` have been handed out. -/
structure Drained (s : Fs) (bs : List Nat) (t : Fs) : Prop where
  format : Format t
  nodup : bs.Nodup
  taken : ∀ b ∈ bs, Free s b
  free : ∀ b, Free t b ↔ Free s b ∧ b ∉ bs

/-- The calls of `sfs_balloc` hand out free blocks until there are none. -/
theorem ballocs_spec (h : Format s) (k : Nat) : wp (ballocs k) (fun r t =>
    (∃ bs, r = .ok bs ∧ bs.length = k ∧ Drained s bs t) ∨
      r = .error .enospc ∧ ∃ bs : List Nat, bs.length < k ∧ bs.Nodup ∧ (∀ b ∈ bs, Free s b) ∧
        ∀ b, Free s b → b ∈ bs) s := by
  induction k with
  | zero => exact .inl ⟨[], rfl, rfl, h, List.nodup_nil, by simp, by simp⟩
  | succ k ih =>
    rw [ballocs, wp, ensures_bind]
    refine Call.Ensures.mono ih ?_
    rintro r t (⟨bs, rfl, hlen, hd⟩ | ⟨rfl, bs, hlen, hrest⟩)
    · rw [after_ok, ensures_bind]
      refine (balloc_spec hd.format).mono fun r u hu => ?_
      cases r with
      | ok b =>
        obtain ⟨hb, rfl⟩ := hu
        obtain ⟨hbs, hnew⟩ := (hd.free b).mp hb
        refine .inl ⟨bs ++ [b], rfl, by simp [hlen], hd.format.alloc, ?_, ?_, ?_⟩
        · rw [List.nodup_append]
          refine ⟨hd.nodup, by simp, ?_⟩
          intro c hc c' hc' heq
          rw [mem_singleton] at hc'
          exact hnew (hc' ▸ heq ▸ hc)
        · intro c hc
          rcases mem_append.mp hc with hc | hc
          · exact hd.taken c hc
          · rw [mem_singleton] at hc
            exact hc ▸ hbs
        · intro c
          rw [free_alloc, hd.free c, mem_append, mem_singleton, not_or, and_assoc]
      | error e =>
        obtain ⟨rfl, rfl, hnone⟩ := hu
        refine .inr ⟨rfl, bs, by omega, hd.nodup, hd.taken, fun c hc => ?_⟩
        by_contra hnot
        exact hnone c ((hd.free c).mpr ⟨hc, hnot⟩)
    · exact .inr ⟨rfl, bs, by omega, hrest⟩

theorem length_le_of_range {bs : List Nat} (hn : bs.Nodup) (h : ∀ b ∈ bs, m ≤ b ∧ b < n) :
    bs.length ≤ n - m := by
  have hsub : bs ⊆ range' m (n - m) := by
    intro b hb
    have := h b hb
    rw [mem_range'_1]
    omega
  simpa using (List.subperm_of_subset hn hsub).length_le

theorem le_length_of_range {bs : List Nat} (h : ∀ b, m ≤ b → b < n → b ∈ bs) :
    n - m ≤ bs.length := by
  have hsub : range' m (n - m) ⊆ bs := by
    intro b hb
    rw [mem_range'_1] at hb
    exact h b hb.1 (by omega)
  simpa using (List.subperm_of_subset nodup_range' hsub).length_le

theorem Fresh.ballocs (h : Fresh n s) (hdata : firstData n ≤ n) (hmax : n ≤ maxBitBlocks * 4096)
    (k : Nat) :
    (k ≤ n - firstData n → ∃ bs t, Sfs.ballocs k s = .ok (.ok bs, t) ∧ bs.length = k ∧ bs.Nodup ∧
      ∀ b ∈ bs, firstData n ≤ b ∧ b < n) ∧
    (n - firstData n < k → ∃ t, Sfs.ballocs k s = .ok (.error .enospc, t)) := by
  obtain ⟨r, t, hrun, hr⟩ := Call.wp_iff.mp (ballocs_spec (h.format hdata hmax) k)
  rcases hr with ⟨bs, rfl, hlen, hd⟩ | ⟨rfl, bs, hlen, hnodup, -, hall⟩
  · have hrange : ∀ b ∈ bs, firstData n ≤ b ∧ b < n := fun b hb =>
      (h.free_iff hdata).mp (hd.taken b hb)
    have hle := length_le_of_range hd.nodup hrange
    exact ⟨fun _ => ⟨bs, t, hrun, hlen, hd.nodup, hrange⟩, fun hlt => by omega⟩
  · have hle := le_length_of_range fun b hb hb' => hall b ((h.free_iff hdata).mpr ⟨hb, hb'⟩)
    exact ⟨fun hk => by omega, fun _ => ⟨t, hrun⟩⟩

theorem sfiDirect_rootInode {k : Nat} : sfiDirect rootInode k = 0 := by
  rw [rootInode, sfiDirect_setLinkcount, sfiDirect_setType, sfiDirect_setSize]
  exact BigEndian.read_zero

theorem sfiIndirect_rootInode : sfiIndirect rootInode = 0 := by
  rw [rootInode, sfiIndirect_setLinkcount, sfiIndirect_setType, sfiIndirect_setSize]
  exact BigEndian.read_zero

theorem sfiType_rootInode : sfiType rootInode = FileType.dir.code := by
  rw [rootInode, sfiType_setLinkcount, sfiType_setType]

theorem sfiSize_rootInode : sfiSize rootInode = 0 := by
  rw [rootInode, sfiSize_setLinkcount, sfiSize_setType, sfiSize_setSize (by decide)]

/-- An empty directory refers to no blocks. -/
theorem Fresh.own (h : Fresh n s) (hdata : firstData n ≤ n) (hmax : n ≤ maxBitBlocks * 4096) :
    Own {rootLocation} s := by
  have hroot : inodeOf s rootLocation = rootInode := by
    rw [inodeOf, h.vnodes, if_neg not_mem_nil, h.root]
  have href : ∀ p, ref s rootLocation p = 0 := by
    intro p
    cases p with
    | self => rfl
    | indirect => rw [ref, hroot, sfiIndirect_rootInode]
    | data fb =>
      rw [ref, hroot, blockAt, sfiDirect_rootInode, sfiIndirect_rootInode]
      simp only [ne_eq, not_true_eq_false, and_false, if_false, ite_self]
  refine ⟨h.format hdata hmax, ?_, ?_, ?_, fun h0 => Nat.zero_ne_one h0, ?_, ?_⟩
  · rw [h.vnodes]
    exact List.nodup_nil
  · simp [h.vnodes]
  · simp [h.vnodes]
  · rintro ⟨u, p⟩ rfl _ _ hne
    exact absurd (href p) hne
  · rintro ⟨u, p⟩ rfl hne
    exact absurd (href p) hne

/-- The root directory loads, and it is empty. -/
theorem Fresh.getroot (h : Fresh n s) (hdata : firstData n ≤ n) (hmax : n ≤ maxBitBlocks * 4096) :
    ∃ t, Sfs.getroot .room s = .ok (.ok (), t) ∧ t.vnodes = [rootLocation] ∧
      dirNentries rootLocation t = .ok (.ok 0, t) := by
  have hown := h.own hdata hmax
  have hread : Readable (s.disk rootLocation) .inval := by
    rw [h.root]
    exact .inr sfiType_rootInode
  have hload : wp (loadvnode rootLocation .inval .room) _ s :=
    loadvnode_read hown (hown.lt_nblocks rfl) (hown.isset rfl) (by simp [h.vnodes]) hread
  have hroot : wp (Sfs.getroot .room) (fun r t => r = .ok () ∧
      t = s.load rootLocation (newVnode (s.disk rootLocation) .inval)) s := by
    simp only [Sfs.getroot, wp, ensures_bind, Call.ensures_attempt, after_ok]
    refine hload.mono ?_
    rintro (e | _) t hspec
    · exact absurd rfl hspec.2.1
    · exact ⟨rfl, hspec.2⟩
  obtain ⟨r, t, hrun, rfl, rfl⟩ := Call.wp_iff.mp hroot
  refine ⟨_, hrun, ?_, ?_⟩
  · show s.vnodes ++ [rootLocation] = [rootLocation]
    rw [h.vnodes, List.nil_append]
  have hinode : ((s.load rootLocation (newVnode (s.disk rootLocation) .inval)).sv
      rootLocation).inode = rootInode := by
    rw [Fs.load, h.root]
    rfl
  have hentries : wp (dirNentries rootLocation) (fun r t => r = .ok 0 ∧
      t = s.load rootLocation (newVnode (s.disk rootLocation) .inval))
      (s.load rootLocation (newVnode (s.disk rootLocation) .inval)) := by
    simp only [dirNentries, wp, ensures_bind, Call.ensures_get, after_ok, hinode,
      sfiType_rootInode, sfiSize_rootInode, Call.ensures_require, Call.ensures_pure,
      Nat.zero_mod, Nat.zero_div, true_implies, not_true_eq_false, false_implies, and_true]
  obtain ⟨r, t, hrun, rfl, rfl⟩ := Call.wp_iff.mp hentries
  exact hrun

end fresh

/-- The image of `mksfs`, mounted: the free blocks are those after the bitmap, each is handed out
once before ENOSPC, and the root directory is empty. -/
theorem mksfs_agrees (volname : Name) (n : Nat) (disk : Disk) (hdata : firstData n < n)
    (hmax : n ≤ maxBitBlocks * 4096) (hname : volname.chars.length < volnameSize) :
    ∃ image s, mksfs volname n disk = .ok image ∧ domount image n true = .ok (.ok s) ∧
      s.nblocks = n ∧
      (∀ b, Free s b ↔ mapLocation + bitBlocks n ≤ b ∧ b < n) ∧
      (∀ k ≤ n - firstData n, ∃ bs t, ballocs k s = .ok (.ok bs, t) ∧ bs.length = k ∧ bs.Nodup ∧
        ∀ b ∈ bs, mapLocation + bitBlocks n ≤ b ∧ b < n) ∧
      (∀ k, n - firstData n < k → ∃ t, ballocs k s = .ok (.error .enospc, t)) ∧
      ∃ t, getroot .room s = .ok (.ok (), t) ∧ t.vnodes = [rootLocation] ∧
        dirNentries rootLocation t = .ok (.ok 0, t) := by
  obtain ⟨image, hmk, himage⟩ : ∃ image, mksfs volname n disk = .ok image ∧ Image n image :=
    mksfs_image volname disk hdata.le hmax hname
  obtain ⟨hmount, hs⟩ := domount_image himage hdata.le
  refine ⟨image, _, hmk, hmount, hs.nblocks, fun b => hs.free_iff hdata.le, ?_, ?_,
    hs.getroot hdata.le hmax⟩
  · exact fun k hk => (hs.ballocs hdata.le hmax k).1 hk
  · exact fun k hk => (hs.ballocs hdata.le hmax k).2 hk

/-- On a disk of four blocks, block 3 is left. -/
theorem mksfs_agrees_four : firstData 4 < 4 ∧
    ∃ image s, mksfs ⟨[], not_mem_nil⟩ 4 (fun _ => zeros) = .ok image ∧
      domount image 4 true = .ok (.ok s) ∧ Free s 3 ∧
        ∃ t, ballocs 2 s = .ok (.error .enospc, t) := by
  obtain ⟨image, s, hmk, hmount, -, hfree, -, hspace, -⟩ := mksfs_agrees ⟨[], not_mem_nil⟩ 4
    (fun _ => zeros) (by decide) (by decide) (by decide)
  exact ⟨by decide, image, s, hmk, hmount, (hfree 3).mpr (by decide), hspace 2 (by decide)⟩

end OS161.Sfs
