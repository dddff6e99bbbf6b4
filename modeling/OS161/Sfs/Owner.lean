import OS161.Sfs.Model
import OS161.Lib.Owner

/-! A file refers to its inode block, to its indirect block and to the blocks of its data. -/
namespace OS161.Sfs

open BigEndian Owner
open Call (ensures_bind after_ok ensures_get ensures_require ensures_pure)

section fields
variable {i : Buf} {k k' v : Nat} {t : FileType}

theorem sfiSize_setSize (h : v < 2 ^ 32) : sfiSize (setSize i v) = v :=
  read_write_of_lt h

@[simp] theorem sfiType_setSize : sfiType (setSize i v) = sfiType i :=
  read_write_of_disjoint (by omega)

@[simp] theorem sfiLinkcount_setSize : sfiLinkcount (setSize i v) = sfiLinkcount i :=
  read_write_of_disjoint (by omega)

@[simp] theorem sfiDirect_setSize : sfiDirect (setSize i v) k = sfiDirect i k :=
  read_write_of_disjoint (by omega)

@[simp] theorem sfiIndirect_setSize : sfiIndirect (setSize i v) = sfiIndirect i :=
  read_write_of_disjoint (by omega)

@[simp] theorem sfiType_setType : sfiType (setType i t) = t.code := by
  rw [sfiType, setType, read_write]
  cases t <;> rfl

@[simp] theorem sfiSize_setType : sfiSize (setType i t) = sfiSize i :=
  read_write_of_disjoint (by omega)

@[simp] theorem sfiLinkcount_setType : sfiLinkcount (setType i t) = sfiLinkcount i :=
  read_write_of_disjoint (by omega)

@[simp] theorem sfiDirect_setType : sfiDirect (setType i t) k = sfiDirect i k :=
  read_write_of_disjoint (by omega)

@[simp] theorem sfiIndirect_setType : sfiIndirect (setType i t) = sfiIndirect i :=
  read_write_of_disjoint (by omega)

@[simp] theorem sfiSize_setLinkcount : sfiSize (setLinkcount i v) = sfiSize i :=
  read_write_of_disjoint (by omega)

@[simp] theorem sfiType_setLinkcount : sfiType (setLinkcount i v) = sfiType i :=
  read_write_of_disjoint (by omega)

@[simp] theorem sfiDirect_setLinkcount : sfiDirect (setLinkcount i v) k = sfiDirect i k :=
  read_write_of_disjoint (by omega)

@[simp] theorem sfiIndirect_setLinkcount : sfiIndirect (setLinkcount i v) = sfiIndirect i :=
  read_write_of_disjoint (by omega)

theorem sfiDirect_setDirect (h : v < 2 ^ 32) : sfiDirect (setDirect i k v) k = v :=
  read_write_of_lt h

theorem sfiDirect_setDirect_ne (h : k' ≠ k) : sfiDirect (setDirect i k v) k' = sfiDirect i k' :=
  read_write_of_disjoint (by omega)

@[simp] theorem sfiSize_setDirect : sfiSize (setDirect i k v) = sfiSize i :=
  read_write_of_disjoint (by omega)

@[simp] theorem sfiType_setDirect : sfiType (setDirect i k v) = sfiType i :=
  read_write_of_disjoint (by omega)

@[simp] theorem sfiLinkcount_setDirect : sfiLinkcount (setDirect i k v) = sfiLinkcount i :=
  read_write_of_disjoint (by omega)

theorem sfiIndirect_setDirect (h : k < ndirect) :
    sfiIndirect (setDirect i k v) = sfiIndirect i := by
  unfold ndirect at h
  exact read_write_of_disjoint (by omega)

theorem sfiIndirect_setIndirect (h : v < 2 ^ 32) : sfiIndirect (setIndirect i v) = v :=
  read_write_of_lt h

theorem sfiDirect_setIndirect (h : k < ndirect) :
    sfiDirect (setIndirect i v) k = sfiDirect i k := by
  unfold ndirect at h
  exact read_write_of_disjoint (by omega)

@[simp] theorem sfiSize_setIndirect : sfiSize (setIndirect i v) = sfiSize i :=
  read_write_of_disjoint (by omega)

@[simp] theorem sfiType_setIndirect : sfiType (setIndirect i v) = sfiType i :=
  read_write_of_disjoint (by omega)

@[simp] theorem sfiLinkcount_setIndirect : sfiLinkcount (setIndirect i v) = sfiLinkcount i :=
  read_write_of_disjoint (by omega)

theorem idEntry_setIdEntry (h : v < 2 ^ 32) : idEntry (setIdEntry i k v) k = v :=
  read_write_of_lt h

theorem idEntry_setIdEntry_ne (h : k' ≠ k) : idEntry (setIdEntry i k v) k' = idEntry i k' :=
  read_write_of_disjoint (by omega)

@[simp] theorem idEntry_zeros : idEntry zeros k = 0 := read_zero

end fields

/-- The inode of a file, which is in memory when the file is loaded. -/
def inodeOf (s : Fs) (v : Nat) : Buf := if v ∈ s.vnodes then (s.sv v).inode else s.disk v

/-- The number of blocks a file can have. -/
def maxBlocks : Nat := ndirect + dbperidb

/-- The block with a file's block, and 0 for a hole. -/
def blockAt (disk : Nat → Buf) (i : Buf) (fb : Nat) : Nat :=
  if fb < ndirect then sfiDirect i fb
  else if fb < maxBlocks ∧ sfiIndirect i ≠ 0 then idEntry (disk (sfiIndirect i)) (fb - ndirect)
  else 0

/-- Where a file refers to a block. -/
inductive Place where
  | self | indirect
  | data (fb : Nat)
  deriving DecidableEq

/-- The block a file refers to. The root's inode is not a block that can be allocated. -/
def ref (s : Fs) (v : Nat) : Place → Nat
  | .self => if v = rootLocation then 0 else v
  | .indirect => sfiIndirect (inodeOf s v)
  | .data fb => blockAt s.disk (inodeOf s v) fb

/-- The contents of a file, with zeros in the holes. -/
def fileByte (s : Fs) (v pos : Nat) : Byte :=
  let b := blockAt s.disk (inodeOf s v) (pos / blockSize)
  if b = 0 then 0#8 else s.disk b (pos % blockSize)

def bitBlocks (nblocks : Nat) : Nat := (nblocks + 4096 - 1) / 4096

/-- The first block after the bitmap. -/
def firstData (nblocks : Nat) : Nat := mapLocation + bitBlocks nblocks

/-- A block for inodes and data that is marked in use. -/
def InUse (s : Fs) (b : Nat) : Prop :=
  firstData s.nblocks ≤ b ∧ b < s.nblocks ∧ bitmapIsset s.freemap b = true

/-- The free map fits the volume: only blocks for inodes and data are free. -/
structure Format (s : Fs) : Prop where
  padded : s.freemap.Padded
  nblocks_le : s.nblocks ≤ s.freemap.nbits
  small : s.nblocks ≤ 2 ^ 17
  data : firstData s.nblocks ≤ s.nblocks
  free : ∀ b < s.freemap.nbits, bitmapIsset s.freemap b = false →
    firstData s.nblocks ≤ b ∧ b < s.nblocks

/-- What holds of the files of the set `L`, among them all loaded ones. -/
structure Own (L : Set Nat) (s : Fs) : Prop where
  format : Format s
  nodup : s.vnodes.Nodup
  loaded : ∀ v ∈ s.vnodes, v ∈ L ∧ 0 < (s.sv v).refcount
  clean : ∀ v ∈ s.vnodes, (s.sv v).dirty = false → (s.sv v).inode = s.disk v
  ne_zero : 0 ∉ L
  owns : Owns {x : Nat × Place | x.1 ∈ L} (fun x => ref s x.1 x.2) (InUse s)

/-- Nothing but the file `v` has changed, and of it not the type, the links and the references. -/
structure Frame (L : Set Nat) (v : Nat) (s t : Fs) : Prop where
  nblocks : t.nblocks = s.nblocks
  vnodes : t.vnodes = s.vnodes
  sv : ∀ u ≠ v, t.sv u = s.sv u
  refcount : (t.sv v).refcount = (s.sv v).refcount
  inode : ∀ u ∈ L, u ≠ v → inodeOf t u = inodeOf s u
  bytes : ∀ u ∈ L, u ≠ v → ∀ pos, fileByte t u pos = fileByte s u pos
  type : sfiType (inodeOf t v) = sfiType (inodeOf s v)
  linkcount : sfiLinkcount (inodeOf t v) = sfiLinkcount (inodeOf s v)

variable {L : Set Nat} {s t r : Fs} {v u b fb : Nat} {p : Place} {d : Buf}

theorem Frame.refl : Frame L v s s := ⟨rfl, rfl, fun _ _ => rfl, rfl, fun _ _ _ => rfl,
  fun _ _ _ _ => rfl, rfl, rfl⟩

theorem Frame.trans (h : Frame L v s t) (h' : Frame L v t r) : Frame L v s r where
  nblocks := h'.nblocks.trans h.nblocks
  vnodes := h'.vnodes.trans h.vnodes
  sv u hu := (h'.sv u hu).trans (h.sv u hu)
  refcount := h'.refcount.trans h.refcount
  inode u hu hne := (h'.inode u hu hne).trans (h.inode u hu hne)
  bytes u hu hne pos := (h'.bytes u hu hne pos).trans (h.bytes u hu hne pos)
  type := h'.type.trans h.type
  linkcount := h'.linkcount.trans h.linkcount

def Fs.putBlock (s : Fs) (b : Nat) (d : Buf) : Fs := { s with disk := Function.update s.disk b d }

/-- The state after a block was allocated. -/
def Fs.alloc (s : Fs) (b : Nat) : Fs :=
  { s with
    freemap := s.freemap.mark b
    freemapdirty := true
    disk := Function.update s.disk b zeros }

def Fs.freeBlock (s : Fs) (b : Nat) : Fs :=
  { s with freemap := s.freemap.unmark b, freemapdirty := true }

theorem inodeOf_loaded (hv : v ∈ s.vnodes) : inodeOf s v = (s.sv v).inode := if_pos hv

theorem inodeOf_putBlock (h : u ∈ s.vnodes ∨ u ≠ b) : inodeOf (s.putBlock b d) u = inodeOf s u := by
  unfold inodeOf
  by_cases hu : u ∈ s.vnodes
  · rw [if_pos hu]
    exact if_pos hu
  · rw [if_neg hu]
    refine (if_neg hu).trans (Function.update_of_ne (h.resolve_left hu) _ _)

theorem inodeOf_setInode (hv : v ∈ s.vnodes) : inodeOf (s.setInode v d) v = d := by
  rw [inodeOf, if_pos (show v ∈ (s.setInode v d).vnodes from hv), Fs.setInode]
  simp only [Function.update_self]

theorem inodeOf_setInode_ne (h : u ≠ v) : inodeOf (s.setInode v d) u = inodeOf s u := by
  unfold inodeOf Fs.setInode
  simp only [Function.update_of_ne h]

theorem blockAt_congr {disk disk' : Nat → Buf} {i : Buf}
    (h : sfiIndirect i ≠ 0 → disk' (sfiIndirect i) = disk (sfiIndirect i)) :
    blockAt disk' i fb = blockAt disk i fb := by
  unfold blockAt
  split
  · rfl
  split
  · rename_i hin
    rw [h hin.2]
  · rfl

theorem root_lt_firstData {n : Nat} : rootLocation < firstData n := by
  unfold rootLocation firstData mapLocation
  omega

namespace Own

section
variable (h : Own L s)
include h

section
variable (hv : v ∈ L)
include hv

theorem self_inUse (hroot : v ≠ rootLocation) : InUse s v := by
  have hself : ref s v .self = v := if_neg hroot
  have huse := h.owns.used (v, .self) hv
  simp only [hself] at huse
  exact huse fun h0 => h.ne_zero (h0 ▸ hv)

theorem inUse (hne : ref s v p ≠ 0) : InUse s (ref s v p) :=
  h.owns.used (v, p) hv hne

theorem lt_nblocks : v < s.nblocks := by
  by_cases hroot : v = rootLocation
  · rw [hroot]
    exact root_lt_firstData.trans_le h.format.data
  · exact (h.self_inUse hv hroot).2.1

/-- Every inode is in a block that is marked in use. -/
theorem isset : bitmapIsset s.freemap v = true := by
  by_cases hroot : v = rootLocation
  · by_contra hclear
    have hlt := (h.lt_nblocks hv).trans_le h.format.nblocks_le
    have hdata := (h.format.free v hlt (Bool.not_eq_true _ ▸ hclear)).1
    exact absurd (hroot ▸ root_lt_firstData) (Nat.not_lt.mpr hdata)
  · exact (h.self_inUse hv hroot).2.2

theorem ne_self (hu : u ∈ L) (hp : p ≠ .self) (hne : ref s v p ≠ 0) : u ≠ ref s v p := by
  intro heq
  have hdata := (h.inUse hv hne).1
  have hroot : u ≠ rootLocation := by
    rintro rfl
    exact absurd (heq ▸ root_lt_firstData) (Nat.not_lt.mpr hdata)
  have hself : ref s u .self = u := if_neg hroot
  have hplace := h.owns.inj (v, p) hv (u, .self) hu hne (by rw [hself]; exact heq.symm)
  exact hp (congrArg Prod.snd hplace)

/-- An indirect block is referred to only as the indirect block of its file. -/
theorem indirect_ne (hu : u ∈ L) (hp : (v, p) ≠ (u, .indirect))
    (hne : ref s v p ≠ 0) : sfiIndirect (inodeOf s u) ≠ ref s v p :=
  h.owns.ne (i := (v, p)) (j := (u, .indirect)) hv hu hp hne

theorem data_ne (hu : u ∈ L) (hp : (v, p) ≠ (u, .data fb))
    (hne : ref s v p ≠ 0) : blockAt s.disk (inodeOf s u) fb ≠ ref s v p :=
  h.owns.ne (i := (v, p)) (j := (u, .data fb)) hv hu hp hne

end

end

end Own

/-- A block that can be allocated. -/
def Free (s : Fs) (b : Nat) : Prop := b < s.freemap.nbits ∧ bitmapIsset s.freemap b = false

theorem Free.data (hb : Free s b) (h : Format s) : firstData s.nblocks ≤ b ∧ b < s.nblocks :=
  h.free b hb.1 hb.2

theorem Free.not_inUse (hb : Free s b) : ¬ InUse s b := by
  rintro ⟨_, _, hset⟩
  rw [hb.2] at hset
  cases hset

theorem Free.ne_zero (hb : Free s b) (h : Format s) : b ≠ 0 := by
  have := (hb.data h).1
  unfold firstData mapLocation at this
  omega

theorem Own.free_ne_self (h : Own L s) (hb : Free s b) (hu : u ∈ L) : u ≠ b := by
  rintro rfl
  have := h.isset hu
  rw [hb.2] at this
  cases this

theorem Own.free_ne_ref (h : Own L s) (hb : Free s b) (hu : u ∈ L) : ref s u p ≠ b :=
  h.owns.ne_of_unused (j := (u, p)) hu hb.not_inUse (hb.ne_zero h.format)

theorem isset_alloc {c : Nat} :
    bitmapIsset (s.alloc b).freemap c = (decide (c = b) || bitmapIsset s.freemap c) := isset_mark

theorem isset_freeBlock {c : Nat} :
    bitmapIsset (s.freeBlock b).freemap c = (decide (c ≠ b) && bitmapIsset s.freemap c) :=
  isset_unmark

theorem free_alloc {c : Nat} : Free (s.alloc b) c ↔ Free s c ∧ c ≠ b := by
  rw [Free, isset_alloc, Bool.or_eq_false_iff, decide_eq_false_iff_not]
  constructor
  · rintro ⟨hlt, hne, hclear⟩
    exact ⟨⟨hlt, hclear⟩, hne⟩
  · rintro ⟨⟨hlt, hclear⟩, hne⟩
    exact ⟨hlt, hne, hclear⟩

/-- Blocks for inodes and data may be marked and unmarked. -/
theorem Format.remap (h : Format s) (hn : t.nblocks = s.nblocks)
    (hbits : t.freemap.nbits = s.freemap.nbits)
    (hset : ∀ i, bitmapIsset s.freemap i = true → bitmapIsset t.freemap i = true ∨
      firstData s.nblocks ≤ i ∧ i < s.nblocks) : Format t where
  padded := by
    intro i hi hlt
    rw [hbits] at hi
    rw [Bitmap.words, hbits] at hlt
    refine (hset i (h.padded i hi hlt)).resolve_right fun hdata => ?_
    exact absurd (hdata.2.trans_le h.nblocks_le) (Nat.not_lt.mpr hi)
  nblocks_le := by
    rw [hn, hbits]
    exact h.nblocks_le
  small := hn ▸ h.small
  data := hn ▸ h.data
  free := by
    intro b hb hclear
    rw [hn]
    rw [hbits] at hb
    by_cases hold : bitmapIsset s.freemap b = true
    · refine (hset b hold).resolve_left fun hnew => ?_
      rw [hclear] at hnew
      cases hnew
    · exact h.free b hb (Bool.not_eq_true _ ▸ hold)

theorem Format.alloc (h : Format s) : Format (s.alloc b) := by
  refine h.remap rfl rfl fun i hi => .inl ?_
  rw [isset_alloc, hi, Bool.or_true]

theorem Format.freeBlock (h : Format s) (hb : InUse s b) : Format (s.freeBlock b) := by
  refine h.remap rfl rfl fun i hi => ?_
  by_cases heq : i = b
  · exact .inr (heq ▸ ⟨hb.1, hb.2.1⟩)
  · rw [isset_freeBlock, hi, Bool.and_true]
    exact .inl (decide_eq_true heq)

section calls
variable {C : SfsCrash → Prop}

theorem ensures_rblock {Q : Except Errno Buf → Fs → Prop} (hb : b < s.nblocks) :
    Call.Ensures C (rblock b) Q s ↔ Q (.ok (s.disk b)) s := by
  simp only [rblock, ensures_bind, ensures_get, after_ok, ensures_require,
    ensures_pure, hb, not_true_eq_false, true_implies, false_implies, and_true]

variable {Q : Except Errno Unit → Fs → Prop}

theorem ensures_wblock (hb : b < s.nblocks) :
    Call.Ensures C (wblock d b) Q s ↔ Q (.ok ()) (s.putBlock b d) := by
  simp only [wblock, ensures_bind, ensures_get, after_ok, ensures_require,
    Call.ensures_modify, hb, not_true_eq_false, true_implies, false_implies, and_true]
  rfl

theorem ensures_bused {Q : Except Errno Bool → Fs → Prop} (hb : b < s.nblocks) :
    Call.Ensures C (bused b) Q s ↔ Q (.ok (bitmapIsset s.freemap b)) s := by
  simp only [bused, ensures_bind, ensures_get, after_ok, ensures_require,
    ensures_pure, hb, not_true_eq_false, true_implies, false_implies, and_true]

theorem ensures_bfree (h : Format s) (hb : InUse s b) :
    Call.Ensures C (bfree b) Q s ↔ Q (.ok ()) (s.freeBlock b) := by
  have hunmark := bitmapUnmark_of_isset (hb.2.1.trans_le h.nblocks_le) hb.2.2
  simp only [Call.Ensures, bfree, hunmark]
  rfl

theorem ensures_handBack {Q : Except Errno Nat → Fs → Prop} (hb : b ≠ 0 → InUse s b) :
    Call.Ensures C (handBack b) Q s ↔ Q (.ok b) s := by
  unfold handBack
  split
  · rename_i h0
    rw [h0, ensures_pure]
  rename_i hne
  rw [ensures_bind, ensures_bused (hb hne).2.1]
  simp only [after_ok, ensures_bind, ensures_require, ensures_pure,
    (hb hne).2.2, not_true_eq_false, true_implies, false_implies, and_true]

/-- What `sfs_balloc` does. -/
def Allocated (s : Fs) : Except Errno Nat → Fs → Prop
  | .ok b, t => Free s b ∧ t = s.alloc b
  | .error e, t => e = .enospc ∧ t = s ∧ ∀ b, ¬ Free s b

theorem balloc_spec (h : Format s) : Call.wp balloc (Allocated s) s := by
  obtain ⟨found, hfound, hlow⟩ := bitmapAlloc_spec h.padded
  rw [balloc, Call.wp, ensures_bind]
  cases found with
  | none =>
    have hrun : freemapAlloc s = .ok (.error .enospc, s) := by rw [freemapAlloc, hfound]
    refine Call.ensures_of_run hrun ⟨rfl, rfl, fun b hb => ?_⟩
    have hset := hlow b hb.1
    rw [hb.2] at hset
    cases hset
  | some found =>
    obtain ⟨b, map⟩ := found
    obtain ⟨hlt, hclear, _, rfl⟩ := hlow
    have hfree : Free s b := ⟨hlt, hclear⟩
    have hrun : freemapAlloc s =
        .ok (.ok b, { s with freemap := s.freemap.mark b, freemapdirty := true }) := by
      rw [freemapAlloc, hfound]
    refine Call.ensures_of_run hrun ?_
    simp only [after_ok, ensures_bind, ensures_get, ensures_require]
    refine ⟨fun hb => ?_, fun hb => hb (hfree.data h).2⟩
    rw [clearblock, ensures_wblock (by exact hb)]
    exact ⟨hfree, rfl⟩

end calls

end OS161.Sfs
