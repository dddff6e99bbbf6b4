import OS161.Sfs.Owner

/-! A step on one file writes to blocks of that file and to free blocks only. Then `sfs_bmap`. -/
namespace OS161.Sfs

open Owner
open Function (update_self update_of_ne)
open Call (ensures_bind after_ok ensures_ite wp)

variable {L : Set Nat} {s t r : Fs} {v u b fb k : Nat} {p : Place} {d : Buf}

/-- The blocks a step on the file `v` may write to. -/
def Writable (s : Fs) (v c : Nat) : Prop := Free s c ∨ ∃ p, ref s v p = c ∧ c ≠ 0

/-- The step from `s` to `t` works on the file `v`. -/
structure Touch (v : Nat) (s t : Fs) : Prop where
  nblocks : t.nblocks = s.nblocks
  vnodes : t.vnodes = s.vnodes
  sv : ∀ u ≠ v, t.sv u = s.sv u
  refcount : (t.sv v).refcount = (s.sv v).refcount
  disk : ∀ c, ¬ Writable s v c → t.disk c = s.disk c

namespace Touch
variable (h : Own L s) (ht : Touch v s t) (hv : v ∈ L) (hu : u ∈ L) (hne : u ≠ v)
include h ht hv hu hne

/-- The blocks of another file are not written to. -/
theorem disk_ref (h0 : ref s u p ≠ 0) : t.disk (ref s u p) = s.disk (ref s u p) := by
  refine ht.disk _ ?_
  rintro (hfree | ⟨p', heq, -⟩)
  · exact h.free_ne_ref hfree hu rfl
  · have hplace := h.owns.inj (u, p) hu (v, p') hv h0 heq.symm
    exact hne (congrArg Prod.fst hplace)

theorem disk_self : t.disk u = s.disk u := by
  by_cases hroot : u = rootLocation
  · refine ht.disk u ?_
    rintro (hfree | ⟨p', heq, h0⟩)
    · exact h.free_ne_self hfree hu rfl
    have hdata := (h.inUse hv (heq ▸ h0 : ref s v p' ≠ 0)).1
    rw [heq, hroot] at hdata
    exact absurd root_lt_firstData (Nat.not_lt.mpr hdata)
  · have hself : ref s u .self = u := if_neg hroot
    have h0 : ref s u .self ≠ 0 := by
      rw [hself]
      exact fun h0 => h.ne_zero (h0 ▸ hu)
    have hdisk := disk_ref h ht hv hu hne h0
    rwa [hself] at hdisk

theorem inodeOf_eq : inodeOf t u = inodeOf s u := by
  unfold inodeOf
  rw [ht.vnodes, ht.sv u hne, disk_self h ht hv hu hne]

theorem blockAt_eq : blockAt t.disk (inodeOf t u) fb = blockAt s.disk (inodeOf s u) fb := by
  rw [inodeOf_eq h ht hv hu hne]
  exact blockAt_congr (disk_ref h ht hv hu hne (p := .indirect))

theorem ref_eq : ref t u p = ref s u p := by
  cases p with
  | self => rfl
  | indirect => exact congrArg sfiIndirect (inodeOf_eq h ht hv hu hne)
  | data fb => exact blockAt_eq h ht hv hu hne

theorem fileByte_eq (pos : Nat) : fileByte t u pos = fileByte s u pos := by
  unfold fileByte
  rw [blockAt_eq h ht hv hu hne]
  dsimp only
  split
  · rfl
  rename_i h0
  have hdisk := disk_ref h ht hv hu hne (show ref s u (.data (pos / blockSize)) ≠ 0 from h0)
  rw [show t.disk (blockAt s.disk (inodeOf s u) (pos / blockSize)) = _ from hdisk]
  rfl

end Touch

theorem Touch.frame (h : Own L s) (ht : Touch v s t) (hv : v ∈ L)
    (htype : sfiType (inodeOf t v) = sfiType (inodeOf s v))
    (hlinks : sfiLinkcount (inodeOf t v) = sfiLinkcount (inodeOf s v)) : Frame L v s t where
  nblocks := ht.nblocks
  vnodes := ht.vnodes
  sv := ht.sv
  refcount := ht.refcount
  inode _ hu hne := ht.inodeOf_eq h hv hu hne
  bytes _ hu hne := ht.fileByte_eq h hv hu hne
  type := htype
  linkcount := hlinks

namespace Own
variable (h : Own L s) (hv : v ∈ L) (ht : Touch v s t)
  (hclean : (t.sv v).dirty = false → (t.sv v).inode = t.disk v)
include h hv ht hclean

private theorem touch (hf : Format t)
    (howns : Owns {x : Nat × Place | x.1 ∈ L} (fun x => ref t x.1 x.2) (InUse t)) : Own L t where
  format := hf
  nodup := ht.vnodes ▸ h.nodup
  loaded := by
    intro u hu
    rw [ht.vnodes] at hu
    refine ⟨(h.loaded u hu).1, ?_⟩
    by_cases hne : u = v
    · rw [hne, ht.refcount, ← hne]
      exact (h.loaded u hu).2
    · rw [ht.sv u hne]
      exact (h.loaded u hu).2
  clean := by
    intro u hu
    by_cases hne : u = v
    · rw [hne]
      exact hclean
    · rw [ht.vnodes] at hu
      rw [ht.sv u hne, ht.disk_self h hv (h.loaded u hu).1 hne]
      exact h.clean u hu
  ne_zero := h.ne_zero
  owns := howns

theorem keep (hmap : t.freemap = s.freemap) (hrest : ∀ q, ref t v q = ref s v q) : Own L t := by
  refine h.touch hv ht hclean (h.format.remap ht.nblocks (by rw [hmap]) ?_) ?_
  · intro i hi
    rw [hmap]
    exact .inl hi
  refine h.owns.restrict ?_ ?_
  · rintro ⟨u, q⟩ hu -
    refine ⟨hu, ?_⟩
    by_cases hne : u = v
    · exact hne ▸ hrest q
    · exact ht.ref_eq h hv hu hne
  · intro j _ _ hused
    unfold InUse at hused ⊢
    rwa [ht.nblocks, hmap]

theorem assign (hb : Free s b) (hmap : t.freemap = s.freemap.mark b) (hp : ref t v p = b)
    (hrest : ∀ q ≠ p, ref t v q = ref s v q) : Own L t := by
  have hset : ∀ i, bitmapIsset t.freemap i = (decide (i = b) || bitmapIsset s.freemap i) := by
    intro i
    rw [hmap]
    exact isset_mark
  have hmono : ∀ i, InUse s i → InUse t i := by
    rintro i ⟨hlow, hlt, hi⟩
    refine ⟨ht.nblocks ▸ hlow, ht.nblocks ▸ hlt, ?_⟩
    rw [hset, hi, Bool.or_true]
  refine h.touch hv ht hclean (h.format.remap ht.nblocks (by rw [hmap]; rfl) ?_) ?_
  · intro i hi
    rw [hset, hi, Bool.or_true]
    exact .inl rfl
  refine h.owns.assign (i := (v, p)) (b := b) ?_ hp hb.not_inUse ?_ hmono
  · rintro ⟨u, q⟩ hu hne -
    refine ⟨hu, ?_⟩
    by_cases huv : u = v
    · subst huv
      exact hrest q fun hq => hne (by rw [hq])
    · exact ht.ref_eq h hv hu huv
  · have hdata := hb.data h.format
    refine ⟨ht.nblocks ▸ hdata.1, ht.nblocks ▸ hdata.2, ?_⟩
    rw [hset, decide_eq_true rfl, Bool.true_or]

theorem release (h0 : ref s v p ≠ 0) (hmap : t.freemap = s.freemap.unmark (ref s v p))
    (hp : ref t v p = 0) (hrest : ∀ q ≠ p, ref t v q = ref s v q ∨ ref t v q = 0) : Own L t := by
  have hset : ∀ i, bitmapIsset t.freemap i =
      (decide (i ≠ ref s v p) && bitmapIsset s.freemap i) := by
    intro i
    rw [hmap]
    exact isset_unmark
  refine h.touch hv ht hclean (h.format.remap ht.nblocks (by rw [hmap]; rfl) ?_) ?_
  · intro i hi
    by_cases heq : i = ref s v p
    · have hin := h.inUse hv h0
      exact .inr (heq ▸ ⟨hin.1, hin.2.1⟩)
    · rw [hset, hi, Bool.and_true]
      exact .inl (decide_eq_true heq)
  · have hr : ∀ x ∈ {x : Nat × Place | x.1 ∈ L}, ref t x.1 x.2 ≠ 0 →
        x ≠ (v, p) ∧ ref t x.1 x.2 = ref s x.1 x.2 := by
      rintro ⟨u, q⟩ hu hq0
      by_cases huv : u = v
      · subst huv
        have hqp : q ≠ p := by
          rintro rfl
          exact hq0 hp
        refine ⟨fun heq => hqp (congrArg Prod.snd heq), ?_⟩
        exact (hrest q hqp).resolve_right hq0
      · exact ⟨fun heq => huv (congrArg Prod.fst heq), ht.ref_eq h hv hu huv⟩
    refine h.owns.restrict (fun x hx hx0 => ⟨hx, (hr x hx hx0).2⟩) ?_
    rintro x hx hx0 ⟨hlow, hlt, hi⟩
    obtain ⟨hne, heq⟩ := hr x hx hx0
    refine ⟨ht.nblocks ▸ hlow, ht.nblocks ▸ hlt, ?_⟩
    have hother : ref t x.1 x.2 ≠ ref s v p := by
      rw [heq]
      exact h.owns.ne hv hx hne.symm h0
    rw [hset, hi, Bool.and_true]
    exact decide_eq_true hother

end Own

/-- The contents of a file's block. -/
def fileBlock (s : Fs) (v fb : Nat) : Buf :=
  if ref s v (.data fb) = 0 then zeros else s.disk (ref s v (.data fb))

theorem fileByte_eq_block (pos : Nat) :
    fileByte s v pos = fileBlock s v (pos / blockSize) (pos % blockSize) := by
  unfold fileBlock
  split
  · rename_i h0
    exact if_pos h0
  · rename_i h0
    exact if_neg h0

/-- The step from `s` to `t` works on the file `v` and changes nothing that can be read from it. -/
structure Kept (L : Set Nat) (v : Nat) (s t : Fs) : Prop where
  own : Own L t
  frame : Frame L v s t
  size : sfiSize (inodeOf t v) = sfiSize (inodeOf s v)
  blocks : ∀ fb, fileBlock t v fb = fileBlock s v fb

theorem Kept.refl (h : Own L s) : Kept L v s s := ⟨h, .refl, rfl, fun _ => rfl⟩

theorem Kept.trans (h : Kept L v s t) (h' : Kept L v t r) : Kept L v s r :=
  ⟨h'.own, h.frame.trans h'.frame, h'.size.trans h.size,
    fun fb => (h'.blocks fb).trans (h.blocks fb)⟩

/-- A block that a hole of the file gets is full of zeros. -/
theorem fileBlock_assign (hdisk : t.disk b = zeros) (hp : ref t v p = b)
    (h0 : ref s v p = 0) (hrest : ∀ q ≠ p, ref t v q = ref s v q)
    (hold : ∀ k, ref s v (.data k) ≠ 0 → t.disk (ref s v (.data k)) = s.disk (ref s v (.data k)))
    (fb : Nat) : fileBlock t v fb = fileBlock s v fb := by
  unfold fileBlock
  by_cases hq : .data fb = p
  · rw [hq, hp, hdisk, h0, if_pos rfl]
    split <;> rfl
  rw [hrest _ hq]
  split
  · rfl
  · rename_i hne
    exact hold fb hne

/-- Afterwards the place `p` of the file `v` refers to `b`. Nothing else of the file has changed. -/
structure Repointed (v : Nat) (p : Place) (b : Nat) (s t : Fs) : Prop extends Touch v s t where
  clean : (t.sv v).dirty = false → (t.sv v).inode = t.disk v
  here : ref t v p = b
  rest : ∀ q ≠ p, ref t v q = ref s v q
  data : ∀ k, ref s v (.data k) ≠ 0 → t.disk (ref s v (.data k)) = s.disk (ref s v (.data k))
  type : sfiType (inodeOf t v) = sfiType (inodeOf s v)
  linkcount : sfiLinkcount (inodeOf t v) = sfiLinkcount (inodeOf s v)
  size : sfiSize (inodeOf t v) = sfiSize (inodeOf s v)

/-- A place of the file that was empty gets a free block. -/
theorem Repointed.kept (ht : Repointed v p b s t) (h : Own L s) (hv : v ∈ L) (hb : Free s b)
    (hmap : t.freemap = s.freemap.mark b) (hdisk : t.disk b = zeros) (h0 : ref s v p = 0) :
    Kept L v s t where
  own := h.assign hv ht.toTouch ht.clean hb hmap ht.here ht.rest
  frame := ht.toTouch.frame h hv ht.type ht.linkcount
  size := ht.size
  blocks := fileBlock_assign hdisk ht.here h0 ht.rest ht.data

section blockAt
variable {disk disk' : Nat → Buf} {i : Buf}

theorem blockAt_direct (hfb : fb < ndirect) : blockAt disk i fb = sfiDirect i fb := if_pos hfb

theorem blockAt_indirect (hfb : ¬ fb < ndirect) :
    blockAt disk i fb = if fb < maxBlocks ∧ sfiIndirect i ≠ 0 then
      idEntry (disk (sfiIndirect i)) (fb - ndirect) else 0 := if_neg hfb

theorem blockAt_noIndirect (h0 : sfiIndirect i = 0) (hfb : ¬ fb < ndirect) :
    blockAt disk i fb = 0 := by
  rw [blockAt_indirect hfb, if_neg fun hin => hin.2 h0]

theorem sfiIndirect_new {type : FileType} : sfiIndirect (setType zeros type) = 0 :=
  sfiIndirect_setType.trans BigEndian.read_zero

theorem blockAt_new {type : FileType} : blockAt disk (setType zeros type) fb = 0 := by
  by_cases hfb : fb < ndirect
  · rw [blockAt_direct hfb, sfiDirect_setType]
    exact BigEndian.read_zero
  · exact blockAt_noIndirect sfiIndirect_new hfb

theorem blockAt_setDirect (hk : k < ndirect) (hb : b < 2 ^ 32)
    (hx : sfiIndirect i ≠ 0 → disk' (sfiIndirect i) = disk (sfiIndirect i)) :
    blockAt disk' (setDirect i k b) fb = if fb = k then b else blockAt disk i fb := by
  by_cases hfb : fb < ndirect
  · rw [blockAt_direct hfb, blockAt_direct hfb]
    split
    · rename_i heq
      rw [heq, sfiDirect_setDirect hb]
    · rename_i hne
      exact sfiDirect_setDirect_ne hne
  · rw [if_neg (show fb ≠ k by omega), ← blockAt_congr hx, blockAt_indirect hfb,
      blockAt_indirect hfb, sfiIndirect_setDirect hk]

theorem blockAt_setIdEntry (hk : k < dbperidb) (hb : b < 2 ^ 32) (hx0 : sfiIndirect i ≠ 0)
    (hx : disk' (sfiIndirect i) = setIdEntry (disk (sfiIndirect i)) k b) :
    blockAt disk' i fb = if fb = ndirect + k then b else blockAt disk i fb := by
  by_cases hfb : fb < ndirect
  · rw [blockAt_direct hfb, blockAt_direct hfb, if_neg (by omega)]
  rw [blockAt_indirect hfb, blockAt_indirect hfb, hx]
  by_cases hfk : fb = ndirect + k
  · have hmax : ndirect + k < maxBlocks := Nat.add_lt_add_left hk _
    rw [if_pos hfk, hfk, if_pos ⟨hmax, hx0⟩, Nat.add_sub_cancel_left, idEntry_setIdEntry hb]
  · rw [if_neg hfk, idEntry_setIdEntry_ne (by omega)]

end blockAt

/-- The state with another free map and another disk. -/
def Fs.onDisk (s : Fs) (map : Bitmap) (dirty : Bool) (disk : Nat → Buf) : Fs :=
  { s with freemap := map, freemapdirty := dirty, disk := disk }

theorem dirty_setInode : ((s.setInode v d).sv v).dirty = true := by
  simp only [Fs.setInode, update_self]

section places
variable {map : Bitmap} {dirty : Bool} {disk : Nat → Buf} (hv : v ∈ s.vnodes)
include hv

theorem repointed_inode (hdisk : ∀ c, ¬ Writable s v c → disk c = s.disk c)
    (hdata : ∀ k, ref s v (.data k) ≠ 0 → disk (ref s v (.data k)) = s.disk (ref s v (.data k)))
    (hp : ref ((s.onDisk map dirty disk).setInode v d) v p = b)
    (hrest : ∀ q ≠ p, ref ((s.onDisk map dirty disk).setInode v d) v q = ref s v q)
    (htype : sfiType d = sfiType (s.sv v).inode)
    (hlinks : sfiLinkcount d = sfiLinkcount (s.sv v).inode)
    (hsize : sfiSize d = sfiSize (s.sv v).inode) :
    Repointed v p b s ((s.onDisk map dirty disk).setInode v d) := by
  have hi := inodeOf_loaded hv
  have hi' : inodeOf ((s.onDisk map dirty disk).setInode v d) v = d := inodeOf_setInode hv
  refine ⟨⟨rfl, rfl, fun u hu => update_of_ne hu _ _, ?_, hdisk⟩, fun hd => ?_, hp, hrest, hdata,
    ?_, ?_, ?_⟩
  · simp only [Fs.setInode, update_self]
    rfl
  · rw [dirty_setInode] at hd
    cases hd
  · rw [hi', hi, htype]
  · rw [hi', hi, hlinks]
  · rw [hi', hi, hsize]

theorem repointed_direct (h : Own L s) (hdisk : ∀ c, ¬ Free s c → disk c = s.disk c)
    (hk : k < ndirect) (hb : b < 2 ^ 32) : Repointed v (.data k) b s
      ((s.onDisk map dirty disk).setInode v (setDirect (s.sv v).inode k b)) := by
  have hi := inodeOf_loaded hv
  have hi' : inodeOf ((s.onDisk map dirty disk).setInode v (setDirect (s.sv v).inode k b)) v =
    setDirect (s.sv v).inode k b := inodeOf_setInode hv
  have hold : ∀ q, ref s v q ≠ 0 → disk (ref s v q) = s.disk (ref s v q) :=
    fun q _ => hdisk _ fun hf => h.free_ne_ref hf (h.loaded v hv).1 rfl
  have hdata : ∀ fb, ref ((s.onDisk map dirty disk).setInode v (setDirect (s.sv v).inode k b)) v
      (.data fb) = if fb = k then b else ref s v (.data fb) := by
    intro fb
    rw [ref, ref, hi', hi]
    refine blockAt_setDirect hk hb fun hx => ?_
    have hx' := hold .indirect
    rw [ref, hi] at hx'
    exact hx' hx
  refine repointed_inode hv (fun c hc => hdisk c fun hf => hc (.inl hf)) (fun fb => hold _) ?_ ?_
    sfiType_setDirect sfiLinkcount_setDirect sfiSize_setDirect
  · rw [hdata, if_pos rfl]
  intro q hq
  cases q with
  | self => rfl
  | indirect => rw [ref, ref, hi', hi, sfiIndirect_setDirect hk]
  | data fb => rw [hdata, if_neg fun heq => hq (congrArg Place.data heq)]

theorem repointed_indirect (hdisk : ∀ c, ¬ Writable s v c → disk c = s.disk c)
    (hdata : ∀ k, ref s v (.data k) ≠ 0 → disk (ref s v (.data k)) = s.disk (ref s v (.data k)))
    (hb : b < 2 ^ 32) (hzero : ∀ fb, ndirect ≤ fb → ref s v (.data fb) = 0)
    (hb0 : b ≠ 0 → disk b = zeros) : Repointed v .indirect b s
      ((s.onDisk map dirty disk).setInode v (setIndirect (s.sv v).inode b)) := by
  have hi := inodeOf_loaded hv
  have hi' : inodeOf ((s.onDisk map dirty disk).setInode v (setIndirect (s.sv v).inode b)) v =
    setIndirect (s.sv v).inode b := inodeOf_setInode hv
  refine repointed_inode hv hdisk hdata ?_ ?_ sfiType_setIndirect sfiLinkcount_setIndirect
    sfiSize_setIndirect
  · rw [ref, hi', sfiIndirect_setIndirect hb]
  intro q hq
  cases q with
  | self => rfl
  | indirect => exact absurd rfl hq
  | data fb =>
    by_cases hfb : fb < ndirect
    · rw [ref, ref, hi', hi, blockAt_direct hfb, blockAt_direct hfb, sfiDirect_setIndirect hfb]
    -- the new indirect block, if there is one, has no entries
    rw [hzero fb (Nat.not_lt.mp hfb), ref, hi', blockAt_indirect hfb,
      sfiIndirect_setIndirect hb]
    split
    · rename_i hin
      rw [show ((s.onDisk map dirty disk).setInode v _).disk b = zeros from hb0 hin.2]
      exact idEntry_zeros
    · rfl

theorem repointed_entry {x : Nat} (h : Own L s) (hdisk : ∀ c, ¬ Free s c → disk c = s.disk c)
    (hx : ref s v .indirect = x) (hx0 : x ≠ 0) (hk : k < dbperidb) (hb : b < 2 ^ 32) :
    Repointed v (.data (ndirect + k)) b s
      ((s.onDisk map dirty disk).putBlock x (setIdEntry (s.disk x) k b)) := by
  generalize ht : (s.onDisk map dirty disk).putBlock x (setIdEntry (s.disk x) k b) = t
  have hvL := (h.loaded v hv).1
  have hi := inodeOf_loaded hv
  have hi' : inodeOf t v = (s.sv v).inode := by
    rw [← ht]
    exact inodeOf_loaded (s := (s.onDisk map dirty disk).putBlock x _) hv
  have hold : ∀ c ≠ x, ¬ Free s c → t.disk c = s.disk c := by
    intro c hc hf
    rw [← ht]
    exact (update_of_ne hc _ _).trans (hdisk c hf)
  have hdata : ∀ fb, ref t v (.data fb) = if fb = ndirect + k then b else ref s v (.data fb) := by
    intro fb
    rw [ref, hi] at hx
    rw [ref, ref, hi', hi]
    refine blockAt_setIdEntry hk hb (hx ▸ hx0) ?_
    rw [hx, ← ht]
    exact update_self ..
  have hself : v ≠ x := hx ▸ h.ne_self hvL hvL (by decide) (hx ▸ hx0)
  refine ⟨⟨?_, ?_, ?_, ?_, fun c hc => ?_⟩, ?_, ?_, ?_, fun fb h0 => ?_, ?_, ?_, ?_⟩
  · rw [← ht]; rfl
  · rw [← ht]; rfl
  · rw [← ht]; exact fun _ _ => rfl
  · rw [← ht]; rfl
  · refine hold c (fun heq => hc (.inr ⟨.indirect, ?_, heq ▸ hx0⟩)) fun hf => hc (.inl hf)
    rw [hx, heq]
  · rw [hold v hself fun hf => h.free_ne_self hf hvL rfl, ← ht]
    exact h.clean v hv
  · rw [hdata, if_pos rfl]
  · intro q hq
    cases q with
    | self => rfl
    | indirect => rw [ref, ref, hi', hi]
    | data fb => rw [hdata, if_neg fun heq => hq (congrArg Place.data heq)]
  · have hne := h.indirect_ne hvL hvL (p := .data fb) (by simp) h0
    exact hold _ (fun heq => hne (hx.trans heq.symm)) fun hf => h.free_ne_ref hf hvL rfl
  · rw [hi', hi]
  · rw [hi', hi]
  · rw [hi', hi]

end places

/-- What `sfs_bmap` finds or makes. -/
def Mapped (L : Set Nat) (v fb : Nat) (doalloc : Bool) (s : Fs) : Except Errno Nat → Fs → Prop
  | .ok b, t => Kept L v s t ∧ b = ref t v (.data fb) ∧ fb < maxBlocks ∧
      if doalloc then b ≠ 0 else t = s
  | .error e, t => Kept L v s t ∧
      (e = .einval ∧ maxBlocks ≤ fb ∧ t = s ∨
        e = .enospc ∧ doalloc = true ∧ ref s v (.data fb) = 0)

/-- Without an indirect block, the file has no block past the direct ones. -/
theorem ref_data_noIndirect (h0 : ref s v .indirect = 0) (hfb : ndirect ≤ fb) :
    ref s v (.data fb) = 0 :=
  blockAt_noIndirect h0 (Nat.not_lt.mpr hfb)

theorem Free.lt_word (hb : Free s b) (h : Format s) : b < 2 ^ 32 := by
  have := (hb.data h).2
  have := h.small
  omega

theorem Free.disk_alloc {c : Nat} (hb : Free s b) (hc : ¬ Free s c) :
    (s.alloc b).disk c = s.disk c :=
  update_of_ne (fun heq : c = b => hc (heq ▸ hb)) _ _

section bmap
variable (h : Own L s) (hv : v ∈ s.vnodes)
include h hv

theorem Own.kept_direct (hb : Free s b) (hfb : fb < ndirect) (h0 : ref s v (.data fb) = 0)
    (ht : t = (s.alloc b).setInode v (setDirect (s.sv v).inode fb b)) :
    Kept L v s t ∧ ref t v (.data fb) = b := by
  have hrep : Repointed v (.data fb) b s t :=
    ht ▸ repointed_direct hv h (fun _ => hb.disk_alloc) hfb (hb.lt_word h.format)
  refine ⟨hrep.kept h (h.loaded v hv).1 hb ?_ ?_ h0, hrep.here⟩
  · rw [ht]
    rfl
  · rw [ht]
    exact update_self ..

theorem Own.kept_indirect (hb : Free s b) (h0 : ref s v .indirect = 0)
    (ht : t = (s.alloc b).setInode v (setIndirect (s.sv v).inode b)) :
    Kept L v s t ∧ t.disk b = zeros ∧ ref t v .indirect = b := by
  have hvL := (h.loaded v hv).1
  have hdisk : (s.alloc b).disk b = zeros := update_self ..
  have hrep : Repointed v .indirect b s t := ht ▸ repointed_indirect hv
    (fun c hc => hb.disk_alloc fun hf => hc (.inl hf))
    (fun k _ => hb.disk_alloc fun hf => h.free_ne_ref hf hvL rfl) (hb.lt_word h.format)
    (fun fb => ref_data_noIndirect h0) fun _ => hdisk
  have hdisk' : t.disk b = zeros := by
    rw [ht]
    exact hdisk
  refine ⟨hrep.kept h hvL hb ?_ hdisk' h0, hdisk', hrep.here⟩
  rw [ht]
  rfl

theorem Own.kept_entry {x : Nat} (hb : Free s b) (hx : ref s v .indirect = x) (hx0 : x ≠ 0)
    (hk : k < dbperidb) (h0 : ref s v (.data (ndirect + k)) = 0)
    (ht : t = (s.alloc b).putBlock x (setIdEntry (s.disk x) k b)) :
    Kept L v s t ∧ ref t v (.data (ndirect + k)) = b := by
  have hvL := (h.loaded v hv).1
  have hrep : Repointed v (.data (ndirect + k)) b s t :=
    ht ▸ repointed_entry hv h (fun _ => hb.disk_alloc) hx hx0 hk (hb.lt_word h.format)
  refine ⟨hrep.kept h hvL hb ?_ ?_ h0, hrep.here⟩
  · rw [ht]
    rfl
  · have hbx : b ≠ x := fun heq => h.free_ne_ref hb hvL (hx.trans heq.symm)
    rw [ht]
    exact (update_of_ne hbx _ _).trans (update_self ..)

variable {doalloc : Bool}

theorem Own.mapped_found (hfb : fb < maxBlocks)
    (hdone : ¬ (ref s v (.data fb) = 0 ∧ doalloc = true)) :
    wp (handBack (ref s v (.data fb))) (Mapped L v fb doalloc s) s := by
  rw [wp, ensures_handBack (h.inUse (h.loaded v hv).1)]
  refine ⟨.refl h, rfl, hfb, ?_⟩
  split
  · rename_i hd
    exact fun h0 => hdone ⟨h0, hd⟩
  · rfl

omit h hv in
theorem Kept.mapped_new (hkept : Kept L v s t) (hvt : v ∈ t.vnodes) (hb : ref t v (.data fb) = b)
    (hb0 : b ≠ 0) (hfb : fb < maxBlocks) : wp (handBack b) (Mapped L v fb true s) t := by
  have hin := hkept.own.inUse (hkept.own.loaded v hvt).1 (p := .data fb) (hb ▸ hb0)
  rw [hb] at hin
  rw [wp, ensures_handBack fun _ => hin]
  exact ⟨hkept, hb.symm, hfb, hb0⟩

omit hv in
theorem Own.mapped_nospace {e : Errno} (h0 : ref s v (.data fb) = 0)
    (hfail : Allocated s (.error e) t) : Mapped L v fb true s (.error e) t := by
  obtain ⟨he, rfl, -⟩ := hfail
  exact ⟨.refl h, .inr ⟨he, rfl, h0⟩⟩

theorem bmapDirect_spec (hfb : fb < ndirect) :
    wp (bmapDirect v fb doalloc) (Mapped L v fb doalloc s) s := by
  have hmax : fb < maxBlocks := Nat.lt_add_right _ hfb
  have hblock : sfiDirect (s.sv v).inode fb = ref s v (.data fb) := by
    rw [ref, inodeOf_loaded hv, blockAt_direct hfb]
  simp only [bmapDirect, wp, ensures_bind, Call.ensures_get, after_ok, hblock, ensures_ite]
  refine ⟨?_, fun hdone => h.mapped_found hv hmax hdone⟩
  rintro ⟨h0, rfl⟩
  refine (balloc_spec h.format).mono ?_
  rintro (e | b) t hspec
  · exact h.mapped_nospace h0 hspec
  obtain ⟨hb, rfl⟩ := hspec
  obtain ⟨hkept, href⟩ := h.kept_direct hv hb hfb h0 rfl
  exact hkept.mapped_new hv href (hb.ne_zero h.format) hmax

theorem bmapEntry_spec (doalloc : Bool) (hx0 : ref s v .indirect ≠ 0) (hk : k < dbperidb) :
    wp (bmapEntry (s.disk (ref s v .indirect)) (ref s v .indirect) k doalloc)
      (Mapped L v (ndirect + k) doalloc s) s := by
  have hmax : ndirect + k < maxBlocks := Nat.add_lt_add_left hk _
  have hblock : idEntry (s.disk (ref s v .indirect)) k = ref s v (.data (ndirect + k)) := by
    rw [ref, ref, blockAt_indirect (by omega), if_pos ⟨hmax, hx0⟩, Nat.add_sub_cancel_left]
  simp only [bmapEntry, wp, hblock, ensures_ite]
  refine ⟨?_, fun hdone => h.mapped_found hv hmax hdone⟩
  rintro ⟨h0, rfl⟩
  rw [ensures_bind]
  refine (balloc_spec h.format).mono ?_
  rintro (e | b) t hspec
  · exact h.mapped_nospace h0 hspec
  obtain ⟨hb, rfl⟩ := hspec
  obtain ⟨hkept, href⟩ := h.kept_entry hv hb rfl hx0 hk h0 rfl
  have hlt := (h.inUse (h.loaded v hv).1 hx0).2.1
  rw [after_ok, ensures_bind, ensures_wblock (by exact hlt), after_ok]
  exact hkept.mapped_new hv href (hb.ne_zero h.format) hmax

-- The zeros have a name here, so that nothing evaluates their entries.
theorem bmapEntry_new_spec {z : Buf} (hz : z = zeros) (hb : Free s b)
    (h0 : ref s v .indirect = 0) (hk : k < dbperidb)
    (ht : t = (s.alloc b).setInode v (setIndirect (s.sv v).inode b)) :
    wp (bmapEntry z b k true) (Mapped L v (ndirect + k) true s) t := by
  obtain ⟨hkept, hdisk, href⟩ := h.kept_indirect hv hb h0 ht
  have hne : ref t v .indirect ≠ 0 := by
    rw [href]
    exact hb.ne_zero h.format
  have hvt : v ∈ t.vnodes := by
    rw [hkept.frame.vnodes]
    exact hv
  have hentry := bmapEntry_spec hkept.own hvt true hne hk
  rw [href, hdisk, ← hz] at hentry
  refine hentry.mono ?_
  rintro (e | c) t hspec
  · refine ⟨hkept.trans hspec.1, .inr ?_⟩
    obtain ⟨-, ⟨-, hle, -⟩ | ⟨he, hd, -⟩⟩ := hspec
    · exact absurd (Nat.add_lt_add_left hk _) (Nat.not_lt.mpr hle)
    · exact ⟨he, hd, ref_data_noIndirect h0 (Nat.le_add_right ..)⟩
  · exact ⟨hkept.trans hspec.1, hspec.2⟩

theorem bmapIndirect_spec (doalloc : Bool) (hk : k < dbperidb) :
    wp (bmapIndirect v k doalloc) (Mapped L v (ndirect + k) doalloc s) s := by
  have hvL := (h.loaded v hv).1
  have hmax : ndirect + k < maxBlocks := Nat.add_lt_add_left hk _
  have hind : sfiIndirect (s.sv v).inode = ref s v .indirect := by rw [ref, inodeOf_loaded hv]
  simp only [bmapIndirect, wp, ensures_bind, Call.ensures_get, after_ok, hind, ensures_ite]
  refine ⟨?_, fun hrest => ⟨?_, ?_⟩⟩
  · rintro ⟨h0, hd⟩
    obtain rfl : doalloc = false := by simpa using hd
    exact ⟨.refl h, (ref_data_noIndirect h0 (Nat.le_add_right ..)).symm, hmax, rfl⟩
  · intro h0
    obtain rfl : doalloc = true := by
      by_contra hd
      exact hrest ⟨h0, by simpa using hd⟩
    refine (balloc_spec h.format).mono ?_
    generalize hz : zeros = z
    rintro (e | b) t hspec
    · exact h.mapped_nospace (ref_data_noIndirect h0 (Nat.le_add_right ..)) hspec
    · obtain ⟨hb, rfl⟩ := hspec
      exact bmapEntry_new_spec h hv hz.symm hb h0 hk rfl
  · intro hne
    rw [ensures_rblock (h.inUse hvL hne).2.1, after_ok]
    exact bmapEntry_spec h hv doalloc hne hk

theorem bmap_spec : wp (bmap v fb doalloc) (Mapped L v fb doalloc s) s := by
  unfold bmap
  split
  · rename_i hfb
    exact bmapDirect_spec h hv hfb
  rename_i hfb
  simp only [wp, ensures_bind, Call.ensures_failIf, after_ok, Call.after_error]
  refine ⟨fun hdiv => ⟨.refl h, .inl ⟨rfl, ?_, rfl⟩⟩, fun hdiv => ?_⟩
  · unfold dbperidb at hdiv
    unfold maxBlocks dbperidb
    omega
  have hlt : fb - ndirect < dbperidb := by
    unfold dbperidb at hdiv ⊢
    omega
  have hspec := bmapIndirect_spec h hv doalloc hlt
  rw [Nat.add_sub_cancel' (Nat.not_lt.mp hfb)] at hspec
  rw [Nat.mod_eq_of_lt hlt]
  exact hspec

end bmap

end OS161.Sfs
