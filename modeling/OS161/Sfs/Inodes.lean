import OS161.Sfs.Load
import OS161.Sfs.Truncate

/-! Inodes that come and go leave every other file as it is. -/
namespace OS161.Sfs

open Function (update_self update_of_ne update)

variable {L : Set Nat} {s t r : Fs} {v u b : Nat} {p : Place} {sv : SfsVnode}

/-- The files of `L` are in `t` what they are in `s`. -/
structure Carries (L : Set Nat) (s t : Fs) : Prop where
  nblocks : t.nblocks = s.nblocks
  inode : ∀ u ∈ L, inodeOf t u = inodeOf s u
  ref : ∀ u ∈ L, ∀ p, ref t u p = ref s u p
  bytes : ∀ u ∈ L, ∀ pos, fileByte t u pos = fileByte s u pos

theorem Carries.refl : Carries L s s :=
  ⟨rfl, fun _ _ => rfl, fun _ _ _ => rfl, fun _ _ _ => rfl⟩

theorem Carries.trans (h : Carries L s t) (h' : Carries L t r) : Carries L s r where
  nblocks := h'.nblocks.trans h.nblocks
  inode u hu := (h'.inode u hu).trans (h.inode u hu)
  ref u hu p := (h'.ref u hu p).trans (h.ref u hu p)
  bytes u hu pos := (h'.bytes u hu pos).trans (h.bytes u hu pos)

/-- It is enough to look at the inodes and at the blocks they refer to. -/
theorem carries_of_blocks (hn : t.nblocks = s.nblocks) (hi : ∀ u ∈ L, inodeOf t u = inodeOf s u)
    (hd : ∀ u ∈ L, ∀ p ≠ .self, ref s u p ≠ 0 → t.disk (ref s u p) = s.disk (ref s u p)) :
    Carries L s t := by
  have hblock : ∀ u ∈ L, ∀ fb,
      blockAt t.disk (inodeOf t u) fb = blockAt s.disk (inodeOf s u) fb := by
    intro u hu fb
    rw [hi u hu]
    exact blockAt_congr (hd u hu .indirect (by decide))
  refine ⟨hn, hi, fun u hu p => ?_, fun u hu pos => ?_⟩
  · cases p with
    | self => rfl
    | indirect => rw [ref, ref, hi u hu]
    | data fb => exact hblock u hu fb
  unfold fileByte
  rw [hblock u hu]
  dsimp only
  split
  · rfl
  rename_i h0
  have hdisk := hd u hu (.data (pos / blockSize)) (by simp) h0
  rw [ref] at hdisk
  rw [hdisk]

theorem Own.carry (h : Own L s) (hc : Carries L s t) (hf : Format t)
    (hnodup : t.vnodes.Nodup) (hloaded : ∀ v ∈ t.vnodes, v ∈ L ∧ 0 < (t.sv v).refcount)
    (hclean : ∀ v ∈ t.vnodes, (t.sv v).dirty = false → (t.sv v).inode = t.disk v)
    (hset : ∀ u ∈ L, ∀ p, ref s u p ≠ 0 → bitmapIsset t.freemap (ref s u p) = true) : Own L t where
  format := hf
  nodup := hnodup
  loaded := hloaded
  clean := hclean
  ne_zero := h.ne_zero
  owns := by
    refine h.owns.restrict (fun x hx _ => ⟨hx, hc.ref x.1 hx x.2⟩) ?_
    rintro ⟨u, p⟩ hu h0 ⟨hlow, hlt, -⟩
    rw [hc.ref u hu p] at h0 hlow hlt ⊢
    exact ⟨hc.nblocks ▸ hlow, hc.nblocks ▸ hlt, hset u hu p h0⟩

theorem Own.isset_ref (h : Own L s) (hu : u ∈ L) (h0 : ref s u p ≠ 0) :
    bitmapIsset s.freemap (ref s u p) = true := (h.inUse hu h0).2.2

theorem inodeOf_setRefcount {n : Nat} : inodeOf (s.setRefcount v n) u = inodeOf s u := by
  unfold inodeOf Fs.setRefcount
  by_cases hu : u = v
  · simp only [hu, update_self]
  · simp only [update_of_ne hu]

theorem carries_setRefcount {n : Nat} : Carries L s (s.setRefcount v n) :=
  carries_of_blocks rfl (fun _ _ => inodeOf_setRefcount) fun _ _ _ _ _ => rfl

theorem Own.setRefcount {n : Nat} (h : Own L s) (hn : 0 < n) : Own L (s.setRefcount v n) := by
  refine h.carry carries_setRefcount ⟨h.format.padded, h.format.nblocks_le, h.format.small,
    h.format.data, h.format.free⟩ h.nodup ?_ ?_ fun u hu p h0 => h.isset_ref hu h0
  · intro u hu
    refine ⟨(h.loaded u hu).1, ?_⟩
    by_cases heq : u = v
    · simp only [Fs.setRefcount, heq, update_self]
      exact hn
    · simp only [Fs.setRefcount, update_of_ne heq]
      exact (h.loaded u hu).2
  · intro u hu
    by_cases heq : u = v
    · simp only [Fs.setRefcount, heq, update_self]
      exact h.clean v (heq ▸ hu)
    · simp only [Fs.setRefcount, update_of_ne heq]
      exact h.clean u hu

theorem inodeOf_load_ne (hu : u ≠ v) : inodeOf (s.load v sv) u = inodeOf s u := by
  unfold inodeOf Fs.load
  simp only [List.mem_append, List.mem_singleton, hu, or_false, update_of_ne hu]

theorem inodeOf_load : inodeOf (s.load v sv) v = sv.inode := by
  unfold inodeOf Fs.load
  simp only [List.mem_append, List.mem_singleton, or_true, if_true, update_self]

theorem forall_load {P : Nat → SfsVnode → Prop} (hv : v ∉ s.vnodes)
    (hold : ∀ u ∈ s.vnodes, P u (s.sv u)) (hnew : P v sv) :
    ∀ u ∈ (s.load v sv).vnodes, P u ((s.load v sv).sv u) := by
  intro u hu
  rcases List.mem_append.mp hu with hin | hin
  · have hne : u ≠ v := by
      rintro rfl
      exact hv hin
    simp only [Fs.load, update_of_ne hne]
    exact hold u hin
  · rw [List.mem_singleton.mp hin]
    simp only [Fs.load, update_self]
    exact hnew

theorem nodup_load (h : s.vnodes.Nodup) (hv : v ∉ s.vnodes) : (s.load v sv).vnodes.Nodup := by
  show (s.vnodes ++ [v]).Nodup
  rw [List.nodup_append]
  refine ⟨h, List.nodup_cons.mpr ⟨List.not_mem_nil, List.nodup_nil⟩, fun u hu w hw => ?_⟩
  rw [List.mem_singleton.mp hw]
  rintro rfl
  exact hv hu

theorem Own.load (h : Own L s) (hv : v ∈ L) (hno : v ∉ s.vnodes) :
    Own L (s.load v (newVnode (s.disk v) .inval)) ∧
      Carries L s (s.load v (newVnode (s.disk v) .inval)) := by
  have hc : Carries L s (s.load v (newVnode (s.disk v) .inval)) := by
    refine carries_of_blocks rfl (fun u hu => ?_) fun _ _ _ _ _ => rfl
    by_cases heq : u = v
    · rw [heq, inodeOf_load, inodeOf, if_neg hno]
      rfl
    · exact inodeOf_load_ne heq
  refine ⟨h.carry hc ⟨h.format.padded, h.format.nblocks_le, h.format.small, h.format.data,
    h.format.free⟩ (nodup_load h.nodup hno) ?_ ?_ fun u hu p h0 => h.isset_ref hu h0, hc⟩
  · exact forall_load (P := fun u w => u ∈ L ∧ 0 < w.refcount) hno h.loaded
      ⟨hv, Nat.zero_lt_one⟩
  · exact forall_load (P := fun u w => w.dirty = false → w.inode = s.disk u) hno h.clean
      fun _ => rfl

theorem Own.alloc (h : Own L s) (hb : Free s b) : Own L (s.alloc b) ∧ Carries L s (s.alloc b) := by
  have hdisk : ∀ c, c ≠ b → (s.alloc b).disk c = s.disk c :=
    fun c hc => update_of_ne hc _ _
  have hc : Carries L s (s.alloc b) := by
    refine carries_of_blocks rfl (fun u hu => ?_) fun u hu p _ h0 => hdisk _ (h.free_ne_ref hb hu)
    unfold inodeOf
    rw [hdisk u (h.free_ne_self hb hu)]
    rfl
  refine ⟨h.carry hc h.format.alloc h.nodup h.loaded ?_ fun u hu p h0 => ?_, hc⟩
  · intro u hu hd
    rw [hdisk u (h.free_ne_self hb (h.loaded u hu).1)]
    exact h.clean u hu hd
  · rw [isset_alloc, h.isset_ref hu h0, Bool.or_true]

/-- The inode of a new file, before it has a name. -/
def newInode (type : FileType) : Buf := setType zeros type

theorem Own.create (type : FileType) (h : Own L s) (hb : Free s b) (htype : type ≠ .inval) :
    Own (insert b L) ((s.alloc b).load b (newVnode zeros type)) ∧
      Carries L s ((s.alloc b).load b (newVnode zeros type)) ∧
      inodeOf ((s.alloc b).load b (newVnode zeros type)) b = newInode type := by
  obtain ⟨hown, hcarry⟩ := h.alloc hb
  have hbL : b ∉ L := fun hin => h.free_ne_self hb hin rfl
  have hno : b ∉ (s.alloc b).vnodes := fun hin => hbL (h.loaded b hin).1
  have hnew : (newVnode zeros type) = ⟨newInode type, true, 1⟩ := if_neg htype
  have hi : inodeOf ((s.alloc b).load b (newVnode zeros type)) b = newInode type := by
    rw [inodeOf_load, hnew]
  have hc : Carries L (s.alloc b) ((s.alloc b).load b (newVnode zeros type)) := by
    refine carries_of_blocks rfl (fun u hu => inodeOf_load_ne ?_) fun _ _ _ _ _ => rfl
    rintro rfl
    exact hbL hu
  refine ⟨⟨⟨hown.format.padded, hown.format.nblocks_le, hown.format.small, hown.format.data,
    hown.format.free⟩, nodup_load hown.nodup hno, ?_, ?_, ?_, ?_⟩, hcarry.trans hc, hi⟩
  · refine forall_load (P := fun u w => u ∈ insert b L ∧ 0 < w.refcount) hno ?_ ?_
    · exact fun u hu => ⟨.inr (hown.loaded u hu).1, (hown.loaded u hu).2⟩
    · rw [hnew]
      exact ⟨.inl rfl, Nat.zero_lt_one⟩
  · refine forall_load (P := fun u w => w.dirty = false → w.inode = (s.alloc b).disk u) hno
      hown.clean ?_
    rw [hnew]
    exact fun hd => Bool.noConfusion hd
  · rintro (h0 | h0)
    · exact hb.ne_zero h.format h0.symm
    · exact h.ne_zero h0
  have hroot : b ≠ rootLocation := by
    rintro rfl
    exact absurd (hb.data h.format).1 (Nat.not_le.mpr root_lt_firstData)
  refine h.owns.assign (i := (b, .self)) (b := b) ?_ (if_neg hroot) hb.not_inUse ?_ ?_
  · rintro ⟨u, q⟩ hu hne h0
    rcases hu with rfl | hu
    · cases q with
      | self => exact absurd rfl hne
      | indirect =>
        have hz : ref ((s.alloc u).load u (newVnode zeros type)) u .indirect = 0 := by
          rw [ref, hi]
          exact sfiIndirect_new
        exact absurd hz h0
      | data fb =>
        have hz : ref ((s.alloc u).load u (newVnode zeros type)) u (.data fb) = 0 := by
          rw [ref, hi]
          exact blockAt_new
        exact absurd hz h0
    · exact ⟨hu, (hcarry.trans hc).ref u hu q⟩
  · refine ⟨(hb.data h.format).1, (hb.data h.format).2, ?_⟩
    show bitmapIsset (s.alloc b).freemap b = true
    rw [isset_alloc, decide_eq_true rfl, Bool.true_or]
  · rintro c ⟨hlow, hlt, hset⟩
    refine ⟨hlow, hlt, ?_⟩
    show bitmapIsset (s.alloc b).freemap c = true
    rw [isset_alloc, hset, Bool.or_true]

/-- The state after `sfs_sync_inode`. -/
def Fs.synced (s : Fs) (v : Nat) : Fs :=
  if (s.sv v).dirty then
    { s.putBlock v (s.sv v).inode with
      sv := update s.sv v { s.sv v with dirty := false } }
  else s

/-- The table without a vnode. -/
def Fs.unload (s : Fs) (v : Nat) : Fs := { s with vnodes := s.vnodes.erase v }

theorem ensures_syncInode {C : SfsCrash → Prop} {Q : Except Errno Unit → Fs → Prop}
    (hv : v < s.nblocks) : Call.Ensures C (syncInode v) Q s ↔ Q (.ok ()) (s.synced v) := by
  simp only [syncInode, Call.ensures_bind, Call.ensures_get, Call.after_ok, Fs.synced]
  split
  · rw [Call.ensures_bind, ensures_wblock hv, Call.after_ok, Call.ensures_modify]
    rfl
  · rw [Call.ensures_pure]

section synced
variable (h : Own L s) (hv : v ∈ s.vnodes)
include h hv

theorem Own.synced : Own L (s.synced v) ∧ Carries L s (s.synced v) ∧
    (s.synced v).vnodes = s.vnodes ∧ ((s.synced v).sv v).inode = (s.synced v).disk v := by
  unfold Fs.synced
  split
  · have hvL := (h.loaded v hv).1
    have hdisk : ∀ c ≠ v, update s.disk v (s.sv v).inode c = s.disk c :=
      fun c hc => update_of_ne hc _ _
    have hself : (s.putBlock v (s.sv v).inode).disk v = (s.sv v).inode := update_self ..
    have hsv : ∀ w : Nat, update s.sv v { s.sv v with dirty := false } w =
        { s.sv w with dirty := if w = v then false else (s.sv w).dirty } := by
      intro w
      by_cases hw : w = v
      · rw [hw, update_self, if_pos rfl]
      · rw [update_of_ne hw, if_neg hw]
    have hc : Carries L s { s.putBlock v (s.sv v).inode with
        sv := update s.sv v { s.sv v with dirty := false } } := by
      refine carries_of_blocks rfl (fun u hu => ?_) fun u hu q hq h0 => ?_
      · unfold inodeOf
        show (if u ∈ s.vnodes then (update s.sv v _ u).inode else
          update s.disk v _ u) = _
        rw [hsv]
        split
        · rfl
        · rename_i hno
          exact hdisk u fun heq => hno (heq ▸ hv)
      · exact hdisk _ (Ne.symm (h.ne_self hu hvL hq h0))
    refine ⟨h.carry hc ⟨h.format.padded, h.format.nblocks_le, h.format.small, h.format.data,
      h.format.free⟩ h.nodup ?_ ?_ fun u hu p h0 => h.isset_ref hu h0, hc, rfl, ?_⟩
    · intro u hu
      refine ⟨(h.loaded u hu).1, ?_⟩
      simp only [hsv]
      exact (h.loaded u hu).2
    · intro u hu
      simp only [hsv]
      by_cases heq : u = v
      · rw [heq]
        exact fun _ => hself.symm
      · rw [if_neg heq]
        intro hd
        exact (h.clean u hu hd).trans (hdisk u heq).symm
    · simp only [hsv]
      exact hself.symm
  · rename_i hd
    exact ⟨h, .refl, rfl, h.clean v hv (Bool.not_eq_true _ ▸ hd)⟩

/-- A vnode that is on the disk as it is in memory leaves the table. -/
theorem Own.unload (hclean : (s.sv v).inode = s.disk v) :
    Own L (s.unload v) ∧ Carries L s (s.unload v) := by
  have hmem : ∀ u, u ∈ (s.unload v).vnodes ↔ u ≠ v ∧ u ∈ s.vnodes :=
    fun u => h.nodup.mem_erase_iff
  have hc : Carries L s (s.unload v) := by
    refine carries_of_blocks rfl (fun u hu => ?_) fun _ _ _ _ _ => rfl
    unfold inodeOf
    by_cases heq : u = v
    · rw [heq, if_neg fun hin => ((hmem v).mp hin).1 rfl, if_pos hv]
      exact hclean.symm
    · exact if_congr ((hmem u).trans (and_iff_right heq)) rfl rfl
  refine ⟨h.carry hc ⟨h.format.padded, h.format.nblocks_le, h.format.small, h.format.data,
    h.format.free⟩ (h.nodup.erase v) ?_ ?_ fun u hu p h0 => h.isset_ref hu h0, hc⟩
  · exact fun u hu => h.loaded u ((hmem u).mp hu).2
  · exact fun u hu => h.clean u ((hmem u).mp hu).2

end synced

theorem Own.discard (h : Own L s) (hv : v ∈ L) (hroot : v ≠ rootLocation) (hno : v ∉ s.vnodes) :
    Own (L \ {v}) (s.freeBlock v) ∧ Carries (L \ {v}) s (s.freeBlock v) := by
  have hself : ref s v .self = v := if_neg hroot
  have hv0 : v ≠ 0 := fun h0 => h.ne_zero (h0 ▸ hv)
  have hc : Carries (L \ {v}) s (s.freeBlock v) :=
    carries_of_blocks rfl (fun _ _ => rfl) fun _ _ _ _ _ => rfl
  refine ⟨⟨h.format.freeBlock (h.self_inUse hv hroot), h.nodup, fun u hu => ?_, h.clean, ?_, ?_⟩,
    hc⟩
  · exact ⟨⟨(h.loaded u hu).1, fun heq => hno (heq ▸ hu)⟩, (h.loaded u hu).2⟩
  · exact fun h0 => h.ne_zero h0.1
  refine h.owns.restrict (fun x hx _ => ⟨hx.1, rfl⟩) ?_
  rintro ⟨u, q⟩ hu h0 ⟨hlow, hlt, hset⟩
  refine ⟨hlow, hlt, ?_⟩
  rw [isset_freeBlock]
  rw [hset, Bool.and_true]
  refine decide_eq_true ?_
  have hne : (v, Place.self) ≠ (u, q) := fun heq => hu.2 (congrArg Prod.fst heq).symm
  have := h.owns.ne (i := (v, .self)) (j := (u, q)) hv hu.1 hne (by rw [hself]; exact hv0)
  rw [hself] at this
  exact this

/-- The files of `L` have the inodes and the contents in `t` that they have in `s`. -/
structure Alike (L : Set Nat) (s t : Fs) : Prop where
  nblocks : t.nblocks = s.nblocks
  inode : ∀ u ∈ L, inodeOf t u = inodeOf s u
  bytes : ∀ u ∈ L, ∀ pos, fileByte t u pos = fileByte s u pos

theorem Alike.trans (h : Alike L s t) (h' : Alike L t r) : Alike L s r :=
  ⟨h'.nblocks.trans h.nblocks, fun u hu => (h'.inode u hu).trans (h.inode u hu),
    fun u hu pos => (h'.bytes u hu pos).trans (h.bytes u hu pos)⟩

theorem Alike.mono {L' : Set Nat} (h : Alike L s t) (hL : L' ⊆ L) : Alike L' s t :=
  ⟨h.nblocks, fun u hu => h.inode u (hL hu), fun u hu => h.bytes u (hL hu)⟩

theorem Carries.alike (h : Carries L s t) : Alike L s t := ⟨h.nblocks, h.inode, h.bytes⟩

theorem Frame.alike (h : Frame L v s t) : Alike (L \ {v}) s t :=
  ⟨h.nblocks, fun u hu => h.inode u hu.1 hu.2, fun u hu => h.bytes u hu.1 hu.2⟩

end OS161.Sfs
