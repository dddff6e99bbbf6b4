import OS161.Sfs.Inodes

/-! `sfs_reclaim`: what is left of a file when a reference to its vnode is given up. -/
namespace OS161.Sfs

open Call (ensures_bind after_ok ensures_get Ensures wp)

variable {L : Set Nat} {s t : Fs} {v u : Nat}

/-- The last reference to a file without links is given up. -/
def Discards (s : Fs) (v : Nat) : Prop :=
  (s.sv v).refcount = 1 ∧ sfiLinkcount (inodeOf s v) = 0

instance : Decidable (Discards s v) := inferInstanceAs (Decidable (_ ∧ _))

/-- The files that are left. -/
def remaining (L : Set Nat) (s : Fs) (v : Nat) : Set Nat := if Discards s v then L \ {v} else L

theorem remaining_subset : remaining L s v ⊆ L := by
  unfold remaining
  split
  · exact fun _ hu => hu.1
  · exact fun _ hu => hu

/-- What VOP_DECREF does. -/
structure Dropped (L : Set Nat) (v : Nat) (s t : Fs) : Prop where
  own : Own (remaining L s v) t
  alike : Alike (remaining L s v) s t
  vnodes : t.vnodes = if (s.sv v).refcount = 1 then s.vnodes.erase v else s.vnodes
  freed : Discards s v → bitmapIsset t.freemap v = false

section calls
variable {C : SfsCrash → Prop} {Q : Except Errno Unit → Fs → Prop} {m : SfsCall Unit}

theorem ensures_ifUnlinked : Ensures C (ifUnlinked v m) Q s ↔
    (sfiLinkcount (s.sv v).inode = 0 → Ensures C m Q s) ∧
      (sfiLinkcount (s.sv v).inode ≠ 0 → Q (.ok ()) s) := by
  simp only [ifUnlinked, ensures_bind, ensures_get, after_ok, Call.ensures_ite, Call.ensures_pure]

/-- The end of `sfs_reclaim`. -/
theorem ensures_unload (hv : v ∈ s.vnodes) :
    Ensures C (do
      let s ← Call.get
      Call.require panic (v ∈ s.vnodes)
      Call.modify fun s => { s with vnodes := s.vnodes.erase v }) Q s ↔
        Q (.ok ()) (s.unload v) := by
  simp only [ensures_bind, ensures_get, after_ok, Call.ensures_require, hv,
    true_implies, not_true_eq_false, false_implies, and_true, Call.ensures_modify]
  rfl

end calls

section reclaim
variable (h : Own L s) (hv : v ∈ s.vnodes) (h1 : (s.sv v).refcount = 1)
include h hv h1

theorem reclaimLast_linked (hlinks : sfiLinkcount (s.sv v).inode ≠ 0) :
    wp (reclaimLast v) (fun u t => u = .ok () ∧ Dropped L v s t) s := by
  have hvL := (h.loaded v hv).1
  obtain ⟨hown, hcarry, hvnodes, hclean⟩ := h.synced hv
  have hv' : v ∈ (s.synced v).vnodes := by
    rw [hvnodes]
    exact hv
  have hlinks' : sfiLinkcount ((s.synced v).sv v).inode ≠ 0 := by
    rw [← inodeOf_loaded hv', hcarry.inode v hvL, inodeOf_loaded hv]
    exact hlinks
  obtain ⟨hown', hcarry'⟩ := hown.unload hv' hclean
  have hkeep : ¬ Discards s v := by
    rintro ⟨-, h0⟩
    rw [inodeOf_loaded hv] at h0
    exact hlinks h0
  rw [reclaimLast, wp, ensures_bind, ensures_ifUnlinked]
  refine ⟨fun h0 => absurd h0 hlinks, fun _ => ?_⟩
  rw [after_ok, ensures_bind, ensures_syncInode (h.lt_nblocks hvL), after_ok,
    ensures_bind, ensures_ifUnlinked]
  refine ⟨fun h0 => absurd h0 hlinks', fun _ => ?_⟩
  rw [after_ok, ensures_unload hv']
  refine ⟨rfl, ?_, ?_, ?_, fun hd => absurd hd hkeep⟩
  · rw [remaining, if_neg hkeep]
    exact hown'
  · rw [remaining, if_neg hkeep]
    exact (hcarry.trans hcarry').alike
  · rw [if_pos h1, Fs.unload, hvnodes]

theorem reclaimLast_unlinked (hlinks : sfiLinkcount (s.sv v).inode = 0) (hroot : v ≠ rootLocation)
    (htype : sfiType (s.sv v).inode ≠ FileType.dir.code) :
    wp (reclaimLast v) (fun u t => u = .ok () ∧ Dropped L v s t) s := by
  have hvL := (h.loaded v hv).1
  have hdrop : Discards s v := ⟨h1, by rw [inodeOf_loaded hv]; exact hlinks⟩
  rw [reclaimLast, wp, ensures_bind, ensures_ifUnlinked]
  refine ⟨fun _ => ?_, fun hne => absurd hlinks hne⟩
  simp only [fileOp, ensures_bind, ensures_get, after_ok, if_neg htype]
  refine (truncate_spec h hv 0).mono ?_
  rintro _ t ⟨rfl, htrunc⟩
  have hvt : v ∈ t.vnodes := by
    rw [htrunc.frame.vnodes]
    exact hv
  obtain ⟨hown, hcarry, hvnodes, hclean⟩ := htrunc.own.synced hvt
  have hv' : v ∈ (t.synced v).vnodes := by
    rw [hvnodes]
    exact hvt
  have hlinks' : sfiLinkcount ((t.synced v).sv v).inode = 0 := by
    rw [← inodeOf_loaded hv', hcarry.inode v hvL, htrunc.frame.linkcount, inodeOf_loaded hv]
    exact hlinks
  obtain ⟨hown', hcarry'⟩ := hown.unload hv' hclean
  have hno : v ∉ ((t.synced v).unload v).vnodes := fun hin =>
    (hown.nodup.mem_erase_iff.mp hin).1 rfl
  obtain ⟨hown'', hcarry''⟩ := hown'.discard hvL hroot hno
  rw [after_ok, ensures_bind, ensures_syncInode (htrunc.own.lt_nblocks hvL),
    after_ok, ensures_bind, ensures_ifUnlinked]
  refine ⟨fun _ => ?_, fun hne => absurd hlinks' hne⟩
  rw [ensures_bfree hown.format (hown.self_inUse hvL hroot), after_ok,
    ensures_unload (s := (t.synced v).freeBlock v) hv']
  refine ⟨rfl, ?_, ?_, ?_, fun _ => ?_⟩
  · rw [remaining, if_pos hdrop]
    exact hown''
  · rw [remaining, if_pos hdrop]
    exact (htrunc.frame.alike.trans ((hcarry.trans hcarry').alike.mono fun _ hu => hu.1)).trans
      hcarry''.alike
  · rw [if_pos h1, ← htrunc.frame.vnodes, ← hvnodes]
    rfl
  · show bitmapIsset ((t.synced v).freeBlock v).freemap v = false
    rw [isset_freeBlock, decide_eq_false (not_not.mpr rfl), Bool.false_and]

end reclaim

theorem decref_spec (h : Own L s) (hv : v ∈ s.vnodes)
    (hfile : sfiLinkcount (inodeOf s v) = 0 →
      v ≠ rootLocation ∧ sfiType (inodeOf s v) ≠ FileType.dir.code) :
    wp (decref v) (fun u t => u = .ok () ∧ Dropped L v s t) s := by
  have hpos := (h.loaded v hv).2
  rw [inodeOf_loaded hv] at hfile
  simp only [decref, wp, ensures_bind, ensures_get, after_ok,
    Call.ensures_require, hpos, true_implies, not_true_eq_false, false_implies, and_true]
  rw [Call.ensures_ite]
  refine ⟨fun hmore => ?_, fun hlast => ?_⟩
  · have hkeep : ¬ Discards s v := by
      rintro ⟨h1, -⟩
      omega
    refine ⟨rfl, ?_, ?_, ?_, fun hd => absurd hd hkeep⟩
    · rw [remaining, if_neg hkeep]
      exact h.setRefcount (by omega)
    · exact carries_setRefcount.alike
    · rw [if_neg (by omega)]
      rfl
  · have h1 : (s.sv v).refcount = 1 := by omega
    simp only [ensures_bind, Call.ensures_attempt, after_ok, Call.ensures_pure, reclaim,
      ensures_get, h1, ne_eq, not_true_eq_false, if_false]
    have hlast : wp (reclaimLast v) (fun u t => u = .ok () ∧ Dropped L v s t) s := by
      by_cases hlinks : sfiLinkcount (s.sv v).inode = 0
      · exact reclaimLast_unlinked h hv h1 hlinks (hfile hlinks).1 (hfile hlinks).2
      · exact reclaimLast_linked h hv h1 hlinks
    exact hlast.mono fun _ _ hdropped => ⟨trivial, hdropped.2⟩

end OS161.Sfs
