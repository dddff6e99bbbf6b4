import OS161.Sfs.Owner

/-! `sfs_loadvnode`: a loaded file gets one more reference, any other is read from its block. -/
namespace OS161.Sfs

open Call (ensures_bind after_ok ensures_require ensures_pure)

variable {L : Set Nat} {s t : Fs} {v ino : Nat} {C : SfsCrash → Prop} {forcetype : FileType}

/-- A vnode of a file or of the directory. -/
def KnownType (i : Buf) : Prop := sfiType i = FileType.file.code ∨ sfiType i = FileType.dir.code

/-- The state with one more loaded vnode. -/
def Fs.load (s : Fs) (ino : Nat) (sv : SfsVnode) : Fs :=
  { s with vnodes := s.vnodes ++ [ino], sv := Function.update s.sv ino sv }

theorem ensures_findLoaded {Q : Except Errno Bool → Fs → Prop} {vs : List Nat}
    (h : ∀ v ∈ vs, v < s.nblocks ∧ bitmapIsset s.freemap v = true) :
    Call.Ensures C (findLoaded ino vs) Q s ↔ Q (.ok (decide (ino ∈ vs))) s := by
  induction vs with
  | nil => rw [findLoaded, ensures_pure, decide_eq_false List.not_mem_nil]
  | cons v vs ih =>
    obtain ⟨hlt, hset⟩ := h v List.mem_cons_self
    rw [findLoaded, ensures_bind, ensures_bused hlt]
    simp only [after_ok, ensures_bind, ensures_require, hset, true_implies,
      not_true_eq_false, false_implies, and_true, Call.ensures_ite, ensures_pure,
      ih fun u hu => h u (List.mem_cons_of_mem _ hu), List.mem_cons]
    by_cases heq : v = ino
    · simp [heq]
    · simp [heq, Ne.symm heq]

/-- The vnode of a file that is read, and the one of a new file. -/
def newVnode (i : Buf) (forcetype : FileType) : SfsVnode :=
  if forcetype = .inval then ⟨i, false, 1⟩ else ⟨setType i forcetype, true, 1⟩

/-- An inode can be read with its type, or with a type of its own if it has none. -/
def Readable (i : Buf) (forcetype : FileType) : Prop :=
  if forcetype = .inval then KnownType i else sfiType i = FileType.inval.code

theorem Readable.knownType {i : Buf} (h : Readable i forcetype) :
    KnownType (newVnode i forcetype).inode := by
  cases forcetype with
  | inval => exact h
  | file => exact .inl sfiType_setType
  | dir => exact .inr sfiType_setType

theorem ensures_forceType {i : Buf} (h : Readable i forcetype)
    {Q : Except Errno SfsVnode → Fs → Prop} :
    Call.Ensures C (forceType i forcetype) Q s ↔ Q (.ok (newVnode i forcetype)) s := by
  unfold Readable at h
  unfold forceType newVnode
  split
  · rw [ensures_pure]
  rename_i hforce
  rw [if_neg hforce] at h
  simp only [ensures_bind, ensures_require, h, true_implies, not_true_eq_false,
    false_implies, and_true, after_ok, ensures_pure]

/-- What reading a vnode does: it is loaded if there is memory for it. -/
def LoadedAs (s : Fs) (ino : Nat) (sv : SfsVnode) (heap : Heap) : Except Errno Unit → Fs → Prop
  | .ok _, t => heap = .room ∧ t = s.load ino sv
  | .error e, t => e = .enomem ∧ heap ≠ .room ∧ t = s

theorem readVnode_spec {heap : Heap} (hlt : ino < s.nblocks)
    (hset : bitmapIsset s.freemap ino = true) (hread : Readable (s.disk ino) forcetype) :
    Call.wp (readVnode ino forcetype heap)
      (LoadedAs s ino (newVnode (s.disk ino) forcetype) heap) s := by
  simp only [readVnode, Call.wp, ensures_bind, Call.ensures_failIf, Call.after_error]
  refine ⟨?_, fun hvnode => ?_⟩
  · rintro rfl
    exact ⟨rfl, by decide, rfl⟩
  rw [after_ok, ensures_bind, ensures_bused hlt]
  simp only [after_ok, ensures_bind, ensures_require, hset, true_implies,
    not_true_eq_false, false_implies, and_true]
  rw [ensures_rblock hlt]
  simp only [after_ok, ensures_bind]
  rw [ensures_forceType hread]
  simp only [after_ok, ensures_bind, ensures_require, Call.ensures_failIf,
    Call.after_error, Call.ensures_modify]
  refine ⟨fun _ => ⟨?_, fun htable => ?_⟩, fun hpanic => hpanic hread.knownType⟩
  · rintro rfl
    exact ⟨rfl, by decide, rfl⟩
  refine ⟨?_, rfl⟩
  cases heap with
  | room => rfl
  | noVnode => exact absurd rfl hvnode
  | noTable => exact absurd rfl htable

section own
variable {heap : Heap} (h : Own L s)
include h

theorem Own.vnodes_isset (v : Nat) (hv : v ∈ s.vnodes) :
    v < s.nblocks ∧ bitmapIsset s.freemap v = true :=
  ⟨h.lt_nblocks (h.loaded v hv).1, h.isset (h.loaded v hv).1⟩

/-- A file that is not loaded is read. -/
theorem loadvnode_read (hlt : ino < s.nblocks)
    (hset : bitmapIsset s.freemap ino = true) (hino : ino ∉ s.vnodes)
    (hread : Readable (s.disk ino) forcetype) :
    Call.wp (loadvnode ino forcetype heap)
      (LoadedAs s ino (newVnode (s.disk ino) forcetype) heap) s := by
  simp only [loadvnode, Call.wp, ensures_bind, Call.ensures_get, after_ok]
  rw [ensures_findLoaded h.vnodes_isset, decide_eq_false hino, after_ok, if_neg (by decide)]
  exact readVnode_spec hlt hset hread

theorem ensures_loadvnode_again {Q : Except Errno Unit → Fs → Prop} (hino : ino ∈ s.vnodes) :
    Call.Ensures C (loadvnode ino .inval heap) Q s ↔
      Q (.ok ()) (s.setRefcount ino ((s.sv ino).refcount + 1)) := by
  simp only [loadvnode, ensures_bind, Call.ensures_get, after_ok]
  rw [ensures_findLoaded h.vnodes_isset, decide_eq_true hino, after_ok, if_pos rfl]
  simp only [ensures_bind, ensures_require, after_ok, Call.ensures_modify,
    true_implies, not_true_eq_false, false_implies, and_true]

end own

end OS161.Sfs
