import OS161.Fs.Vfslist

/-! `vnode.c`, over any operations that keep the contract of `vnode.h` and `fs.h`. -/
namespace OS161

open Call (require attempt wp after_ok)
open Function (update update_apply)

/-- What the VFS layer works on; `data` is what the file systems keep. A vnode that is not in
memory has no references. -/
structure VfsState (F : Type) where
  refcount : Vnode → Nat
  opencount : Vnode → Nat
  /-- Ghost: how often VOP_RECLAIM of the vnode has failed, which leaves the last reference. -/
  unreclaimed : Vnode → Nat
  fsOf : Vnode → Option Fs
  cwd : Option Vnode
  bootfs : Option Vnode
  devs : List Knowndev
  data : F

abbrev VfsCall (F : Type) := Call Crash (VfsState F) Errno

/-- The type of a file, as VOP_GETTYPE gives it. -/
inductive Vtype where
  | reg | dir | lnk | chr | blk
  deriving DecidableEq, Repr

/-- A pathname or a part of one. -/
abbrev Path := List Char

/-- `struct vnode_ops`, and `fs_getroot`. -/
structure VnodeOps (F : Type) where
  vopOpen : Vnode → Nat → VfsCall F Unit
  vopClose : Vnode → VfsCall F Unit
  vopReclaim : Vnode → VfsCall F Unit
  vopReadlink : Vnode → VfsCall F Unit
  vopGettype : Vnode → VfsCall F Vtype
  vopTruncate : Vnode → Nat → VfsCall F Unit
  vopCreat : Vnode → Path → Bool → VfsCall F Vnode
  vopSymlink : Vnode → Path → Path → VfsCall F Unit
  vopMkdir : Vnode → Path → VfsCall F Unit
  vopLink : Vnode → Path → Vnode → VfsCall F Unit
  vopRemove : Vnode → Path → VfsCall F Unit
  vopRmdir : Vnode → Path → VfsCall F Unit
  vopRename : Vnode → Path → Vnode → Path → VfsCall F Unit
  vopLookup : Vnode → Path → VfsCall F Vnode
  vopLookparent : Vnode → Path → Nat → VfsCall F (Vnode × Path)
  fsopGetroot : Fs → VfsCall F Vnode

section model
variable {F : Type} (ops : VnodeOps F)

/-- The check before every VOP: a vnode without references is not to be used. -/
def vnodeCheck (v : Vnode) : VfsCall F Unit := do
  let s ← Call.get
  require .panic (0 < s.refcount v)

def vnodeIncref (v : Vnode) : VfsCall F Unit :=
  Call.modify fun s => { s with refcount := update s.refcount v (s.refcount v + 1) }

/-- The last reference goes to VOP_RECLAIM, whose error is only printed. -/
def vnodeDecref (v : Vnode) : VfsCall F Unit := do
  let s ← Call.get
  require .assertion (0 < s.refcount v)
  if 1 < s.refcount v then
    Call.modify fun s => { s with refcount := update s.refcount v (s.refcount v - 1) }
  else
    match ← attempt (ops.vopReclaim v) with
    | .ok _ => pure ()
    | .error _ =>
      Call.modify fun s => { s with unreclaimed := update s.unreclaimed v (s.unreclaimed v + 1) }

def vnodeIncopen (v : Vnode) : VfsCall F Unit :=
  Call.modify fun s => { s with opencount := update s.opencount v (s.opencount v + 1) }

/-- The last close goes to VOP_CLOSE, whose result is only printed. -/
def vnodeDecopen (v : Vnode) : VfsCall F Unit := do
  let s ← Call.get
  require .assertion (0 < s.opencount v)
  Call.modify fun s => { s with opencount := update s.opencount v (s.opencount v - 1) }
  if 1 < s.opencount v then pure ()
  else do
    vnodeCheck v
    let _ ← attempt (ops.vopClose v)
    pure ()

end model

section contract
variable {F α : Type}

/-- What no operation below the VFS layer changes. -/
structure Untouched (s t : VfsState F) : Prop where
  opencount : t.opencount = s.opencount
  unreclaimed : t.unreclaimed = s.unreclaimed
  cwd : t.cwd = s.cwd
  bootfs : t.bootfs = s.bootfs
  devs : t.devs = s.devs
  fsOf : ∀ v, 0 < s.refcount v → 0 < t.refcount v → t.fsOf v = s.fsOf v

/-- The operation changes no reference count. -/
def Uncounted (s : VfsState F) (_ : Except Errno α) (t : VfsState F) : Prop :=
  Untouched s t ∧ t.refcount = s.refcount

/-- On success the operation adds a reference to the vnode it hands back, on failure it changes no
count. -/
def Referenced (f : α → Vnode) (s : VfsState F) : Except Errno α → VfsState F → Prop
  | .ok a, t => Untouched s t ∧
      t.refcount = update s.refcount (f a) (s.refcount (f a) + 1)
  | .error _, t => Untouched s t ∧ t.refcount = s.refcount

/-- The references that the VFS layer itself and open files have to a vnode. -/
def VfsState.holders (s : VfsState F) (v : Vnode) : Nat :=
  s.opencount v + (if s.cwd = some v then 1 else 0) + (if s.bootfs = some v then 1 else 0) +
    s.devs.countP (·.vnode = v)

/-- VOP_RECLAIM of a vnode that nothing holds consumes the last reference unless it fails; a known
device is held, and keeps its reference. FSOP_GETROOT does not fail. A directory is in a file
system. -/
structure VnodeOps.Contract (ops : VnodeOps F) : Prop where
  vopOpen : ∀ v n s, 0 < s.refcount v → wp (ops.vopOpen v n) (Uncounted s) s
  vopClose : ∀ v s, 0 < s.refcount v → wp (ops.vopClose v) (Uncounted s) s
  vopReclaim : ∀ v s, s.refcount v = 1 → s.holders v = 0 → wp (ops.vopReclaim v)
    (fun r t => Untouched s t ∧
      t.refcount = if r = .ok () then update s.refcount v 0 else s.refcount) s
  vopReadlink : ∀ v s, 0 < s.refcount v → wp (ops.vopReadlink v) (Uncounted s) s
  vopGettype : ∀ v s, 0 < s.refcount v → wp (ops.vopGettype v)
    (fun r t => Uncounted s r t ∧ (r = .ok .dir → s.fsOf v ≠ none)) s
  vopTruncate : ∀ v n s, 0 < s.refcount v → wp (ops.vopTruncate v n) (Uncounted s) s
  vopCreat : ∀ v name excl s, 0 < s.refcount v →
    wp (ops.vopCreat v name excl) (Referenced id s) s
  vopSymlink : ∀ v name contents s, 0 < s.refcount v →
    wp (ops.vopSymlink v name contents) (Uncounted s) s
  vopMkdir : ∀ v name s, 0 < s.refcount v → wp (ops.vopMkdir v name) (Uncounted s) s
  vopLink : ∀ v name file s, 0 < s.refcount v → wp (ops.vopLink v name file) (Uncounted s) s
  vopRemove : ∀ v name s, 0 < s.refcount v → wp (ops.vopRemove v name) (Uncounted s) s
  vopRmdir : ∀ v name s, 0 < s.refcount v → wp (ops.vopRmdir v name) (Uncounted s) s
  vopRename : ∀ v n1 v2 n2 s, 0 < s.refcount v →
    wp (ops.vopRename v n1 v2 n2) (Uncounted s) s
  vopLookup : ∀ v path s, 0 < s.refcount v → wp (ops.vopLookup v path) (Referenced id s) s
  vopLookparent : ∀ v path buflen s, 0 < s.refcount v →
    wp (ops.vopLookparent v path buflen) (Referenced Prod.fst s) s
  fsopGetroot : ∀ fs s, wp (ops.fsopGetroot fs)
    (fun r t => Referenced id s r t ∧ ∃ v, r = .ok v) s

end contract

section change
variable {F α : Type} {ops : VnodeOps F} {s t u : VfsState F} {v w : Vnode}
  {refs refs' opens opens' : Vnode → Int}

/-- One reference to `w`. -/
def one (w v : Vnode) : Int := if v = w then 1 else 0

@[simp] theorem one_self : one v v = 1 := if_pos rfl

theorem one_nonneg : 0 ≤ one w v := by
  unfold one
  split <;> decide

/-- The references to a vnode but those that a failed VOP_RECLAIM has left. -/
def VfsState.counted (s : VfsState F) (v : Vnode) : Int := s.refcount v - s.unreclaimed v

/-- The counts change by these amounts, up to what failed reclaims leave, and the VFS layer's own
variables do not. -/
structure Change (s t : VfsState F) (refs opens : Vnode → Int) : Prop where
  refcount : ∀ v, t.counted v = s.counted v + refs v
  unreclaimed : ∀ v, s.unreclaimed v ≤ t.unreclaimed v
  opencount : ∀ v, (t.opencount v : Int) = s.opencount v + opens v
  cwd : t.cwd = s.cwd
  bootfs : t.bootfs = s.bootfs
  devs : t.devs = s.devs
  fsOf : ∀ v, s.cwd = some v → t.fsOf v = s.fsOf v

theorem Change.refl : Change s s (fun _ => 0) fun _ => 0 :=
  ⟨fun _ => by omega, fun _ => Nat.le_refl _, fun _ => by omega, rfl, rfl, rfl, fun _ _ => rfl⟩

theorem Change.trans (h : Change s t refs opens) (h' : Change t u refs' opens') :
    Change s u (fun v => refs v + refs' v) fun v => opens v + opens' v := by
  refine ⟨fun v => ?_, fun v => (h.unreclaimed v).trans (h'.unreclaimed v), fun v => ?_,
    h'.cwd.trans h.cwd, h'.bootfs.trans h.bootfs, h'.devs.trans h.devs, fun v hv => ?_⟩
  · have h₁ := h.refcount v
    have h₂ := h'.refcount v
    omega
  · have h₁ := h.opencount v
    have h₂ := h'.opencount v
    omega
  · exact (h'.fsOf v (h.cwd.trans hv)).trans (h.fsOf v hv)

theorem Change.congr (h : Change s t refs opens) (hrefs : ∀ v, refs' v = refs v)
    (hopens : ∀ v, opens' v = opens v) : Change s t refs' opens' := by
  rw [show refs' = refs from funext hrefs, show opens' = opens from funext hopens]
  exact h

/-- Every holder is counted, and the current directory is in a file system. -/
structure Sound (s : VfsState F) : Prop where
  held : ∀ v, s.holders v ≤ s.counted v
  backed : ∀ kd ∈ s.devs, kd.Backed
  cwd : ∀ v, s.cwd = some v → s.fsOf v ≠ none

open VfsState (holders counted)

theorem Sound.change (h : Sound s) (hc : Change s t refs opens) (hle : ∀ v, opens v ≤ refs v) :
    Sound t := by
  refine ⟨fun v => ?_, by rw [hc.devs]; exact h.backed, fun v hv => ?_⟩
  · have hheld := h.held v
    have h₁ := hc.refcount v
    have h₂ := hc.opencount v
    have h₃ := hle v
    unfold holders at hheld ⊢
    rw [hc.cwd, hc.bootfs, hc.devs]
    omega
  · rw [hc.cwd] at hv
    rw [hc.fsOf v hv]
    exact h.cwd v hv

theorem Sound.opencount_le (h : Sound s) (v : Vnode) : s.opencount v ≤ s.refcount v := by
  have := h.held v
  unfold holders counted at this
  omega

theorem Sound.cwd_pos (h : Sound s) (hv : s.cwd = some v) : 0 < s.refcount v := by
  have := h.held v
  rw [holders, if_pos hv, counted] at this
  omega

variable {r : Except Errno α}

theorem Sound.change_of_uncounted (h : Sound s) (hu : Uncounted s r t) :
    Change s t (fun _ => 0) fun _ => 0 := by
  refine ⟨fun v => ?_, fun v => hu.1.unreclaimed ▸ Nat.le_refl _, fun v => ?_, hu.1.cwd,
    hu.1.bootfs, hu.1.devs,
    fun v hv => hu.1.fsOf v (h.cwd_pos hv) (by rw [hu.2]; exact h.cwd_pos hv)⟩
  · rw [counted, hu.2, hu.1.unreclaimed]
    exact (Int.add_zero _).symm
  · rw [hu.1.opencount]
    omega

/-- The reference that comes with a result. -/
def handed (f : α → Vnode) : Except Errno α → Vnode → Int
  | .ok a => one (f a)
  | .error _ => fun _ => 0

theorem handed_nonneg {f : α → Vnode} : 0 ≤ handed f r v := by
  cases r with
  | ok a => exact one_nonneg
  | error e => exact Int.le_refl 0

theorem Sound.change_of_referenced {f : α → Vnode} (h : Sound s)
    (hr : Referenced f s r t) : Change s t (handed f r) fun _ => 0 := by
  cases r with
  | error e => exact h.change_of_uncounted (r := (.error e : Except Errno α)) hr
  | ok a =>
    have hcount : ∀ v, (t.refcount v : Int) = s.refcount v + one (f a) v := by
      intro v
      rw [hr.2, one, update_apply]
      split <;> simp_all
    refine ⟨fun v => ?_, fun v => hr.1.unreclaimed ▸ Nat.le_refl _, fun v => ?_, hr.1.cwd,
      hr.1.bootfs, hr.1.devs, fun v hv => ?_⟩
    · rw [counted, counted, hcount, hr.1.unreclaimed, handed]
      omega
    · rw [hr.1.opencount]
      omega
    have hpos := h.cwd_pos hv
    have hone := one_nonneg (w := f a) (v := v)
    have := hcount v
    exact hr.1.fsOf v hpos (by omega)

/-- A reference got since `s` is not one of the holders'. -/
theorem Sound.holders_lt (h : Sound s) (hc : Change s t refs opens) (hv : opens v < refs v) :
    t.holders v < t.counted v := by
  have hheld := h.held v
  have h₁ := hc.refcount v
  have h₂ := hc.opencount v
  unfold holders at hheld ⊢
  rw [hc.cwd, hc.bootfs, hc.devs]
  omega

theorem vnodeIncref_spec (v : Vnode) (s : VfsState F) :
    wp (vnodeIncref v) (fun r t => r = .ok () ∧ Change s t (one v) fun _ => 0) s := by
  refine ⟨rfl, fun w => ?_, fun _ => Nat.le_refl _, fun w => by simp, rfl, rfl, rfl,
    fun _ _ => rfl⟩
  simp only [counted, update_apply, one]
  split
  · subst w
    omega
  · omega

/-- A reference can be given back that is not one of the VFS layer's own or of an open file. -/
theorem vnodeDecref_spec (hops : ops.Contract) (hs : Sound s) (hv : s.holders v < s.counted v) :
    wp (vnodeDecref ops v)
      (fun r t => r = .ok () ∧ Change s t (fun w => - one v w) fun _ => 0) s := by
  have hpos := hv
  unfold counted at hpos
  simp only [vnodeDecref, Call.ensures_bind, Call.ensures_get, Call.ensures_require,
    after_ok, Call.ensures_ite]
  refine ⟨fun _ => ⟨fun hmore => ?_, fun hlast => ?_⟩, by omega⟩
  · refine ⟨rfl, fun w => ?_, fun _ => Nat.le_refl _, fun w => by simp, rfl, rfl, rfl,
      fun _ _ => rfl⟩
    simp only [counted, update_apply, one]
    split
    · subst w
      omega
    · omega
  · have hzero : s.holders v = 0 := by omega
    have hcwd : ∀ w, s.cwd = some w → w ≠ v := by
      rintro w hw rfl
      rw [holders, if_pos hw] at hzero
      omega
    rw [Call.ensures_attempt]
    refine (hops.vopReclaim v s (by omega) hzero).mono fun r t ht => ?_
    have hfs : ∀ w, s.cwd = some w → t.fsOf w = s.fsOf w := by
      intro w hw
      refine ht.1.fsOf w (hs.cwd_pos hw) ?_
      rw [ht.2]
      split
      · rw [Function.update_of_ne (hcwd w hw)]
        exact hs.cwd_pos hw
      · exact hs.cwd_pos hw
    have hopen : ∀ w, (t.opencount w : Int) = s.opencount w + 0 := by
      rw [ht.1.opencount]
      omega
    cases r with
    | ok _ =>
      refine ⟨rfl, fun w => ?_, fun _ => ht.1.unreclaimed ▸ Nat.le_refl _, hopen, ht.1.cwd,
        ht.1.bootfs, ht.1.devs, hfs⟩
      rw [counted, counted, ht.2, ht.1.unreclaimed, if_pos rfl,
        update_apply, one]
      split
      · subst w
        omega
      · omega
    | error e =>
      -- the count stays, and with it the reference
      refine ⟨rfl, fun w => ?_, fun w => ?_, hopen, ht.1.cwd, ht.1.bootfs, ht.1.devs, hfs⟩
      · simp only [counted, ht.2, ht.1.unreclaimed, update_apply, one,
          reduceCtorEq, if_false]
        split
        · subst w
          omega
        · omega
      · simp only [ht.1.unreclaimed, update_apply]
        split
        · subst w
          omega
        · exact Nat.le_refl _

theorem vnodeIncopen_spec (v : Vnode) (s : VfsState F) :
    wp (vnodeIncopen v) (fun r t => r = .ok () ∧ Change s t (fun _ => 0) (one v)) s := by
  refine ⟨rfl, fun w => (Int.add_zero _).symm, fun _ => Nat.le_refl _, fun w => ?_, rfl, rfl, rfl,
    fun _ _ => rfl⟩
  simp only [update_apply, one]
  split <;> simp_all

theorem vnodeDecopen_spec (hops : ops.Contract) (hs : Sound s) (hv : 0 < s.opencount v) :
    wp (vnodeDecopen ops v)
      (fun r t => r = .ok () ∧ Change s t (fun _ => 0) fun w => - one v w) s := by
  have hdec : Change s { s with opencount := update s.opencount v (s.opencount v - 1) }
      (fun _ => 0) fun w => - one v w := by
    refine ⟨fun w => (Int.add_zero _).symm, fun _ => Nat.le_refl _, fun w => ?_, rfl, rfl, rfl,
      fun _ _ => rfl⟩
    simp only [update_apply, one]
    split
    · subst w
      omega
    · omega
  have hs' := hs.change hdec fun w => by
    have := one_nonneg (w := v) (v := w)
    omega
  have hpos : 0 < s.refcount v := Nat.lt_of_lt_of_le hv (hs.opencount_le v)
  simp only [vnodeDecopen, vnodeCheck, Call.ensures_bind, Call.ensures_get, Call.ensures_require,
    after_ok, Call.ensures_ite, Call.ensures_modify]
  refine ⟨fun _ => ⟨fun _ => ⟨rfl, hdec⟩, fun _ => ⟨fun _ => ?_, fun h => h hpos⟩⟩, fun h => h hv⟩
  rw [Call.ensures_attempt]
  refine (hops.vopClose v
    { s with opencount := update s.opencount v (s.opencount v - 1) } hpos).mono
    fun r t ht => ⟨rfl, (hdec.trans (hs'.change_of_uncounted ht)).congr ?_ ?_⟩
  · omega
  · omega

end change

end OS161
