import OS161.Fs.Vnode

/-! `vfslookup.c`, `vfspath.c` and `vfscwd.c`, over the operations of the file systems. -/
namespace OS161

open Call (ensures_bind after_ok ensures_get ensures_pure ensures_ite ensures_attempt ensures_fail
  attempt fail crash failIf wp)

def oRdonly : Nat := 0
def oWronly : Nat := 1
def oRdwr : Nat := 2
def oCreat : Nat := 4
def oExcl : Nat := 8
def oTrunc : Nat := 16
def oAccmode : Nat := 3

def nameMax : Nat := 255

section model
variable {F α : Type} (ops : VnodeOps F)

/-- A VOP, behind `vnode_check`. -/
def vop (v : Vnode) (m : VfsCall F α) : VfsCall F α := do
  vnodeCheck v
  m

/-- `result = m; VOP_DECREF(v); return result;` -/
def thenDecref (v : Vnode) (m : VfsCall F α) : VfsCall F α := do
  let result ← attempt m
  vnodeDecref ops v
  Call.result result

def vfsGetcurdir : VfsCall F Vnode := do
  let s ← Call.get
  match s.cwd with
  | some v => do
    vnodeIncref v
    pure v
  | none => fail .enoent

/-- `vfs_getroot`, with the reference it takes. -/
def vfsGetrootRef (devname : Path) : VfsCall F Vnode := do
  let s ← Call.get
  match vfsGetroot s.devs (String.ofList devname) with
  | .error c => crash c
  | .ok (.error e) => fail e
  | .ok (.ok (.fs fs)) => ops.fsopGetroot fs
  | .ok (.ok (.device v)) => do
    vnodeIncref v
    pure v

/-- The root of the boot file system, for `/path`. -/
def bootRoot : VfsCall F Vnode := do
  let s ← Call.get
  match s.bootfs with
  | some v => do
    vnodeIncref v
    pure v
  | none => fail .enoent

/-- The root of the file system of the current directory, for `:path`. -/
def currentRoot : VfsCall F Vnode := do
  let vn ← vfsGetcurdir
  let s ← Call.get
  match s.fsOf vn with
  | some fs => thenDecref ops vn (ops.fsopGetroot fs)
  | none => crash .assertion

def skipSlashes (path : Path) : Path := path.dropWhile (· = '/')

/-- What is left of the path, and the vnode to look it up from: by the first colon or slash. -/
def getdevice (path : Path) : VfsCall F (Path × Vnode) :=
  match path.findIdx? fun c => c = ':' ∨ c = '/' with
  | none => relative
  | some i =>
    if path[i]? = some ':' then
      if 0 < i then do
        let startvn ← vfsGetrootRef ops (path.take i)
        pure (skipSlashes (path.drop (i + 1)), startvn)
      else do
        let startvn ← currentRoot ops
        pure (skipSlashes (path.drop 1), startvn)
    else if i = 0 then do
      let startvn ← bootRoot
      pure (skipSlashes (path.drop 1), startvn)
    else relative
where
  relative : VfsCall F (Path × Vnode) := do
    let startvn ← vfsGetcurdir
    pure (path, startvn)

def vfsLookparent (path : Path) (buflen : Nat) : VfsCall F (Vnode × Path) := do
  let (path, startvn) ← getdevice ops path
  thenDecref ops startvn <|
    if path = [] then fail .einval else vop startvn (ops.vopLookparent startvn path buflen)

def vfsLookup (path : Path) : VfsCall F Vnode := do
  let (path, startvn) ← getdevice ops path
  if path = [] then pure startvn
  else thenDecref ops startvn (vop startvn (ops.vopLookup startvn path))

/-- The part of `vfs_open` that finds or makes the file. -/
def openLookup (path : Path) (openflags : Nat) : VfsCall F Vnode :=
  if openflags &&& oCreat ≠ 0 then do
    let (dir, name) ← vfsLookparent ops path (nameMax + 1)
    thenDecref ops dir (vop dir (ops.vopCreat dir name (openflags &&& oExcl ≠ 0)))
  else vfsLookup ops path

/-- The part of `vfs_open` that truncates the file. -/
def openTrunc (vn : Vnode) (openflags : Nat) : VfsCall F Unit :=
  if openflags &&& oTrunc ≠ 0 then
    if openflags &&& oAccmode = oRdonly then fail .einval else vop vn (ops.vopTruncate vn 0)
  else pure ()

def vfsOpen (path : Path) (openflags : Nat) : VfsCall F Vnode := do
  failIf .einval (openflags &&& oAccmode ≠ oRdonly ∧ openflags &&& oAccmode ≠ oWronly ∧
    openflags &&& oAccmode ≠ oRdwr)
  let vn ← openLookup ops path openflags
  match ← attempt (vop vn (ops.vopOpen vn openflags)) with
  | .error e => do
    vnodeDecref ops vn
    fail e
  | .ok () => do
    vnodeIncopen vn
    match ← attempt (openTrunc ops vn openflags) with
    | .error e => do
      vnodeDecopen ops vn
      vnodeDecref ops vn
      fail e
    | .ok () => pure vn

def vfsClose (vn : Vnode) : VfsCall F Unit := do
  vnodeDecopen ops vn
  vnodeDecref ops vn

/-- The functions that look up the parent of one path and hand it to one operation. -/
def inParent (path : Path) (f : Vnode → Path → VfsCall F Unit) : VfsCall F Unit := do
  let (dir, name) ← vfsLookparent ops path (nameMax + 1)
  thenDecref ops dir (vop dir (f dir name))

def vfsRemove (path : Path) : VfsCall F Unit := inParent ops path ops.vopRemove

def vfsSymlink (contents path : Path) : VfsCall F Unit :=
  inParent ops path fun newdir newname => ops.vopSymlink newdir newname contents

def vfsMkdir (path : Path) : VfsCall F Unit := inParent ops path ops.vopMkdir

def vfsRmdir (path : Path) : VfsCall F Unit := inParent ops path ops.vopRmdir

/-- The test of `vfs_rename` and `vfs_link`, and the operation if it passes. -/
def sameFs (a b : Vnode) (m : VfsCall F Unit) : VfsCall F Unit := do
  let s ← Call.get
  failIf .exdev (s.fsOf a = none ∨ s.fsOf b = none ∨ s.fsOf a ≠ s.fsOf b)
  m

def vfsRename (oldpath newpath : Path) : VfsCall F Unit := do
  let (olddir, oldname) ← vfsLookparent ops oldpath (nameMax + 1)
  thenDecref ops olddir do
    let (newdir, newname) ← vfsLookparent ops newpath (nameMax + 1)
    thenDecref ops newdir <|
      sameFs olddir newdir (vop olddir (ops.vopRename olddir oldname newdir newname))

def vfsLink (oldpath newpath : Path) : VfsCall F Unit := do
  let oldfile ← vfsLookup ops oldpath
  thenDecref ops oldfile do
    let (newdir, newname) ← vfsLookparent ops newpath (nameMax + 1)
    thenDecref ops newdir <|
      sameFs oldfile newdir (vop newdir (ops.vopLink newdir newname oldfile))

def vfsReadlink (path : Path) : VfsCall F Unit := do
  let vn ← vfsLookup ops path
  thenDecref ops vn (vop vn (ops.vopReadlink vn))

/-- `if (old!=NULL) VOP_DECREF(old);` -/
def decrefOld : Option Vnode → VfsCall F Unit
  | some old => vnodeDecref ops old
  | none => pure ()

def vfsSetcurdir (dir : Vnode) : VfsCall F Unit := do
  let vtype ← vop dir (ops.vopGettype dir)
  failIf .enotdir (vtype ≠ .dir)
  vnodeIncref dir
  let s ← Call.get
  Call.modify fun s => { s with cwd := some dir }
  decrefOld ops s.cwd

def vfsChdir (path : Path) : VfsCall F Unit := do
  let vn ← vfsLookup ops path
  thenDecref ops vn (vfsSetcurdir ops vn)

end model

section spec
variable {F α : Type} {ops : VnodeOps F} {s t u : VfsState F} {v w : Vnode}

variable {m : VfsCall F α} {Q : Except Errno (Option Vnode) → VfsState F → Prop}

theorem vop_spec {Q : Except Errno α → VfsState F → Prop}
    (hv : 0 < s.refcount v) (hm : wp m Q s) : wp (vop v m) Q s := by
  simp only [vop, vnodeCheck, ensures_bind, ensures_get, Call.ensures_require, after_ok]
  exact ⟨fun _ => hm, fun h => h hv⟩

section
variable (hops : ops.Contract)
include hops

/-- `m` hands back at most the reference of `f`. -/
abbrev HandsBack (m : VfsCall F α) (f : α → Vnode) (s : VfsState F) : Prop :=
  wp m (fun r t => Change s t (handed f r) fun _ => 0) s

/-- `m` leaves all counts as they are. -/
abbrev Balanced (m : VfsCall F α) (s : VfsState F) : Prop :=
  wp m (fun _ t => Change s t (fun _ => 0) fun _ => 0) s

omit hops in
theorem Change.pos {opens : Vnode → Int} (h : Change s t (one v) opens) (hs : Sound s) :
    0 < t.refcount v := by
  have h₁ := h.refcount v
  have h₂ := hs.held v
  rw [one_self, VfsState.counted] at h₁
  omega

variable {β : Type} {f : α → Vnode}

omit hops in
theorem Change.sound (h : Change s t (one v) fun _ => 0) (hs : Sound s) : Sound t :=
  hs.change h fun _ => one_nonneg

/-- The reference given back at the end was got since `s`, and is not the one handed on. -/
theorem thenDecref_spec (hs : Sound s) {refs : Except Errno α → Vnode → Int}
    (hn : ∀ r w, 0 ≤ refs r w) (h : Change s t (one v) fun _ => 0)
    (hm : wp m (fun r u => Change t u (refs r) fun _ => 0) t) :
    wp (thenDecref ops v m) (fun r u => Change s u (refs r) fun _ => 0) t := by
  simp only [thenDecref, ensures_bind, ensures_attempt]
  refine hm.mono fun r u hu => ?_
  have hsu : Change s u (fun w => one v w + refs r w) fun _ => 0 :=
    (h.trans hu).congr (fun _ => rfl) fun _ => by omega
  have hlt : 0 < one v v + refs r v := by
    have := hn r v
    rw [one_self]
    omega
  rw [after_ok, ensures_bind]
  refine (vnodeDecref_spec hops (hs.change hsu fun w => Int.add_nonneg one_nonneg (hn r w))
    (hs.holders_lt hsu hlt)).mono ?_
  rintro _ z ⟨rfl, hz⟩
  exact (hsu.trans hz).congr (fun w => by omega) fun w => by omega

theorem HandsBack.thenDecref (hs : Sound s) (h : Change s t (one v) fun _ => 0)
    (hm : HandsBack m f t) :
    wp (thenDecref ops v m) (fun r u => Change s u (handed f r) fun _ => 0) t :=
  thenDecref_spec hops hs (fun _ _ => handed_nonneg) h hm

omit hops in
theorem incref_handsBack : HandsBack (do vnodeIncref v; pure v) id s := by
  simp only [HandsBack, ensures_bind]
  refine (vnodeIncref_spec v s).mono ?_
  rintro _ t ⟨rfl, h⟩
  rw [after_ok, ensures_pure]
  exact h

omit hops in
theorem fail_handsBack {e : Errno} : HandsBack (fail e : VfsCall F α) f s := by
  simp only [HandsBack, ensures_fail]
  exact .refl

omit hops in
theorem vfsGetcurdir_spec : HandsBack (vfsGetcurdir : VfsCall F Vnode) id s := by
  simp only [HandsBack, vfsGetcurdir, ensures_bind, ensures_get, after_ok]
  cases s.cwd with
  | some v => exact incref_handsBack
  | none => exact fail_handsBack

omit hops in
theorem bootRoot_spec : HandsBack (bootRoot : VfsCall F Vnode) id s := by
  simp only [HandsBack, bootRoot, ensures_bind, ensures_get, after_ok]
  cases s.bootfs with
  | some v => exact incref_handsBack
  | none => exact fail_handsBack

theorem fsopGetroot_handsBack (hs : Sound s) (fs : Fs) : HandsBack (ops.fsopGetroot fs) id s :=
  Call.Ensures.mono (hops.fsopGetroot fs s) fun _ _ h => hs.change_of_referenced h.1

theorem vfsGetrootRef_spec (hs : Sound s) (devname : Path) :
    HandsBack (vfsGetrootRef ops devname) id s := by
  simp only [HandsBack, vfsGetrootRef, ensures_bind, ensures_get, after_ok]
  obtain ⟨r, hr, -⟩ := vfsGetroot_ok hs.backed (String.ofList devname)
  rw [hr]
  cases r with
  | error e => exact fail_handsBack
  | ok root =>
    cases root with
    | fs fs => exact fsopGetroot_handsBack hops hs fs
    | device v => exact incref_handsBack

theorem currentRoot_spec (hs : Sound s) : HandsBack (currentRoot ops) id s := by
  simp only [HandsBack, currentRoot, vfsGetcurdir, ensures_bind, ensures_get, after_ok]
  cases hcwd : s.cwd with
  | none => exact fail_handsBack
  | some v =>
    rw [ensures_bind]
    refine (vnodeIncref_spec v s).mono ?_
    rintro _ t ⟨rfl, h⟩
    simp only [after_ok, ensures_pure, ensures_bind, ensures_get]
    rw [h.fsOf v hcwd]
    cases hfs : s.fsOf v with
    | none => exact (hs.cwd v hcwd hfs).elim
    | some fs =>
      exact (fsopGetroot_handsBack hops (h.sound hs) fs).thenDecref hops hs h

omit hops in
theorem HandsBack.bind {k : α → VfsCall F β}
    {Q : Except Errno β → VfsState F → Prop} (hm : HandsBack m f s)
    (hok : ∀ a t, Change s t (one (f a)) (fun _ => 0) → wp (k a) Q t)
    (herr : ∀ e t, Change s t (fun _ => 0) (fun _ => 0) → Q (.error e) t) : wp (m >>= k) Q s := by
  rw [wp, ensures_bind]
  refine Call.Ensures.mono hm fun r t h => ?_
  cases r with
  | ok a => exact hok a t h
  | error e => exact herr e t h

/-- The vnode handed back is worked on and then released. -/
theorem HandsBack.around (hs : Sound s) {k : α → VfsCall F β} (hm : HandsBack m f s)
    (hk : ∀ a t, Change s t (one (f a)) (fun _ => 0) → Sound t → 0 < t.refcount (f a) →
      Balanced (k a) t) : Balanced (m >>= fun a => OS161.thenDecref ops (f a) (k a)) s :=
  hm.bind (fun a t h => thenDecref_spec hops hs (fun _ _ => Int.le_refl 0) h
    (hk a t h (h.sound hs) (h.pos hs))) fun _ _ h => h

omit hops in
theorem HandsBack.map {g : α → β} {f' : β → Vnode}
    (hm : HandsBack m f s) (hf : ∀ a, f' (g a) = f a) :
    HandsBack (do let a ← m; pure (g a)) f' s := by
  refine hm.bind (fun a t h => ?_) fun e t h => h
  simp only [ensures_pure, handed, hf]
  exact h

theorem getdevice_spec (hs : Sound s) (path : Path) :
    HandsBack (getdevice ops path) Prod.snd s := by
  have hrel : HandsBack (getdevice.relative path : VfsCall F _) Prod.snd s :=
    vfsGetcurdir_spec.map fun _ => rfl
  unfold getdevice
  cases path.findIdx? fun c => c = ':' ∨ c = '/' with
  | none => exact hrel
  | some i =>
    simp only [HandsBack, ensures_ite]
    refine ⟨fun _ => ⟨fun _ => ?_, fun _ => ?_⟩, fun _ => ⟨fun _ => ?_, fun _ => hrel⟩⟩
    · exact (vfsGetrootRef_spec hops hs _).map fun _ => rfl
    · exact (currentRoot_spec hops hs).map fun _ => rfl
    · exact bootRoot_spec.map fun _ => rfl

theorem vfsLookparent_spec (hs : Sound s) (path : Path) (buflen : Nat) :
    HandsBack (vfsLookparent ops path buflen) Prod.fst s := by
  refine (getdevice_spec hops hs path).bind (fun p t h => ?_) fun e t h => h
  have ht := h.sound hs
  refine HandsBack.thenDecref hops hs h ?_
  simp only [HandsBack, ensures_ite]
  refine ⟨fun _ => fail_handsBack, fun _ => vop_spec (h.pos hs) ?_⟩
  exact (hops.vopLookparent _ _ _ t (h.pos hs)).mono fun _ _ hr => ht.change_of_referenced hr

theorem vfsLookup_spec (hs : Sound s) (path : Path) : HandsBack (vfsLookup ops path) id s := by
  refine (getdevice_spec hops hs path).bind (fun p t h => ?_) fun e t h => h
  have ht := h.sound hs
  simp only [ensures_ite, ensures_pure]
  refine ⟨fun _ => h, fun _ => HandsBack.thenDecref hops hs h (vop_spec (h.pos hs) ?_)⟩
  exact (hops.vopLookup _ _ t (h.pos hs)).mono fun _ _ hr => ht.change_of_referenced hr

omit hops in
theorem Sound.balanced (hs : Sound s) (h : wp m (Uncounted s) s) : Balanced m s :=
  h.mono fun _ _ hu => hs.change_of_uncounted hu

theorem inParent_spec (hs : Sound s) (path : Path) {f : Vnode → Path → VfsCall F Unit}
    (hf : ∀ v name t, 0 < t.refcount v → wp (f v name) (Uncounted t) t) :
    Balanced (inParent ops path f) s := by
  refine (vfsLookparent_spec hops hs path _).around hops hs fun p t _ ht hpos => ?_
  exact vop_spec hpos (ht.balanced (hf _ _ t hpos))

omit hops in
theorem sameFs_spec {a b : Vnode} {m : VfsCall F Unit} (hm : Balanced m s) :
    Balanced (sameFs a b m) s := by
  simp only [Balanced, sameFs, ensures_bind, ensures_get, Call.ensures_failIf,
    after_ok, Call.after_error]
  exact ⟨fun _ => .refl, fun _ => hm⟩

section
variable (hs : Sound s)
include hs

theorem vfsRename_spec (oldpath newpath : Path) : Balanced (vfsRename ops oldpath newpath) s := by
  refine (vfsLookparent_spec hops hs oldpath _).around hops hs fun old t h ht _ => ?_
  refine (vfsLookparent_spec hops ht newpath _).around hops ht fun new u h' hu _ => ?_
  have hpos : 0 < u.refcount old.1 := by
    have h₁ := hs.held old.1
    have h₂ := h.refcount old.1
    have h₃ := h'.refcount old.1
    have h₄ := one_nonneg (w := new.1) (v := old.1)
    rw [one_self] at h₂
    rw [VfsState.counted] at h₃
    omega
  exact sameFs_spec (vop_spec hpos (hu.balanced (hops.vopRename _ _ _ _ u hpos)))

theorem vfsLink_spec (oldpath newpath : Path) : Balanced (vfsLink ops oldpath newpath) s := by
  refine (vfsLookup_spec hops hs oldpath).around hops hs fun old t _ ht _ => ?_
  refine (vfsLookparent_spec hops ht newpath _).around hops ht fun new u _ hu hpos => ?_
  exact sameFs_spec (vop_spec hpos (hu.balanced (hops.vopLink _ _ _ u hpos)))

theorem vfsReadlink_spec (path : Path) : Balanced (vfsReadlink ops path) s := by
  refine (vfsLookup_spec hops hs path).around hops hs fun v t _ ht hpos => ?_
  exact vop_spec hpos (ht.balanced (hops.vopReadlink _ t hpos))

theorem openLookup_spec (path : Path) (openflags : Nat) :
    HandsBack (openLookup ops path openflags) id s := by
  simp only [HandsBack, openLookup, ensures_ite]
  refine ⟨fun _ => ?_, fun _ => vfsLookup_spec hops hs path⟩
  refine (vfsLookparent_spec hops hs path _).bind (fun p t h => ?_) fun e t h => h
  have ht := h.sound hs
  refine HandsBack.thenDecref hops hs h (vop_spec (h.pos hs) ?_)
  exact (hops.vopCreat _ _ _ t (h.pos hs)).mono fun _ _ hr => ht.change_of_referenced hr

theorem openTrunc_spec (hv : 0 < s.refcount v)
    (openflags : Nat) : Balanced (openTrunc ops v openflags) s := by
  simp only [Balanced, openTrunc, ensures_ite, ensures_fail, ensures_pure]
  exact ⟨fun _ => ⟨fun _ => .refl,
    fun _ => vop_spec hv (hs.balanced (hops.vopTruncate _ _ s hv))⟩, fun _ => .refl⟩

/-- The way out of `vfs_open` on an error: the reference to the file is given back. -/
theorem decref_fail_spec (h : Change s t (one v) fun _ => 0)
    {e : Errno} : wp (do vnodeDecref ops v; fail e : VfsCall F Vnode)
      (fun r u => Change s u (handed id r) (handed id r)) t := by
  rw [wp, ensures_bind]
  refine (vnodeDecref_spec hops (h.sound hs) (hs.holders_lt h (by simp))).mono ?_
  rintro _ u ⟨rfl, hu⟩
  exact (h.trans hu).congr (fun w => by simp only [handed]; omega) fun w => rfl

theorem vfsOpen_spec (path : Path) (openflags : Nat) :
    wp (vfsOpen ops path openflags) (fun r t => Change s t (handed id r) (handed id r)) s := by
  rw [vfsOpen, wp, ensures_bind, Call.ensures_failIf]
  refine ⟨fun _ => .refl, fun _ => ?_⟩
  refine (openLookup_spec hops hs path openflags).bind (fun v t h => ?_) fun e t h => h
  have ht := h.sound hs
  rw [wp, ensures_bind, ensures_attempt]
  refine (vop_spec (h.pos hs) (ht.balanced (hops.vopOpen _ _ t (h.pos hs)))).mono fun r u hu => ?_
  have hsu : Change s u (one v) fun _ => 0 :=
    (h.trans hu).congr (fun _ => by simp) fun _ => by simp
  rw [after_ok]
  cases r with
  | error e => exact decref_fail_spec hops hs hsu
  | ok _ =>
    rw [ensures_bind]
    refine (vnodeIncopen_spec v u).mono ?_
    rintro _ x ⟨rfl, hx⟩
    have hsx : Change s x (one v) (one v) :=
      (hsu.trans hx).congr (fun _ => by simp) fun _ => by simp
    have hsx' := hs.change hsx fun _ => Int.le_refl _
    rw [after_ok, ensures_bind, ensures_attempt]
    refine (openTrunc_spec hops hsx' (hsx.pos hs) openflags).mono fun r y hy => ?_
    have hsy : Change s y (one v) (one v) :=
      (hsx.trans hy).congr (fun _ => by simp) fun _ => by simp
    rw [after_ok]
    cases r with
    | ok _ => exact hsy
    | error e =>
      have hopen : 0 < y.opencount v := by
        have := hsy.opencount v
        rw [one_self] at this
        omega
      rw [ensures_bind]
      refine (vnodeDecopen_spec hops (hs.change hsy fun _ => Int.le_refl _) hopen).mono ?_
      rintro _ z ⟨rfl, hz⟩
      have hsz : Change s z (one v) fun _ => 0 :=
        (hsy.trans hz).congr (fun _ => by simp) fun _ => by omega
      exact decref_fail_spec hops hs hsz

theorem vfsClose_spec (hv : 0 < s.opencount v) :
    wp (vfsClose ops v)
      (fun r t => r = .ok () ∧ Change s t (fun w => - one v w) fun w => - one v w) s := by
  have hle : ∀ w, - one v w ≤ 0 := fun w => by
    have := one_nonneg (w := v) (v := w)
    omega
  rw [wp, vfsClose, ensures_bind]
  refine (vnodeDecopen_spec hops hs hv).mono ?_
  rintro _ t ⟨rfl, ht⟩
  refine (vnodeDecref_spec hops (hs.change ht hle) (hs.holders_lt ht (by simp))).mono ?_
  rintro _ u ⟨rfl, hu⟩
  exact ⟨rfl, (ht.trans hu).congr (fun w => by omega) fun w => by omega⟩

theorem open_close_spec (path : Path) (openflags : Nat) :
    Balanced (do let v ← vfsOpen ops path openflags; vfsClose ops v) s := by
  rw [Balanced, wp, ensures_bind]
  refine (vfsOpen_spec hops hs path openflags).mono fun r t h => ?_
  cases r with
  | error e => exact h
  | ok v =>
    have hopen : 0 < t.opencount v := by
      have := h.opencount v
      simp only [handed, id, one_self] at this
      omega
    refine (vfsClose_spec hops (hs.change h fun _ => Int.le_refl _) hopen).mono ?_
    rintro _ u ⟨rfl, hu⟩
    exact (h.trans hu).congr (fun w => by simp only [handed, id]; omega)
      fun w => by simp only [handed, id]; omega

end

end

/-- The reference that the current directory has. -/
def VfsState.cwdRef (s : VfsState F) (v : Vnode) : Int := if s.cwd = some v then 1 else 0

/-- The current directory is now `v`, and has the reference that the old one had. -/
structure Chdir (s t : VfsState F) (v : Vnode) : Prop where
  refcount : ∀ w, t.counted w = s.counted w + one v w - s.cwdRef w
  opencount : t.opencount = s.opencount
  cwd : t.cwd = some v
  bootfs : t.bootfs = s.bootfs
  devs : t.devs = s.devs
  fsOf : t.fsOf v ≠ none

theorem Chdir.holders (h : Chdir s t v) (w : Vnode) :
    (t.holders w : Int) = s.holders w + one v w - s.cwdRef w := by
  simp only [VfsState.holders, VfsState.cwdRef, one, h.opencount, h.cwd, h.bootfs, h.devs,
    Option.some.injEq, eq_comm (a := v)]
  by_cases hc : s.cwd = some w
  · simp only [if_pos hc]
    split <;> omega
  · simp only [if_neg hc]
    split <;> omega

theorem Sound.chdir (hs : Sound s) (h : Chdir s t v) : Sound t := by
  refine ⟨fun w => ?_, by rw [h.devs]; exact hs.backed, fun w hw => ?_⟩
  · have h₁ := h.holders w
    have h₂ := h.refcount w
    have h₃ := hs.held w
    omega
  · rw [h.cwd] at hw
    cases hw
    exact h.fsOf

/-- What `vfs_setcurdir` does, if it fails and if it does not. -/
def SetsCwd (s : VfsState F) (v : Vnode) : Except Errno Unit → VfsState F → Prop
  | .ok _, t => Chdir s t v
  | .error _, t => Change s t (fun _ => 0) fun _ => 0

/-- The old current directory is released after the new one is in its place. -/
theorem decrefOld_spec (hops : ops.Contract) (hs : Sound s) (h : Change s t (one v) fun _ => 0)
    (hfs : t.fsOf v ≠ none) :
    wp (decrefOld ops t.cwd) (SetsCwd s v) { t with cwd := some v } := by
  have hopen : t.opencount = s.opencount := funext fun w => by
    have := h.opencount w
    omega
  rw [h.cwd]
  cases hcwd : s.cwd with
  | none =>
    refine ⟨fun w => ?_, hopen, rfl, h.bootfs, h.devs, hfs⟩
    simp only [VfsState.cwdRef, hcwd, reduceCtorEq, if_false, Int.sub_zero]
    exact h.refcount w
  | some old =>
    -- all that the new directory lacks of `Chdir` is the reference of the old one
    have hholders : ∀ w, ({ t with cwd := some v }.holders w : Int) =
        s.holders w + one v w - one old w := by
      intro w
      simp only [VfsState.holders, one, hopen, h.bootfs, h.devs, hcwd, Option.some.injEq,
        eq_comm (a := v), eq_comm (a := old)]
      by_cases hw : w = old
      · simp only [if_pos hw]
        split <;> omega
      · simp only [if_neg hw]
        split <;> omega
    have hsound : Sound { t with cwd := some v } := by
      refine ⟨fun w => ?_, by rw [h.devs]; exact hs.backed, fun w hw => ?_⟩
      · have h₁ := hholders w
        have h₂ := h.refcount w
        have h₃ := hs.held w
        have h₄ := one_nonneg (w := old) (v := w)
        show _ ≤ t.counted w
        omega
      · cases hw
        exact hfs
    have hlt : { t with cwd := some v }.holders old < t.counted old := by
      have h₁ := hholders old
      have h₂ := h.refcount old
      have h₃ := hs.held old
      rw [one_self] at h₁
      omega
    refine (vnodeDecref_spec hops hsound hlt).mono ?_
    rintro _ u ⟨rfl, hu⟩
    refine ⟨fun w => ?_, ?_, hu.cwd, hu.bootfs.trans h.bootfs, hu.devs.trans h.devs, ?_⟩
    · have h₁ := h.refcount w
      have h₂ : u.counted w = t.counted w + - one old w := hu.refcount w
      simp only [VfsState.cwdRef, hcwd, Option.some.injEq, eq_comm (a := old)]
      simp only [one] at h₁ h₂ ⊢
      omega
    · refine funext fun w => ?_
      have h₁ := hu.opencount w
      have h₂ := congrFun hopen w
      simp only at h₁
      omega
    · rw [hu.fsOf v rfl]
      exact hfs

theorem vfsSetcurdir_spec (hops : ops.Contract) (hs : Sound s) (hv : 0 < s.refcount v) :
    wp (vfsSetcurdir ops v) (SetsCwd s v) s := by
  rw [wp, vfsSetcurdir, ensures_bind]
  refine (vop_spec hv (hops.vopGettype v s hv)).mono fun r t ht => ?_
  have hst := hs.change_of_uncounted ht.1
  cases r with
  | error e => exact hst
  | ok vtype =>
    simp only [after_ok, ensures_bind, Call.ensures_failIf, Call.after_error]
    refine ⟨fun _ => hst, fun hdir => ?_⟩
    have hfs : t.fsOf v ≠ none := by
      rw [ht.1.1.fsOf v hv (by rw [ht.1.2]; exact hv)]
      exact ht.2 (by rw [not_not.mp hdir])
    have hsu : Change s _ (one v) fun _ => 0 :=
      (hst.trans (vnodeIncref_spec v t).2).congr (fun _ => by omega) fun _ => by omega
    exact decrefOld_spec hops hs hsu hfs

theorem vfsChdir_spec (hops : ops.Contract) (hs : Sound s) (path : Path) :
    wp (vfsChdir ops path) (fun r t => ∃ v, SetsCwd s v r t) s := by
  refine (vfsLookup_spec hops hs path).bind (fun v t h => ?_) fun e t h => ⟨0, h⟩
  have ht := h.sound hs
  simp only [thenDecref, ensures_bind, ensures_attempt]
  refine (vfsSetcurdir_spec hops ht (h.pos hs)).mono fun r u hu => ?_
  rw [after_ok, ensures_bind]
  cases r with
  | error e =>
    have hsu : Change s u (one v) fun _ => 0 :=
      (h.trans hu).congr (fun _ => by simp) fun _ => by simp
    refine (vnodeDecref_spec hops (hsu.sound hs) (hs.holders_lt hsu (by simp))).mono ?_
    rintro _ z ⟨rfl, hz⟩
    exact ⟨v, (hsu.trans hz).congr (fun _ => by omega) fun _ => by omega⟩
  | ok _ =>
    have hlt : u.holders v < u.counted v := by
      have h₁ := hu.holders v
      have h₂ := hu.refcount v
      have h₃ := hs.holders_lt h (v := v) (by simp)
      omega
    refine (vnodeDecref_spec hops (ht.chdir hu) hlt).mono ?_
    rintro _ z ⟨rfl, hz⟩
    refine ⟨v, fun w => ?_, ?_, hz.cwd.trans hu.cwd, (hz.bootfs.trans hu.bootfs).trans h.bootfs,
      (hz.devs.trans hu.devs).trans h.devs, ?_⟩
    · have h₁ := h.refcount w
      have h₂ := hu.refcount w
      have h₃ := hz.refcount w
      simp only [VfsState.cwdRef, h.cwd, id] at h₁ h₂ ⊢
      omega
    · refine funext fun w => ?_
      have h₁ := h.opencount w
      have h₂ := congrFun hu.opencount w
      have h₃ := hz.opencount w
      omega
    · rw [hz.fsOf v hu.cwd]
      exact hu.fsOf

/-- The calls that take a path. -/
inductive VfsOp where
  | lookup (path : Path)
  | lookparent (path : Path) (buflen : Nat)
  | open (path : Path) (openflags : Nat)
  | remove (path : Path)
  | rename (oldpath newpath : Path)
  | link (oldpath newpath : Path)
  | mkdir (path : Path)
  | rmdir (path : Path)
  | symlink (contents path : Path)
  | readlink (path : Path)
  | chdir (path : Path)

/-- The call, with the vnode it hands back if it does. -/
def VfsOp.run (ops : VnodeOps F) : VfsOp → VfsCall F (Option Vnode)
  | .lookup path => do pure (some (← vfsLookup ops path))
  | .lookparent path buflen => do pure (some (← vfsLookparent ops path buflen).1)
  | .open path openflags => do pure (some (← vfsOpen ops path openflags))
  | .remove path => do vfsRemove ops path; pure none
  | .rename oldpath newpath => do vfsRename ops oldpath newpath; pure none
  | .link oldpath newpath => do vfsLink ops oldpath newpath; pure none
  | .mkdir path => do vfsMkdir ops path; pure none
  | .rmdir path => do vfsRmdir ops path; pure none
  | .symlink contents path => do vfsSymlink ops contents path; pure none
  | .readlink path => do vfsReadlink ops path; pure none
  | .chdir path => do vfsChdir ops path; pure none

/-- What a call may do to the counts. -/
def VfsOp.Effect (s t : VfsState F) : VfsOp → Except Errno (Option Vnode) → Prop
  | _, .error _ => Change s t (fun _ => 0) fun _ => 0
  | .open _ _, .ok (some v) => Change s t (one v) (one v)
  | _, .ok (some v) => Change s t (one v) fun _ => 0
  | .chdir _, .ok none => ∃ v, Chdir s t v
  | _, .ok none => Change s t (fun _ => 0) fun _ => 0

theorem HandsBack.run {f : α → Vnode} (hs : Sound s) (hm : HandsBack m f s)
    (hok : ∀ a t, Change s t (one (f a)) (fun _ => 0) → Q (.ok (some (f a))) t)
    (herr : ∀ e t, Change s t (fun _ => 0) (fun _ => 0) → Q (.error e) t) :
    wp (do let a ← m; pure (some (f a))) (fun r t => Sound t ∧ Q r t) s :=
  hm.bind (fun a t h => ⟨h.sound hs, hok a t h⟩)
    fun e t h => ⟨hs.change h fun _ => Int.le_refl 0, herr e t h⟩

theorem Balanced.run {m : VfsCall F Unit} (hs : Sound s) (hm : Balanced m s)
    (hok : ∀ t, Change s t (fun _ => 0) (fun _ => 0) → Q (.ok none) t)
    (herr : ∀ e t, Change s t (fun _ => 0) (fun _ => 0) → Q (.error e) t) :
    wp (do m; pure none) (fun r t => Sound t ∧ Q r t) s := by
  rw [wp, ensures_bind]
  refine hm.mono fun r t h => ?_
  have ht := hs.change h fun _ => Int.le_refl 0
  cases r with
  | ok _ => exact ⟨ht, hok t h⟩
  | error e => exact ⟨ht, herr e t h⟩

/-- In any sound state every call returns, whatever fails below it: on failure no count has
changed; on success only that of the vnode handed back, by the one reference it comes with (and
its open count, for `vfs_open`), or for `vfs_chdir` those of the new and the old current directory.
`vfs_close` takes back what `vfs_open` gave. A vnode whose VOP_RECLAIM fails keeps a reference. -/
theorem vfs_reference_balanced (hops : ops.Contract) (hs : Sound s) :
    (∀ op, wp (VfsOp.run ops op) (fun r t => Sound t ∧ VfsOp.Effect s t op r) s) ∧
    (∀ v, 0 < s.opencount v → wp (vfsClose ops v) (fun r t => r = .ok () ∧ Sound t ∧
      Change s t (fun w => - one v w) fun w => - one v w) s) ∧
    ∀ path openflags, wp (do let v ← vfsOpen ops path openflags; vfsClose ops v)
      (fun _ t => Change s t (fun _ => 0) fun _ => 0) s := by
  refine ⟨fun op => ?_, fun v hv => ?_, fun path openflags =>
    open_close_spec hops hs path openflags⟩
  · cases op with
    | lookup path => exact (vfsLookup_spec hops hs path).run hs (fun _ _ h => h) fun _ _ h => h
    | lookparent path buflen =>
      exact (vfsLookparent_spec hops hs path buflen).run hs (fun _ _ h => h) fun _ _ h => h
    | «open» path openflags =>
      rw [VfsOp.run, wp, ensures_bind]
      refine (vfsOpen_spec hops hs path openflags).mono fun r t h => ?_
      have ht := hs.change h fun _ => Int.le_refl _
      cases r with
      | ok | error => exact ⟨ht, h⟩
    | remove path =>
      exact (inParent_spec hops hs path hops.vopRemove).run hs (fun _ h => h) fun _ _ h => h
    | rename oldpath newpath =>
      exact (vfsRename_spec hops hs oldpath newpath).run hs (fun _ h => h) fun _ _ h => h
    | link oldpath newpath =>
      exact (vfsLink_spec hops hs oldpath newpath).run hs (fun _ h => h) fun _ _ h => h
    | mkdir path =>
      exact (inParent_spec hops hs path hops.vopMkdir).run hs (fun _ h => h) fun _ _ h => h
    | rmdir path =>
      exact (inParent_spec hops hs path hops.vopRmdir).run hs (fun _ h => h) fun _ _ h => h
    | symlink contents path =>
      exact (inParent_spec hops hs path fun v name => hops.vopSymlink v name contents).run hs
        (fun _ h => h) fun _ _ h => h
    | readlink path =>
      exact (vfsReadlink_spec hops hs path).run hs (fun _ h => h) fun _ _ h => h
    | chdir path =>
      rw [VfsOp.run, wp, ensures_bind]
      refine (vfsChdir_spec hops hs path).mono fun r t h => ?_
      obtain ⟨v, h⟩ := h
      cases r with
      | ok _ => exact ⟨hs.chdir h, v, h⟩
      | error e => exact ⟨hs.change h fun _ => Int.le_refl 0, h⟩
  · refine (vfsClose_spec hops hs hv).mono fun r t h => ⟨h.1, hs.change h.2 ?_, h.2⟩
    exact fun _ => Int.le_refl _

end spec

/-- Vnode 0 is its root, where every name is the root again. -/
def rootOps : VnodeOps Unit where
  vopOpen _ _ := pure ()
  vopClose _ := pure ()
  vopReclaim v := Call.modify fun s => { s with refcount := Function.update s.refcount v 0 }
  vopReadlink _ := fail .einval
  vopGettype v := do
    let s ← Call.get
    if s.fsOf v = none then pure .chr else pure .dir
  vopTruncate _ _ := fail .eisdir
  vopCreat _ _ _ := fail .enospc
  vopSymlink _ _ _ := fail .enospc
  vopMkdir _ _ := fail .enospc
  vopLink _ _ _ := fail .enospc
  vopRemove _ _ := fail .eisdir
  vopRmdir _ _ := fail .ebusy
  vopRename _ _ _ _ := fail .einval
  vopLookup _ _ := do vnodeIncref 0; pure 0
  vopLookparent _ path _ := do vnodeIncref 0; pure (0, path)
  fsopGetroot _ := do vnodeIncref 0; pure 0

section instances
variable {s : VfsState Unit}

theorem Untouched.refl : Untouched s s := ⟨rfl, rfl, rfl, rfl, rfl, fun _ _ _ => rfl⟩

theorem rootOps_root {α : Type} {f : α → Vnode} {a : α} (ha : f a = 0) :
    wp (do vnodeIncref 0; pure a) (Referenced f s) s := by
  refine ⟨⟨rfl, rfl, rfl, rfl, rfl, fun _ _ _ => rfl⟩, ?_⟩
  rw [ha]

theorem rootOps_contract : rootOps.Contract where
  vopOpen _ _ _ _ := ⟨.refl, rfl⟩
  vopClose _ _ _ := ⟨.refl, rfl⟩
  vopReclaim _ _ _ _ := ⟨⟨rfl, rfl, rfl, rfl, rfl, fun _ _ _ => rfl⟩, (if_pos rfl).symm⟩
  vopReadlink _ _ _ := ⟨.refl, rfl⟩
  vopGettype v s _ := by
    simp only [rootOps, ensures_bind, ensures_get, after_ok, ensures_ite, ensures_pure]
    exact ⟨fun _ => ⟨⟨.refl, rfl⟩, by simp⟩, fun h => ⟨⟨.refl, rfl⟩, fun _ => h⟩⟩
  vopTruncate _ _ _ _ := ⟨.refl, rfl⟩
  vopCreat _ _ _ _ _ := ⟨.refl, rfl⟩
  vopSymlink _ _ _ _ _ := ⟨.refl, rfl⟩
  vopMkdir _ _ _ _ := ⟨.refl, rfl⟩
  vopLink _ _ _ _ _ := ⟨.refl, rfl⟩
  vopRemove _ _ _ _ := ⟨.refl, rfl⟩
  vopRmdir _ _ _ _ := ⟨.refl, rfl⟩
  vopRename _ _ _ _ _ _ := ⟨.refl, rfl⟩
  vopLookup _ _ _ _ := rootOps_root rfl
  vopLookparent _ _ _ _ _ := rootOps_root rfl
  fsopGetroot _ _ := ⟨rootOps_root rfl, 0, rfl⟩

end instances

/-- The root is the current directory and open once. -/
def atRoot : VfsState Unit where
  refcount v := if v = 0 then 2 else 0
  opencount v := if v = 0 then 1 else 0
  unreclaimed _ := 0
  fsOf _ := some { id := 0, volname := none }
  cwd := some 0
  bootfs := none
  devs := []
  data := ()

theorem atRoot_sound : Sound atRoot := by
  refine ⟨fun v => ?_, by simp [atRoot], by simp [atRoot]⟩
  simp only [VfsState.holders, VfsState.counted, atRoot, Option.some.injEq, eq_comm (a := 0)]
  split <;> simp

theorem vfs_reference_balanced_atRoot :
    (∀ op, wp (VfsOp.run rootOps op)
      (fun r t => Sound t ∧ VfsOp.Effect atRoot t op r) atRoot) ∧
    wp (vfsClose rootOps 0) (fun r t => r = .ok () ∧ Sound t ∧
      Change atRoot t (fun w => - one 0 w) fun w => - one 0 w) atRoot :=
  have h := vfs_reference_balanced rootOps_contract atRoot_sound
  ⟨h.1, h.2.1 0 (by decide)⟩

/-- Where no vnode can be reclaimed, for an I/O error. -/
def brokenOps : VnodeOps Unit := { rootOps with vopReclaim _ := fail .eio }

theorem brokenOps_contract : brokenOps.Contract :=
  { rootOps_contract with vopReclaim _ _ _ _ := ⟨.refl, (if_neg (by simp)).symm⟩ }

/-- Another directory is the current one. -/
def awayFromRoot : VfsState Unit :=
  { atRoot with
    refcount v := if v = 1 then 1 else 0
    opencount _ := 0
    cwd := some 1 }

/-- A call fails, and the count of the root has gone from 0 to 1. -/
theorem failed_call_keeps_reference : brokenOps.Contract ∧ Sound awayFromRoot ∧
    ∃ t, VfsOp.run brokenOps (.readlink [':']) awayFromRoot = .ok (.error .einval, t) ∧
      awayFromRoot.refcount 0 = 0 ∧ t.refcount 0 = 1 := by
  refine ⟨brokenOps_contract, ⟨fun v => ?_, by simp [awayFromRoot, atRoot],
    by simp [awayFromRoot, atRoot]⟩, _, rfl, rfl, rfl⟩
  simp only [VfsState.holders, VfsState.counted, awayFromRoot, atRoot, Option.some.injEq,
    eq_comm (a := 1)]
  split <;> simp

end OS161
