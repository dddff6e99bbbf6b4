import Mathlib.Data.List.TakeWhile
import OS161.Fs.Vfspath

/-! `getdevice` on the characters of the path, cut in place at the colon. -/
namespace OS161

open Call (ensures_bind after_ok ensures_get ensures_pure ensures_ite ensures_attempt)

/-- `path[i]`: the buffer ends with a NUL. -/
def charAt (path : Path) (i : Nat) : Char := path.getD i '\x00'

/-- The string that starts at `path + i`. -/
def stringAt (path : Path) (i : Nat) : Path := (path.drop i).takeWhile (· ≠ '\x00')

/-- The loop that locates the first colon or slash, from `i` on: the values of `slash` and `colon`
after it. -/
def locateFirst (path : Path) : Nat → Nat → Int × Int
  | 0, _ => (-1, -1)
  | fuel + 1, i =>
    if charAt path i = '\x00' then (-1, -1)
    else if charAt path i = ':' then (-1, i)
    else if charAt path i = '/' then (i, -1)
    else locateFirst path fuel (i + 1)

/-- `while (path[i+1]=='/') i++;` -/
def skipFrom (path : Path) : Nat → Nat → Nat
  | 0, i => i
  | fuel + 1, i => if charAt path (i + 1) = '/' then skipFrom path fuel (i + 1) else i

section model
variable {F : Type} (ops : VnodeOps F)

/-- What `getdevice` does with the positions it found: the buffer as the call leaves it, the offset
of the subpath in it, and the vnode to start from. -/
def startFrom (path : Path) (slash colon : Int) : VfsCall F ((Path × Nat) × Vnode) :=
  if colon < 0 ∧ slash ≠ 0 then do
    let startvn ← vfsGetcurdir
    pure ((path, 0), startvn)
  else if 0 < colon then do
    let path := path.set colon.toNat '\x00'
    let colon := skipFrom path path.length colon.toNat
    let startvn ← vfsGetrootRef ops (stringAt path 0)
    pure ((path, colon + 1), startvn)
  else do
    Call.require .assertion (colon = 0 ∨ slash = 0)
    let startvn ←
      if charAt path 0 = '/' then bootRoot
      else do
        Call.require .assertion (charAt path 0 = ':')
        currentRoot ops
    -- here it is the pointer `path` that moves
    pure ((path, skipFrom path path.length 0 + 1), startvn)

def getdeviceAt (path : Path) : VfsCall F ((Path × Nat) × Vnode) :=
  let positions := locateFirst path path.length 0
  startFrom ops path positions.1 positions.2

/-- What the callers of `getdevice` see: the subpath is read as a string. -/
def getdeviceString (path : Path) : VfsCall F (Path × Vnode) := do
  let found ← getdeviceAt ops path
  pure (stringAt found.1.1 found.1.2, found.2)

end model

/-- A character that ends the scan. -/
def Separator (c : Char) : Prop := c = ':' ∨ c = '/'

instance : DecidablePred Separator := fun c => inferInstanceAs (Decidable (c = ':' ∨ c = '/'))

variable {path pre rest : Path} {c : Char} {i n : Nat}

theorem charAt_append (h : i = pre.length) : charAt (pre ++ c :: rest) i = c := by
  subst h
  simp [charAt]

theorem charAt_length (h : path.length ≤ i) : charAt path i = '\x00' := by
  simp [charAt, List.getElem?_eq_none h]

/-- The scan passes over characters that are neither the end nor a separator. -/
theorem locateFirst_add (hnul : '\x00' ∉ pre) (hpre : ∀ c ∈ pre, ¬Separator c) (rest start : Path) :
    locateFirst (start ++ pre ++ rest) (pre.length + n) start.length =
      locateFirst (start ++ pre ++ rest) n (start ++ pre).length := by
  induction pre generalizing start with
  | nil => simp
  | cons c pre ih =>
    have hc : charAt (start ++ (c :: pre) ++ rest) start.length = c := by
      rw [List.append_assoc]
      exact charAt_append rfl
    have hend : c ≠ '\x00' := fun h => hnul (by simp [h])
    have hsep : ¬Separator c := hpre c List.mem_cons_self
    obtain ⟨hcolon, hslash⟩ := not_or.1 hsep
    have hmove : start ++ (c :: pre) ++ rest = (start ++ [c]) ++ pre ++ rest := by simp
    have hnext := ih (fun h => hnul (List.mem_cons_of_mem _ h))
      (fun d hd => hpre d (List.mem_cons_of_mem _ hd)) (start ++ [c])
    rw [List.length_cons, Nat.add_right_comm, locateFirst, hc, if_neg hend, if_neg hcolon,
      if_neg hslash, hmove]
    simpa using hnext

theorem locateFirst_none (hnul : '\x00' ∉ path) (hpath : ∀ c ∈ path, ¬Separator c) :
    locateFirst path path.length 0 = (-1, -1) := by
  simpa [locateFirst] using locateFirst_add (n := 0) hnul hpath [] []

theorem locateFirst_at (hnul : '\x00' ∉ pre) (hpre : ∀ c ∈ pre, ¬Separator c) (c : Char) :
    locateFirst (pre ++ c :: rest) (pre ++ c :: rest).length 0
      = locateFirst (pre ++ c :: rest) (rest.length + 1) pre.length := by
  have h := locateFirst_add (n := rest.length + 1) hnul hpre (c :: rest) []
  simp only [List.nil_append, List.length_nil] at h
  rw [List.length_append, List.length_cons, h]

theorem locateFirst_colon (hnul : '\x00' ∉ pre) (hpre : ∀ c ∈ pre, ¬Separator c) :
    locateFirst (pre ++ ':' :: rest) (pre ++ ':' :: rest).length 0 = (-1, (pre.length : Int)) := by
  rw [locateFirst_at hnul hpre, locateFirst, charAt_append rfl]
  simp

theorem locateFirst_slash (hnul : '\x00' ∉ pre) (hpre : ∀ c ∈ pre, ¬Separator c) :
    locateFirst (pre ++ '/' :: rest) (pre ++ '/' :: rest).length 0 = ((pre.length : Int), -1) := by
  rw [locateFirst_at hnul hpre, locateFirst, charAt_append rfl]
  simp

theorem drop_skipFrom (hn : path.length ≤ i + 1 + n) :
    path.drop (skipFrom path n i + 1) = skipSlashes (path.drop (i + 1)) := by
  induction n generalizing i with
  | zero => simp [skipFrom, skipSlashes, List.drop_eq_nil_of_le (show path.length ≤ i + 1 by omega)]
  | succ n ih =>
    unfold skipFrom
    by_cases hend : path.length ≤ i + 1
    · rw [if_neg (by rw [charAt_length hend]; decide), List.drop_eq_nil_of_le hend]
      rfl
    have hlt : i + 1 < path.length := by omega
    have hc : charAt path (i + 1) = path[i + 1] := by simp [charAt, hlt]
    rw [hc, List.drop_eq_getElem_cons hlt, skipSlashes, List.dropWhile_cons]
    by_cases hslash : path[i + 1] = '/'
    · rw [if_pos hslash, ih (by omega)]
      simp [hslash, skipSlashes]
    · simp [hslash]

theorem stringAt_eq_drop (hnul : '\x00' ∉ path.drop i) : stringAt path i = path.drop i := by
  refine List.takeWhile_eq_self_iff.2 fun c hc => ?_
  have : c ≠ '\x00' := fun h => hnul (h ▸ hc)
  simpa using this

theorem stringAt_skipFrom (hn : path.length ≤ i + 1 + n) (hnul : '\x00' ∉ path.drop (i + 1)) :
    stringAt path (skipFrom path n i + 1) = skipSlashes (path.drop (i + 1)) := by
  rw [stringAt, drop_skipFrom hn, List.takeWhile_eq_self_iff]
  intro c hc
  have hmem : c ∈ path.drop (i + 1) := List.dropWhile_subset _ hc
  have : c ≠ '\x00' := fun h => hnul (h ▸ hmem)
  simpa using this

/-- Writing a NUL over the colon leaves the name of the device as a string, -/
theorem stringAt_cut (hnul : '\x00' ∉ pre) : stringAt (pre ++ '\x00' :: rest) 0 = pre := by
  rw [stringAt, List.drop_zero, List.takeWhile_append_of_pos]
  · simp
  intro d hd
  have : d ≠ '\x00' := fun h => hnul (h ▸ hd)
  simpa using this

/-- and what is after the colon and the slashes as another. -/
theorem stringAt_after_cut (pre : Path) (c : Char) (hnul : '\x00' ∉ rest) :
    stringAt (pre ++ c :: rest)
      (skipFrom (pre ++ c :: rest) (pre ++ c :: rest).length pre.length + 1) =
      skipSlashes rest := by
  have hdrop : (pre ++ c :: rest).drop (pre.length + 1) = rest := by simp
  rw [stringAt_skipFrom (by omega) (hdrop.symm ▸ hnul), hdrop]

/-- Where a path starts. -/
inductive PathStart where
  | here
  | device (devname : Path)
  | bootfs
  | currentfs
  deriving DecidableEq, Repr

/-- The starting point and the subpath that a pathname documents, by its first separator. -/
inductive Documented : Path → PathStart → Path → Prop
  | bare {path : Path} (h : ∀ c ∈ path, ¬Separator c) : Documented path .here path
  | relative {first rest : Path} (h : ∀ c ∈ first, ¬Separator c) (hne : first ≠ []) :
      Documented (first ++ '/' :: rest) .here (first ++ '/' :: rest)
  | device {devname rest : Path} (h : ∀ c ∈ devname, ¬Separator c) (hne : devname ≠ []) :
      Documented (devname ++ ':' :: rest) (.device devname) (skipSlashes rest)
  | bootfs {rest : Path} : Documented ('/' :: rest) .bootfs (skipSlashes rest)
  | currentfs {rest : Path} : Documented (':' :: rest) .currentfs (skipSlashes rest)

theorem documented_exists (path : Path) : ∃ start subpath, Documented path start subpath := by
  have hsplit := List.takeWhile_append_dropWhile (p := fun c => decide ¬Separator c) (l := path)
  set first := path.takeWhile fun c => decide ¬Separator c with hfirst
  have hclean : ∀ c ∈ first, ¬Separator c := fun c hc => by
    simpa using List.mem_takeWhile_imp hc
  cases hrest : path.dropWhile fun c => decide ¬Separator c with
  | nil =>
    rw [hrest, List.append_nil] at hsplit
    exact ⟨_, _, .bare (hsplit ▸ hclean)⟩
  | cons c rest =>
    have hsep : Separator c := by
      have h := List.head?_dropWhile_not (fun c => decide ¬Separator c) path
      rw [hrest] at h
      simpa using h
    rw [hrest] at hsplit
    by_cases hempty : first = []
    · rw [← hsplit, hempty]
      obtain rfl | rfl := hsep
      · exact ⟨_, _, .currentfs⟩
      · exact ⟨_, _, .bootfs⟩
    · rw [← hsplit]
      obtain rfl | rfl := hsep
      · exact ⟨_, _, .device hclean hempty⟩
      · exact ⟨_, _, .relative hclean hempty⟩

section spec
variable {F : Type} {ops : VnodeOps F} {start : PathStart} {subpath : Path}

/-- The vnode of a starting point, with a reference to it. -/
def PathStart.vnode (ops : VnodeOps F) : PathStart → VfsCall F Vnode
  | .here => vfsGetcurdir
  | .device devname => vfsGetrootRef ops devname
  | .bootfs => bootRoot
  | .currentfs => currentRoot ops

theorem getdeviceString_eq {slash colon : Int}
    (hloc : locateFirst path path.length 0 = (slash, colon)) :
    getdeviceString ops path = (do
      let found ← startFrom ops path slash colon
      pure (stringAt found.1.1 found.1.2, found.2)) := by
  rw [getdeviceString, getdeviceAt, hloc]

theorem startFrom_here {slash colon : Int} (hcolon : colon < 0) (hslash : slash ≠ 0) :
    startFrom ops path slash colon = (do
      let startvn ← vfsGetcurdir
      pure ((path, 0), startvn)) := if_pos ⟨hcolon, hslash⟩

theorem startFrom_device (hne : pre ≠ []) :
    startFrom ops (pre ++ ':' :: rest) (-1) (pre.length : Int) = (do
      let cut := pre ++ '\x00' :: rest
      let startvn ← vfsGetrootRef ops (stringAt cut 0)
      pure ((cut, skipFrom cut cut.length pre.length + 1), startvn)) := by
  have hpos : 0 < pre.length := List.length_pos_iff.2 hne
  have hset : (pre ++ ':' :: rest).set pre.length '\x00' = pre ++ '\x00' :: rest := by simp
  rw [startFrom, if_neg (by omega), if_pos (by omega), Int.toNat_natCast, hset]

theorem startFrom_bootfs :
    startFrom ops ('/' :: rest) 0 (-1) = (do
      let startvn ← bootRoot
      pure (('/' :: rest, skipFrom ('/' :: rest) (rest.length + 1) 0 + 1), startvn)) := rfl

theorem startFrom_currentfs :
    startFrom ops (':' :: rest) (-1) 0 = (do
      let startvn ← currentRoot ops
      pure ((':' :: rest, skipFrom (':' :: rest) (rest.length + 1) 0 + 1), startvn)) := rfl

theorem getdeviceString_of_documented (hnul : '\x00' ∉ path) (h : Documented path start subpath) :
    getdeviceString ops path = (do
      let startvn ← start.vnode ops
      pure (subpath, startvn)) := by
  have hwhole : stringAt path 0 = path := stringAt_eq_drop (i := 0) hnul
  cases h with
  | bare h =>
    rw [getdeviceString_eq (locateFirst_none hnul h), startFrom_here (by decide) (by decide)]
    simp only [PathStart.vnode, Call.bind_assoc, Call.pure_bind, hwhole]
  | @relative first rest h hne =>
    have hfirst : '\x00' ∉ first := fun hc => hnul (List.mem_append_left _ hc)
    have hpos : (first.length : Int) ≠ 0 := by simpa using hne
    rw [getdeviceString_eq (locateFirst_slash hfirst h), startFrom_here (by decide) hpos]
    simp only [PathStart.vnode, Call.bind_assoc, Call.pure_bind, hwhole]
  | @device devname rest h hne =>
    have hdev : '\x00' ∉ devname := fun hc => hnul (List.mem_append_left _ hc)
    have hrest : '\x00' ∉ rest := fun hc =>
      hnul (List.mem_append_right _ (List.mem_cons_of_mem _ hc))
    rw [getdeviceString_eq (locateFirst_colon hdev h), startFrom_device hne]
    simp only [PathStart.vnode, Call.bind_assoc, Call.pure_bind, stringAt_cut hdev,
      stringAt_after_cut _ _ hrest]
  | @bootfs rest =>
    have hrest : '\x00' ∉ rest := fun hc => hnul (List.mem_cons_of_mem _ hc)
    have hsub := stringAt_after_cut [] '/' hrest
    rw [getdeviceString_eq (show locateFirst ('/' :: rest) _ 0 = (0, -1) from rfl),
      startFrom_bootfs]
    simp only [PathStart.vnode, Call.bind_assoc, Call.pure_bind]
    exact congrArg (fun p => bootRoot >>= fun v => pure (p, v)) hsub
  | @currentfs rest =>
    have hrest : '\x00' ∉ rest := fun hc => hnul (List.mem_cons_of_mem _ hc)
    have hsub := stringAt_after_cut [] ':' hrest
    rw [getdeviceString_eq (show locateFirst (':' :: rest) _ 0 = (-1, 0) from rfl),
      startFrom_currentfs]
    simp only [PathStart.vnode, Call.bind_assoc, Call.pure_bind]
    exact congrArg (fun p => currentRoot ops >>= fun v => pure (p, v)) hsub

theorem findIdx_separator (hpre : ∀ c ∈ pre, ¬Separator c) (hc : Separator c) :
    (pre ++ c :: rest).findIdx? (fun c => c = ':' ∨ c = '/') = some pre.length := by
  have hnone : pre.findIdx? (fun c => c = ':' ∨ c = '/') = none := by
    simpa [List.findIdx?_eq_none_iff, Separator] using hpre
  have hhead : decide (c = ':' ∨ c = '/') = true := decide_eq_true hc
  rw [List.findIdx?_append, hnone, List.findIdx?_cons, hhead]
  simp

theorem getdevice_of_documented (h : Documented path start subpath) :
    getdevice ops path = (do
      let startvn ← start.vnode ops
      pure (subpath, startvn)) := by
  cases h with
  | bare h =>
    have hnone : path.findIdx? (fun c => c = ':' ∨ c = '/') = none := by
      simpa [List.findIdx?_eq_none_iff, Separator] using h
    rw [getdevice, hnone]
    rfl
  | @relative first rest h hne =>
    rw [getdevice, findIdx_separator h (.inr rfl)]
    simp [hne]
    rfl
  | @device devname rest h hne =>
    rw [getdevice, findIdx_separator h (.inl rfl)]
    simp [List.length_pos_iff.2 hne, PathStart.vnode]
  | bootfs | currentfs => rfl

theorem getdevice_eq_getdeviceString (hnul : '\x00' ∉ path) :
    getdevice ops path = getdeviceString ops path := by
  obtain ⟨start, subpath, h⟩ := documented_exists path
  rw [getdevice_of_documented h, getdeviceString_of_documented hnul h]

/-- What the start of a path is in a state: the vnode, or the error if there is none. -/
def PathStart.Names (ops : VnodeOps F) (s : VfsState F) (r : Except Errno Vnode) : PathStart → Prop
  | .here => r = s.cwd.elim (.error .enoent) .ok
  | .bootfs => r = s.bootfs.elim (.error .enoent) .ok
  | .device devname =>
    (∃ e, vfsGetroot s.devs (String.ofList devname) = .ok (.error e) ∧ r = .error e) ∨
    (∃ v, vfsGetroot s.devs (String.ofList devname) = .ok (.ok (.device v)) ∧ r = .ok v) ∨
    ∃ fs t, vfsGetroot s.devs (String.ofList devname) = .ok (.ok (.fs fs)) ∧
      ops.fsopGetroot fs s = .ok (r, t)
  | .currentfs =>
    (s.cwd = none ∧ r = .error .enoent) ∨
    -- the current directory has a second reference while its file system is asked
    ∃ v fs t, s.cwd = some v ∧ s.fsOf v = some fs ∧ ops.fsopGetroot fs
      { s with refcount := Function.update s.refcount v (s.refcount v + 1) } = .ok (r, t)

variable {s : VfsState F}

theorem PathStart.vnode_spec (hops : ops.Contract) (hs : Sound s) (start : PathStart) :
    HandsBack (start.vnode ops) id s := by
  cases start with
  | here => exact vfsGetcurdir_spec
  | device devname => exact vfsGetrootRef_spec hops hs devname
  | bootfs => exact bootRoot_spec
  | currentfs => exact currentRoot_spec hops hs

theorem PathStart.vnode_names (hops : ops.Contract) (hs : Sound s) (start : PathStart) :
    Call.wp (start.vnode ops)
      (fun r t => t.unreclaimed = s.unreclaimed ∧ start.Names ops s r) s := by
  cases start with
  | here =>
    simp only [vnode, vfsGetcurdir, ensures_bind, ensures_get, after_ok, Names]
    cases s.cwd <;> exact ⟨rfl, rfl⟩
  | bootfs =>
    simp only [vnode, bootRoot, ensures_bind, ensures_get, after_ok, Names]
    cases s.bootfs <;> exact ⟨rfl, rfl⟩
  | device devname =>
    obtain ⟨r, hr, -⟩ := vfsGetroot_ok hs.backed (String.ofList devname)
    simp only [vnode, vfsGetrootRef, ensures_bind, ensures_get, after_ok, Names, hr]
    cases r with
    | error e => exact ⟨rfl, .inl ⟨e, rfl, rfl⟩⟩
    | ok root =>
      cases root with
      | device v => exact ⟨rfl, .inr (.inl ⟨v, rfl, rfl⟩)⟩
      | fs fs =>
        obtain ⟨_, t, hrun, href, v, rfl⟩ := Call.wp_iff.mp (hops.fsopGetroot fs s)
        exact Call.ensures_of_run hrun ⟨href.1.unreclaimed, .inr (.inr ⟨fs, t, rfl, hrun⟩)⟩
  | currentfs =>
    simp only [vnode, currentRoot, vfsGetcurdir, ensures_bind, ensures_get, after_ok, Names]
    cases hcwd : s.cwd with
    | none => exact ⟨rfl, .inl ⟨rfl, rfl⟩⟩
    | some v =>
      obtain ⟨fs, hfs⟩ := Option.ne_none_iff_exists'.mp (hs.cwd v hcwd)
      obtain ⟨_, t, hrun, href, root, rfl⟩ := Call.wp_iff.mp (hops.fsopGetroot fs
        { s with refcount := Function.update s.refcount v (s.refcount v + 1) })
      have hmore : 1 < t.refcount v := by
        have hpos := hs.cwd_pos hcwd
        rw [href.2, Function.update_apply]
        split
        · rename_i hroot
          simp only [← hroot, Function.update_self]
          omega
        · simp only [Function.update_self]
          omega
      simp only [vnodeIncref, ensures_bind, Call.ensures_modify, after_ok, ensures_pure,
        ensures_get, hfs, thenDecref, ensures_attempt]
      refine Call.ensures_of_run hrun ?_
      simp only [after_ok, vnodeDecref, ensures_bind, ensures_get, Call.ensures_require,
        ensures_ite, Call.ensures_modify, Call.ensures_result]
      refine ⟨fun _ => ⟨fun _ => ?_, fun h => (h hmore).elim⟩, fun h => h (by omega)⟩
      exact ⟨href.1.unreclaimed, .inr ⟨v, fs, t, rfl, hfs, hcwd ▸ hrun⟩⟩

/-- Every path starts where its first colon or slash says, with the subpath that is left after it,
and on success the one reference that is held is to the vnode it starts from. -/
theorem path_prefix_documented (path : Path) (hops : ops.Contract) (hnul : '\x00' ∉ path) :
    getdevice ops path = getdeviceString ops path ∧
    (∃ start subpath, Documented path start subpath) ∧
    ∀ start subpath, Documented path start subpath → ∀ s, Sound s →
      Call.wp (getdeviceString ops path) (fun r t =>
        (∃ v, start.Names ops s v ∧ r = v.map fun v => (subpath, v)) ∧
          Change s t (handed Prod.snd r) (fun _ => 0) ∧ t.unreclaimed = s.unreclaimed) s := by
  refine ⟨getdevice_eq_getdeviceString hnul, documented_exists path, fun start subpath h s hs => ?_⟩
  rw [getdeviceString_of_documented hnul h, Call.wp, ensures_bind]
  refine (Call.Ensures.and (start.vnode_spec hops hs) (start.vnode_names hops hs)).mono ?_
  rintro (e | v) t ⟨hchange, hsame, hnames⟩
  · exact ⟨⟨_, hnames, rfl⟩, hchange, hsame⟩
  · exact ⟨⟨_, hnames, rfl⟩, hchange, hsame⟩

end spec

/-- The current directory is the root: `://a` is `a` in it. -/
theorem path_prefix_documented_colon :
    Call.wp (getdeviceString rootOps [':', '/', '/', 'a']) (fun r t => r = .ok (['a'], 0) ∧
      Change atRoot t (one 0) (fun _ => 0) ∧ t.unreclaimed = atRoot.unreclaimed) atRoot := by
  have h := path_prefix_documented [':', '/', '/', 'a'] rootOps_contract (by decide)
  refine (h.2.2 .currentfs ['a'] .currentfs atRoot atRoot_sound).mono ?_
  rintro _ t ⟨⟨_, ⟨hno, -⟩ | ⟨v, fs, u, -, -, hroot⟩, rfl⟩, hchange, hsame⟩
  · cases hno
  · cases hroot
    exact ⟨rfl, hchange, hsame⟩

end OS161
