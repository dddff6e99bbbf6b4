import OS161.Base
import OS161.Lib.Call
import OS161.Lib.Run

/-! `vfslist.c`: the table of known devices. -/
namespace OS161

open Call (ensures_bind after_ok ensures_get ensures_pure after_error failIf require wlp)

/-- A `struct fs` and what its `fs_getvolname` returns, which does not change. -/
structure Fs where
  id : Nat
  volname : Option String
  deriving DecidableEq, Repr

/-- A `struct vnode`, by its address. -/
abbrev Vnode := Nat

structure Knowndev where
  name : String
  rawname : Option String
  device : Option Nat
  vnode : Vnode
  fs : Option Fs
  deriving DecidableEq, Repr

/-- What `vfs_getroot` gives a reference to: the root of a file system or the vnode of a device. -/
inductive Root where
  | fs (fs : Fs)
  | device (vnode : Vnode)
  deriving DecidableEq, Repr

/-- The body of the loop of `vfs_getroot`; `none` where it goes on to the next device. -/
def Knowndev.answer (kd : Knowndev) (devname : String) :
    Except Crash (Option (Except Errno Root)) :=
  match kd.fs with
  | some fs =>
    if kd.name = devname ∨ fs.volname = some devname then .ok (some (.ok (.fs fs)))
    else byRawname
  | none =>
    if kd.rawname ≠ none ∧ kd.name = devname then .ok (some (.error .enxio))
    else if kd.name = devname then
      if kd.rawname = none ∧ kd.device ≠ none then .ok (some (.ok (.device kd.vnode)))
      else .error .assertion
    else byRawname
where
  byRawname : Except Crash (Option (Except Errno Root)) :=
    if kd.rawname = some devname then
      if kd.device ≠ none then .ok (some (.ok (.device kd.vnode))) else .error .assertion
    else .ok none

def vfsGetroot : List Knowndev → String → Except Crash (Except Errno Root)
  | [], _ => .ok (.error .enodev)
  | kd :: devs, devname => do
    match ← kd.answer devname with
    | some r => .ok r
    | none => vfsGetroot devs devname

def mkrawname (name : String) : String := name ++ "raw"

def samestring (a b : Option String) : Bool :=
  match a, b with
  | some a, some b => a = b
  | _, _ => false

def samestring3 (a b c d : Option String) : Bool :=
  samestring a b || samestring a c || samestring a d

def badnames (devs : List Knowndev) (n1 n2 n3 : Option String) : Bool :=
  devs.any fun kd =>
    (match kd.fs with
      | some fs => samestring3 fs.volname n1 n2 n3
      | none => false) ||
    samestring3 kd.rawname n1 n2 n3 || samestring3 (some kd.name) n1 n2 n3

/-- A call on the table of devices. -/
abbrev DevCall := Call Crash (List Knowndev) Errno

/-- `kmalloc` for the call is told which of its requests there is memory for, in order: the name,
the raw name, the vnode and its lock, the entry, the place in the table. -/
def vfsDoadd (dname : String) (mountable : Bool) (dev : Option Nat) (fs : Option Fs)
    (vnode : Vnode) (mem : Fin 6 → Bool) : DevCall Unit := do
  failIf .enomem (mem 0 = false)
  failIf .enomem (mountable = true ∧ mem 1 = false)
  -- dev_create_vnode
  failIf .enomem (mem 2 = false)
  require .panic (mem 3 = true)
  failIf .enomem (mem 4 = false)
  let rawname := if mountable then some (mkrawname dname) else none
  let kd : Knowndev := ⟨dname, rawname, dev, vnode, fs⟩
  let devs ← Call.get
  failIf .eexist (badnames devs (some dname) rawname (fs.bind Fs.volname) = true)
  failIf .enomem (mem 5 = false)
  Call.modify (· ++ [kd])

def vfsAdddev (devname : String) (dev : Nat) (mountable : Bool) (vnode : Vnode)
    (mem : Fin 6 → Bool) : DevCall Unit :=
  vfsDoadd devname mountable (some dev) none vnode mem

def vfsAddfs (devname : String) (fs : Fs) (vnode : Vnode) (mem : Fin 6 → Bool) : DevCall Unit :=
  vfsDoadd devname false none (some fs) vnode mem

/-- The index of the mountable device with the name. -/
def findmount (devname : String) : DevCall Nat := do
  let devs ← Call.get
  match devs.findIdx? fun kd => kd.rawname ≠ none ∧ kd.name = devname with
  | some i => pure i
  | none => Call.fail .enodev

def setFs (i : Nat) (fs : Option Fs) (devs : List Knowndev) : List Knowndev :=
  devs.modify i fun kd => { kd with fs := fs }

def knowndev (i : Nat) : DevCall Knowndev := do
  let devs ← Call.get
  match devs[i]? with
  | some kd => pure kd
  | none => Call.crash .outOfBounds

/-- `mounted` is what `mountfunc` returns. -/
def vfsMount (devname : String) (mounted : Except Errno Fs) : DevCall Unit := do
  let i ← findmount devname
  let kd ← knowndev i
  failIf .ebusy (kd.fs ≠ none)
  require .assertion (kd.rawname ≠ none ∧ kd.device ≠ none)
  let fs ← Call.result mounted
  Call.modify (setFs i (some fs))

/-- `sync` and `unmounted` are what FSOP_SYNC and FSOP_UNMOUNT return. -/
def vfsUnmount (devname : String) (sync unmounted : Except Errno Unit) : DevCall Unit := do
  let i ← findmount devname
  let kd ← knowndev i
  failIf .einval (kd.fs = none)
  require .assertion (kd.rawname ≠ none ∧ kd.device ≠ none)
  Call.result sync
  Call.result unmounted
  Call.modify (setFs i none)

inductive DevEvent where
  | adddev (devname : String) (dev : Nat) (mountable : Bool) (vnode : Vnode) (mem : Fin 6 → Bool)
  | addfs (devname : String) (fs : Fs) (vnode : Vnode) (mem : Fin 6 → Bool)
  | mount (devname : String) (mounted : Except Errno Fs)
  | unmount (devname : String) (sync unmounted : Except Errno Unit)

def DevEvent.run : DevEvent → DevCall Unit
  | .adddev devname dev mountable vnode mem => vfsAdddev devname dev mountable vnode mem
  | .addfs devname fs vnode mem => vfsAddfs devname fs vnode mem
  | .mount devname mounted => vfsMount devname mounted
  | .unmount devname sync unmounted => vfsUnmount devname sync unmounted

/-- The call returns, with success or with an error. -/
def DevStep (devs : List Knowndev) (e : DevEvent) (devs' : List Knowndev) : Prop :=
  ∃ r, e.run devs = .ok (r, devs')

/-- The names by which the device can be reached. -/
def Knowndev.names (kd : Knowndev) : List String :=
  kd.name :: (kd.rawname.toList ++ (kd.fs.bind Fs.volname).toList)

/-- Two devices have no name in common. -/
def Apart (a b : Knowndev) : Prop := ∀ n ∈ a.names, n ∉ b.names

theorem Apart.symm {a b : Knowndev} (h : Apart a b) : Apart b a := fun n hb ha => h n ha hb

section names
variable {devs devs' : List Knowndev} {kd : Knowndev} {n : String} {i : Nat}

theorem answer_of_notMem (h : n ∉ kd.names) : kd.answer n = .ok none := by
  simp only [Knowndev.names, List.mem_cons, List.mem_append, Option.mem_toList, not_or] at h
  obtain ⟨hname, hraw, hvol⟩ := h
  unfold Knowndev.answer Knowndev.answer.byRawname
  cases hfs : kd.fs with
  | none => simp [Ne.symm hname, hraw]
  | some fs =>
    have hvol : fs.volname ≠ some n := fun heq => hvol (by rw [hfs]; exact heq)
    simp [Ne.symm hname, hraw, hvol]

theorem vfsGetroot_cons (h : kd.answer n = .ok none) :
    vfsGetroot (kd :: devs) n = vfsGetroot devs n := by
  rw [vfsGetroot, h]
  rfl

theorem vfsGetroot_cons_cons {kd' : Knowndev} (h : kd.answer n = .ok none) :
    vfsGetroot (kd' :: kd :: devs) n = vfsGetroot (kd' :: devs) n := by
  rw [vfsGetroot, vfsGetroot_cons h, ← vfsGetroot]

/-- Where names are distinct the order of the table does not matter. -/
theorem vfsGetroot_perm (h : devs.Perm devs') (hd : devs.Pairwise Apart) (n : String) :
    vfsGetroot devs n = vfsGetroot devs' n := by
  induction h with
  | nil => rfl
  | cons kd _ ih =>
    rw [vfsGetroot, vfsGetroot]
    simp only [ih (List.pairwise_cons.mp hd).2]
  | swap a b l =>
    have hab : Apart b a := (List.pairwise_cons.mp hd).1 a (by simp)
    by_cases ha : n ∈ b.names
    · have hskip := answer_of_notMem (hab n ha)
      rw [vfsGetroot_cons hskip, vfsGetroot_cons_cons hskip]
    · have hskip := answer_of_notMem ha
      rw [vfsGetroot_cons hskip, vfsGetroot_cons_cons hskip]
  | trans h₁ _ ih₁ ih₂ =>
    exact (ih₁ hd).trans (ih₂ ((h₁.pairwise_iff Apart.symm).mp hd))

theorem samestring_iff {a b : Option String} :
    samestring a b = true ↔ ∃ n, n ∈ a.toList ∧ n ∈ b.toList := by
  cases a <;> cases b <;> simp [samestring]

/-- The check of `vfs_doadd` compares every name of the new device with every name there is. -/
theorem badnames_eq_false
    (h : badnames devs (some kd.name) kd.rawname (kd.fs.bind Fs.volname) = false)
    {other : Knowndev} (hmem : other ∈ devs) : Apart other kd := by
  intro n ho hk
  have hnew : ∀ a, n ∈ a.toList →
      samestring3 a (some kd.name) kd.rawname (kd.fs.bind Fs.volname) = true := by
    intro a ha
    simp only [Knowndev.names, List.mem_cons, List.mem_append] at hk
    simp only [samestring3, Bool.or_eq_true, samestring_iff]
    rcases hk with rfl | hk | hk
    · exact .inl (.inl ⟨_, ha, by simp⟩)
    · exact .inl (.inr ⟨n, ha, hk⟩)
    · exact .inr ⟨n, ha, hk⟩
  have hno := List.any_eq_false.mp h other hmem
  simp only [Bool.or_eq_true, not_or] at hno
  simp only [Knowndev.names, List.mem_cons, List.mem_append] at ho
  rcases ho with rfl | ho | ho
  · exact hno.2 (hnew _ (by simp))
  · exact hno.1.2 (hnew _ ho)
  cases hfs : other.fs with
  | none => simp [hfs] at ho
  | some fs =>
    rw [hfs] at ho hno
    exact hno.1.1 (hnew _ ho)

/-- Names lead to one device. -/
def Distinct (devs : List Knowndev) : Prop :=
  ∀ (i j : Nat) (a b : Knowndev), i ≠ j → devs[i]? = some a → devs[j]? = some b → Apart a b

theorem Distinct.pairwise (h : Distinct devs) : devs.Pairwise Apart := by
  rw [List.pairwise_iff_getElem]
  intro i j hi hj hij
  exact h i j _ _ (Nat.ne_of_lt hij) (List.getElem?_eq_getElem hi) (List.getElem?_eq_getElem hj)

theorem Distinct.add (h : Distinct devs)
    (hbad : badnames devs (some kd.name) kd.rawname (kd.fs.bind Fs.volname) = false) :
    Distinct (devs ++ [kd]) := by
  have hlast : ∀ j a, (devs ++ [kd])[j]? = some a →
      devs[j]? = some a ∨ j = devs.length ∧ a = kd := by
    intro j a hj
    rw [List.getElem?_append] at hj
    split at hj
    · exact .inl hj
    obtain ⟨hlt, ha⟩ := List.getElem?_eq_some_iff.mp hj
    simp only [List.length_singleton] at hlt
    simp only [List.getElem_singleton] at ha
    exact .inr ⟨by omega, ha.symm⟩
  intro j k a b hjk hj hk
  rcases hlast j a hj with hja | ⟨hja, rfl⟩ <;> rcases hlast k b hk with hkb | ⟨hkb, rfl⟩
  · exact h j k a b hjk hja hkb
  · exact badnames_eq_false hbad (List.mem_of_getElem? hja)
  · exact (badnames_eq_false hbad (List.mem_of_getElem? hkb)).symm
  · exact absurd (hja.trans hkb.symm) hjk

/-- The volume name of `fs` is no name of a device other than number `i`. -/
def FreshVolname (devs : List Knowndev) (i : Nat) (fs : Option Fs) : Prop :=
  ∀ (v : String) (j : Nat) (other : Knowndev), fs.bind Fs.volname = some v →
    devs[j]? = some other → j ≠ i → v ∉ other.names

theorem mem_names_setFs {fs : Option Fs} (h : n ∈ ({ kd with fs := fs } : Knowndev).names) :
    n ∈ kd.names ∨ fs.bind Fs.volname = some n := by
  simp only [Knowndev.names, List.mem_cons, List.mem_append, Option.mem_toList] at h ⊢
  rcases h with h | h | h
  · exact .inl (.inl h)
  · exact .inl (.inr (.inl h))
  · exact .inr h

theorem Distinct.setFs {fs : Option Fs} (hd : Distinct devs) (hfresh : FreshVolname devs i fs) :
    Distinct (setFs i fs devs) := by
  have hold : ∀ j a, (OS161.setFs i fs devs)[j]? = some a →
      ∃ a', devs[j]? = some a' ∧ (a = a' ∨ i = j ∧ a = { a' with fs := fs }) := by
    intro j a hj
    rw [OS161.setFs, List.getElem?_modify] at hj
    obtain ⟨a', ha', heq⟩ := Option.map_eq_some_iff.mp hj
    refine ⟨a', ha', ?_⟩
    split at heq
    · rename_i hij
      exact .inr ⟨hij, heq.symm⟩
    · exact .inl heq.symm
  intro j k a b hjk hj hk n ha hb
  obtain ⟨a', ha', hja⟩ := hold j a hj
  obtain ⟨b', hb', hkb⟩ := hold k b hk
  have hapart := hd j k a' b' hjk ha' hb' n
  rcases hja with rfl | ⟨rfl, rfl⟩ <;> rcases hkb with rfl | ⟨rfl, rfl⟩
  · exact hapart ha hb
  · rcases mem_names_setFs hb with hb | hb
    · exact hapart ha hb
    · exact hfresh n j a hb ha' hjk ha
  · rcases mem_names_setFs ha with ha | ha
    · exact hapart ha hb
    · exact hfresh n k b ha hb' hjk.symm hb
  · exact hjk rfl

end names

/-- A device without a `struct device` is a file system and not mountable. -/
def Knowndev.Backed (kd : Knowndev) : Prop := kd.device = none → kd.rawname = none ∧ kd.fs ≠ none

section runs
variable {devs devs' : List Knowndev} {e : DevEvent}

/-- What a call that returns has done to the table. -/
inductive DevMove (devs : List Knowndev) : DevEvent → List Knowndev → Prop where
  | same {e : DevEvent} : DevMove devs e devs
  | add {e : DevEvent} {kd : Knowndev} :
      badnames devs (some kd.name) kd.rawname (kd.fs.bind Fs.volname) = false → kd.Backed →
      DevMove devs e (devs ++ [kd])
  | mount {devname : String} {fs : Fs} {i : Nat} {kd : Knowndev} :
      devs.findIdx? (fun kd => kd.rawname ≠ none ∧ kd.name = devname) = some i →
      devs[i]? = some kd → kd.fs = none → kd.device ≠ none →
      DevMove devs (.mount devname (.ok fs)) (setFs i (some fs) devs)
  | unmount {e : DevEvent} {i : Nat} {kd : Knowndev} : devs[i]? = some kd → kd.device ≠ none →
      DevMove devs e (setFs i none devs)

theorem vfsDoadd_move (dname : String) (mountable : Bool) (dev : Option Nat) (fs : Option Fs)
    (vnode : Vnode) (mem : Fin 6 → Bool) (hbacked : dev = none → mountable = false ∧ fs ≠ none) :
    wlp (vfsDoadd dname mountable dev fs vnode mem) (fun _ t => DevMove devs e t) devs := by
  simp only [vfsDoadd, ensures_bind, Call.ensures_failIf, Call.ensures_require,
    ensures_get, Call.ensures_modify, after_ok, after_error]
  refine ⟨fun _ => .same, fun _ => ⟨fun _ => .same, fun _ => ⟨fun _ => .same, fun _ =>
    ⟨fun _ => ⟨fun _ => .same, fun _ => ⟨fun _ => .same, fun hbad =>
      ⟨fun _ => .same, fun _ => ?_⟩⟩⟩,
      fun _ => trivial⟩⟩⟩⟩
  refine .add (by simpa using hbad) fun hdev => ⟨?_, (hbacked hdev).2⟩
  rw [(hbacked hdev).1]
  rfl

theorem findmount_spec {devname : String} {k : Nat → Knowndev → DevCall Unit}
    {Q : Except Errno Unit → List Knowndev → Prop} (hnone : Q (.error .enodev) devs)
    (h : ∀ i kd, devs.findIdx? (fun kd => kd.rawname ≠ none ∧ kd.name = devname) = some i →
      devs[i]? = some kd → wlp (k i kd) Q devs) :
    wlp (findmount devname >>= fun i => knowndev i >>= k i) Q devs := by
  simp only [findmount, knowndev, wlp, ensures_bind, ensures_get, after_ok]
  cases hfind : devs.findIdx? fun kd => kd.rawname ≠ none ∧ kd.name = devname with
  | none => exact hnone
  | some i =>
    simp only [ensures_pure, after_ok, ensures_bind, ensures_get]
    cases hkd : devs[i]? with
    | none => trivial
    | some kd => exact h i kd hfind hkd

theorem vfsMount_move (devname : String) (mounted : Except Errno Fs) :
    wlp (vfsMount devname mounted) (fun _ t => DevMove devs (.mount devname mounted) t) devs := by
  refine findmount_spec .same fun i kd hfind hkd => ?_
  simp only [Call.ensures_failIf, Call.ensures_require, ensures_bind, after_ok, after_error, ne_eq,
    not_not]
  refine ⟨fun _ => .same, fun hfs => ⟨fun hdev => ?_, fun _ => trivial⟩⟩
  cases mounted with
  | error e => exact .same
  | ok fs => exact .mount hfind hkd hfs hdev.2

theorem vfsUnmount_move (devname : String) (sync unmounted : Except Errno Unit) :
    wlp (vfsUnmount devname sync unmounted) (fun _ t => DevMove devs e t) devs := by
  refine findmount_spec .same fun i kd _ hkd => ?_
  simp only [Call.ensures_failIf, Call.ensures_require, ensures_bind, after_ok, after_error]
  refine ⟨fun _ => .same, fun hfs => ⟨fun hdev => ?_, fun _ => trivial⟩⟩
  cases sync with
  | error e => exact .same
  | ok _ =>
    cases unmounted with
    | error e => exact .same
    | ok _ => exact .unmount hkd hdev.2

theorem DevStep.move (h : DevStep devs e devs') : DevMove devs e devs' := by
  obtain ⟨r, hr⟩ := h
  cases e with
  | adddev devname dev mountable vnode mem =>
    exact (vfsDoadd_move devname mountable (some dev) none vnode mem (by simp)).of_eq hr
  | addfs devname fs vnode mem =>
    exact (vfsDoadd_move devname false none (some fs) vnode mem (by simp)).of_eq hr
  | mount devname mounted => exact (vfsMount_move devname mounted).of_eq hr
  | unmount devname sync unmounted => exact (vfsUnmount_move devname sync unmounted).of_eq hr

/-- If the call mounts a file system, its volume name is no name of another device. -/
def MountsFresh (devs : List Knowndev) (e : DevEvent) : Prop :=
  ∀ devname fs i, e = .mount devname (.ok fs) →
    devs.findIdx? (fun kd => kd.rawname ≠ none ∧ kd.name = devname) = some i →
    FreshVolname devs i (some fs)

theorem Distinct.step (hd : Distinct devs) (hstep : DevStep devs e devs')
    (hfresh : MountsFresh devs e) : Distinct devs' := by
  cases hstep.move with
  | same => exact hd
  | add hbad _ => exact hd.add hbad
  | mount hfind _ _ _ => exact hd.setFs (hfresh _ _ _ rfl hfind)
  | unmount _ _ => exact hd.setFs fun v j other hv => by cases hv

theorem backed_setFs {i : Nat} {kd : Knowndev} {fs : Option Fs} (h : ∀ kd ∈ devs, kd.Backed)
    (hkd : devs[i]? = some kd) (hdev : kd.device ≠ none) : ∀ kd ∈ setFs i fs devs, kd.Backed := by
  intro kd' hmem
  obtain ⟨j, hj⟩ := List.mem_iff_getElem?.mp hmem
  rw [setFs, List.getElem?_modify] at hj
  obtain ⟨a, ha, heq⟩ := Option.map_eq_some_iff.mp hj
  split at heq
  · rename_i hij
    subst hij heq
    rw [hkd] at ha
    cases ha
    exact fun hnone => absurd hnone hdev
  · subst heq
    exact h a (List.mem_of_getElem? ha)

/-- Every device of the table can be opened or is a file system, whatever was mounted. -/
theorem backed_run {es : List DevEvent} (h : Lts.Run DevStep [] es devs) :
    ∀ kd ∈ devs, kd.Backed := by
  refine h.invariant (fun devs => ∀ kd ∈ devs, kd.Backed) (fun devs e devs' hstep hd => ?_)
    fun kd hkd => absurd hkd List.not_mem_nil
  cases hstep.move with
  | same => exact hd
  | add _ hbacked =>
    intro kd hkd
    rcases List.mem_append.mp hkd with hkd | hkd
    · exact hd kd hkd
    · rw [List.mem_singleton.mp hkd]
      exact hbacked
  | mount _ hkd _ hdev | unmount hkd hdev => exact backed_setFs hd hkd hdev

/-- The assertions of `vfs_getroot` hold for such devices, and a device it hands back is known. -/
theorem answer_ok {kd : Knowndev} (h : kd.Backed) (n : String) :
    kd.answer n = .ok none ∨ ∃ r, kd.answer n = .ok (some r) ∧
      ∀ v, r = .ok (.device v) → v = kd.vnode := by
  have hdev : kd.rawname ≠ none ∨ kd.fs = none → kd.device ≠ none := by
    intro hr hnone
    obtain ⟨hraw, hfs⟩ := h hnone
    exact hr.elim (fun hr => hr hraw) hfs
  have hraw : Knowndev.answer.byRawname kd n = .ok none ∨
      ∃ r, Knowndev.answer.byRawname kd n = .ok (some r) ∧
        ∀ v, r = .ok (.device v) → v = kd.vnode := by
    unfold Knowndev.answer.byRawname
    split
    · rename_i hname
      rw [if_pos (hdev (.inl (by rw [hname]; simp)))]
      exact .inr ⟨_, rfl, by simp⟩
    · exact .inl rfl
  unfold Knowndev.answer
  cases hfs : kd.fs with
  | some fs =>
    simp only
    split
    · exact .inr ⟨_, rfl, by simp⟩
    · exact hraw
  | none =>
    simp only
    split
    · exact .inr ⟨_, rfl, by simp⟩
    rename_i hno
    split
    · rename_i hname
      rw [if_pos ⟨not_not.mp fun hr => hno ⟨hr, hname⟩, hdev (.inr hfs)⟩]
      exact .inr ⟨_, rfl, by simp⟩
    · exact hraw

theorem vfsGetroot_ok (h : ∀ kd ∈ devs, kd.Backed) (n : String) :
    ∃ r, vfsGetroot devs n = .ok r ∧ ∀ v, r = .ok (.device v) → ∃ kd ∈ devs, kd.vnode = v := by
  induction devs with
  | nil => exact ⟨_, rfl, by simp⟩
  | cons kd devs ih =>
    rcases answer_ok (h kd (by simp)) n with hnone | ⟨r, hr, hv⟩
    · obtain ⟨r, hr, hv⟩ := ih fun kd hkd => h kd (List.mem_cons_of_mem _ hkd)
      refine ⟨r, by rw [vfsGetroot_cons hnone, hr], fun v hd => ?_⟩
      obtain ⟨kd', hmem, hkd'⟩ := hv v hd
      exact ⟨kd', List.mem_cons_of_mem _ hmem, hkd'⟩
    · refine ⟨r, ?_, fun v hd => ⟨kd, by simp, (hv v hd).symm⟩⟩
      rw [vfsGetroot, hr]
      rfl

end runs

variable {es : List DevEvent} {devs : List Knowndev}

/-- In every run in which the volume names of the mounted file systems are fresh: no name leads to
two devices, and what `vfs_getroot` returns does not depend on the order of the table. -/
theorem names_unambiguous
    (h : Lts.Run (Lts.Restrict DevStep MountsFresh) [] es devs) :
    Distinct devs ∧
      ∀ devs', devs'.Perm devs → ∀ name, vfsGetroot devs' name = vfsGetroot devs name := by
  have hd : Distinct devs := h.invariant Distinct (fun _ _ _ hstep hd => hd.step hstep.1 hstep.2)
    fun i j a b _ hi => by simp at hi
  exact ⟨hd, fun devs' hperm name => (vfsGetroot_perm hperm.symm hd.pairwise name).symm⟩

/-- Two disks are found at boot, and volumes of these names are mounted on them. -/
def twoDisks (left right : String) : List DevEvent :=
  [.adddev "lhd0" 0 true 0 fun _ => true, .adddev "lhd1" 1 true 1 fun _ => true,
    .mount "lhd0" (.ok ⟨0, some left⟩), .mount "lhd1" (.ok ⟨1, some right⟩)]

def twoDisksMounted (left right : String) : List Knowndev :=
  [⟨"lhd0", some "lhd0raw", some 0, 0, some ⟨0, some left⟩⟩,
    ⟨"lhd1", some "lhd1raw", some 1, 1, some ⟨1, some right⟩⟩]

theorem names_unambiguous_twoDisks :
    Lts.Run (Lts.Restrict DevStep MountsFresh) [] (twoDisks "home" "data")
        (twoDisksMounted "home" "data") ∧
      vfsGetroot (twoDisksMounted "home" "data").reverse "data" =
        vfsGetroot (twoDisksMounted "home" "data") "data" := by
  have hrun : Lts.Run (Lts.Restrict DevStep MountsFresh) [] (twoDisks "home" "data")
      (twoDisksMounted "home" "data") := by
    refine .head ⟨⟨_, rfl⟩, ?_⟩ (.head ⟨⟨_, rfl⟩, ?_⟩ (.head ⟨⟨_, rfl⟩, ?_⟩
      (.head ⟨⟨_, rfl⟩, ?_⟩ .refl)))
    · rintro devname fs i ⟨⟩
    · rintro devname fs i ⟨⟩
    · rintro devname fs i ⟨⟩ hfind v j other hv hj hji
      obtain rfl : 0 = i := Option.some.inj hfind
      rcases j with _ | _ | j
      · exact absurd rfl hji
      · cases hj
        cases hv
        decide
      · cases hj
    · rintro devname fs i ⟨⟩ hfind v j other hv hj hji
      obtain rfl : 1 = i := Option.some.inj hfind
      rcases j with _ | _ | j
      · cases hj
        cases hv
        decide
      · exact absurd rfl hji
      · cases hj
  exact ⟨hrun, (names_unambiguous hrun).2 _ (List.reverse_perm _) _⟩

/-- In every run: `vfs_getroot` fails no assertion on any name, and a device it hands back is one of
the table. -/
theorem vfs_getroot_safe
    (h : Lts.Run DevStep [] es devs) (name : String) : ∃ r, vfsGetroot devs name = .ok r ∧
      ∀ v, r = .ok (.device v) → ∃ kd ∈ devs, kd.vnode = v :=
  vfsGetroot_ok (backed_run h) name

theorem vfs_getroot_safe_twoDisks : ∃ r, vfsGetroot (twoDisksMounted "a" "a") "a" = .ok r := by
  have hrun : Lts.Run DevStep [] (twoDisks "a" "a") (twoDisksMounted "a" "a") :=
    .head ⟨_, rfl⟩ (.head ⟨_, rfl⟩ (.head ⟨_, rfl⟩ (.head ⟨_, rfl⟩ .refl)))
  exact (vfs_getroot_safe hrun "a").imp fun _ h => h.1

/-- `vfs_mount` does not look at the volume name: two volumes of one name can be mounted, and the
name leads to the one whose disk was found first. -/
theorem same_volname_ambiguous :
    Lts.Run DevStep [] (twoDisks "data" "data") (twoDisksMounted "data" "data") ∧
      ¬ Distinct (twoDisksMounted "data" "data") ∧
      vfsGetroot (twoDisksMounted "data" "data") "data" = .ok (.ok (.fs ⟨0, some "data"⟩)) ∧
      vfsGetroot (twoDisksMounted "data" "data").reverse "data" =
        .ok (.ok (.fs ⟨1, some "data"⟩)) := by
  refine ⟨.head ⟨_, rfl⟩ (.head ⟨_, rfl⟩ (.head ⟨_, rfl⟩ (.head ⟨_, rfl⟩ .refl))), fun hd => ?_,
    rfl, rfl⟩
  exact hd 0 1 _ _ (by decide) rfl rfl "data" (by decide) (by decide)

end OS161
