import OS161.Sfs.Volume

/-! An operation on names that fails leaves names and link counts as they were. -/
namespace OS161.Sfs

open Call (ensures_bind after_ok ensures_get ensures_require ensures_pure ensures_attempt
  after_error ensures_fail Ensures)

variable {L L' : Set Nat} {s t r : Fs} {u v i ino slot : Nat} {name : Name} {heap : Heap}
  {C : SfsCrash → Prop}

-- What a call ensures is known by the lemmas about the functions only.
attribute [local irreducible] Ensures

/-- The state after `linkcount += k`. -/
def Fs.relinked (s : Fs) (v : Nat) (k : Int) : Fs :=
  s.setInode v (setLinkcount (s.sv v).inode ((sfiLinkcount (s.sv v).inode + k) % 2 ^ 16).toNat)

theorem ensures_addLinks {k : Int} {Q : Except Errno Unit → Fs → Prop} :
    Ensures C (addLinks v k) Q s ↔ Q (.ok ()) (s.relinked v k) := by
  rw [addLinks, Call.ensures_modify]
  rfl

/-- The root directory has the slots it had, also when it is its own link count that changes. -/
theorem Own.relinked {k : Int} (h : Own L s) (hv : v ∈ s.vnodes) :
    Own L (s.relinked v k) ∧ SameNames L s (s.relinked v k) ∧
      sfiLinkcount (inodeOf (s.relinked v k) v) =
        ((sfiLinkcount (inodeOf s v) + k) % 2 ^ 16).toNat ∧
      ∀ u ≠ v, inodeOf (s.relinked v k) u = inodeOf s u := by
  have hedit := h.setInode (d := setLinkcount (s.sv v).inode
    ((sfiLinkcount (s.sv v).inode + k) % 2 ^ 16).toNat) hv
      ⟨fun _ _ => sfiDirect_setLinkcount, sfiIndirect_setLinkcount⟩
  have hself : inodeOf (s.relinked v k) v = setLinkcount (inodeOf s v)
      ((sfiLinkcount (inodeOf s v) + k) % 2 ^ 16).toNat := by
    rw [inodeOf_loaded hv]
    exact inodeOf_setInode hv
  have hother : ∀ u ≠ v, inodeOf (s.relinked v k) u = inodeOf s u :=
    fun u hu => inodeOf_setInode_ne hu
  refine ⟨hedit.own, ⟨rfl, fun u _ => ?_, ?_, ?_⟩, ?_, hother⟩
  · by_cases hu : u = v
    · rw [hu, hself, sfiType_setLinkcount]
    · rw [hother u hu]
  · by_cases hu : rootLocation = v
    · rw [hu, hself, sfiSize_setLinkcount]
    · rw [hother _ hu]
  · by_cases hu : rootLocation = v
    · rw [hu]
      exact hedit.bytes
    · unfold fileByte
      rw [hother _ hu]
      rfl
  · rw [hself]
    exact BigEndian.read_write_of_lt (by omega)

/-- A link count that is off is put right. -/
theorem Volume.relinked {k : Int} (h : Volume L (owed v (-k)) s) (hv : v ∈ s.vnodes) :
    Volume L settled (s.relinked v k) := by
  obtain ⟨hown, hnames, hself, hother⟩ := h.own.relinked (k := k) hv
  refine h.names hown (fun _ hu => hu) hnames h.root (fun u hu => ?_) h.named fun u _ hu =>
    .inr (.inl hu)
  unfold owed settled
  by_cases heq : u = v
  · have hlinks := h.links v (h.own.loaded v hv).1
    have hlt := h.linksTo_lt (u := v)
    unfold properLinks owed at hlinks
    rw [if_pos heq, heq, hself]
    split at hlinks <;> omega
  · rw [if_neg heq, hother u heq]

/-- A reference has been given up. -/
structure GivenUp (L : Set Nat) (v : Nat) (s t : Fs) : Prop where
  volume : Volume (remaining L s v) settled t
  view : SameView (remaining L s v) s t
  freed : ∀ u ∈ L, u ∉ remaining L s v → bitmapIsset t.freemap u = false

theorem not_mem_remaining (hu : u ∈ L) (hno : u ∉ remaining L s v) : Discards s v ∧ u = v := by
  unfold remaining at hno
  split at hno
  · rename_i hd
    refine ⟨hd, ?_⟩
    by_contra hne
    exact hno ⟨hu, hne⟩
  · exact absurd hu hno

theorem Volume.decref (h : Volume L settled s) (hv : v ∈ s.vnodes) :
    Ensures C (decref v) (fun r t => r = .ok () ∧ GivenUp L v s t) s := by
  have hvL := (h.own.loaded v hv).1
  have hzero := h.linkcount_eq_zero_iff hvL
  have hfile : sfiLinkcount (inodeOf s v) = 0 →
      v ≠ rootLocation ∧ sfiType (inodeOf s v) ≠ FileType.dir.code :=
    fun h0 => ⟨(hzero.mp h0).1, fun hd => (hzero.mp h0).1 (h.type_dir hvL hd)⟩
  have hstays : ∀ u ∈ L, u ∉ remaining L s v → u ≠ rootLocation ∧ ¬ Names s u := by
    intro u hu hno
    obtain ⟨hd, rfl⟩ := not_mem_remaining hu hno
    exact hzero.mp hd.2
  have hroot : rootLocation ∈ remaining L s v := by
    by_contra hno
    exact (hstays _ h.root hno).1 rfl
  refine ((decref_spec h.own hv hfile).weaken fun _ hf => hf.elim).mono ?_
  rintro r t ⟨rfl, hd⟩
  have hview := hd.alike.view hroot
  refine ⟨rfl, h.names hd.own remaining_subset hview.toSameNames hroot
    (fun u hu => by rw [hview.linkcount u hu]) (fun j hj h0 => ?_) (fun u hu hin => ?_), hview,
    fun u hu hno => ?_⟩
  · by_contra hno
    exact (hstays _ (h.named j hj h0) hno).2 ⟨j, hj, rfl⟩
  · -- the vnode that has left the table belongs to a file with a name
    by_cases hgone : u = v ∧ (s.sv v).refcount = 1
    · obtain ⟨rfl, h1⟩ := hgone
      have hlinked : sfiLinkcount (inodeOf s u) ≠ 0 := by
        intro h0
        rw [remaining, if_pos ⟨h1, h0⟩] at hu
        exact hu.2 rfl
      by_cases hr : u = rootLocation
      · exact .inl hr
      · by_contra hno
        exact hlinked (hzero.mpr ⟨hr, fun hn => hno (.inr (.inr hn))⟩)
    · refine .inr (.inl ?_)
      rw [hd.vnodes]
      split
      · rename_i h1
        exact (List.mem_erase_of_ne fun heq => hgone ⟨heq, h1⟩).mpr hin
      · exact hin
  · obtain ⟨hdrop, rfl⟩ := not_mem_remaining hu hno
    exact hd.freed hdrop

/-- A file with a name stays. -/
theorem remaining_of_names (h : Volume L settled s) (hv : v ∈ L) (hn : Names s v) :
    remaining L s v = L :=
  if_neg fun hd => ((h.linkcount_eq_zero_iff hv).mp hd.2).2 hn

/-- A file has been loaded. -/
structure Loaded (L : Set Nat) (ino : Nat) (s t : Fs) : Prop where
  volume : Volume L settled t
  view : SameView L s t
  loaded : ino ∈ t.vnodes
  vnodes : ∀ u ∈ s.vnodes, u ∈ t.vnodes

theorem Volume.loadvnode (h : Volume L settled s) (hino : ino ∈ L) :
    Ensures C (loadvnode ino .inval heap) (fun r t =>
      (r = .ok () → Loaded L ino s t) ∧ (∀ e, r = .error e → t = s)) s := by
  by_cases hin : ino ∈ s.vnodes
  · rw [ensures_loadvnode_again h.own hin]
    have hview : SameView L s (s.setRefcount ino ((s.sv ino).refcount + 1)) :=
      carries_setRefcount.alike.view h.root
    refine ⟨fun _ => ⟨h.same (h.own.setRefcount (Nat.succ_pos _)) hview fun u hu => hu, hview, hin,
      fun u hu => hu⟩, fun e he => by cases he⟩
  · have hdisk : inodeOf s ino = s.disk ino := if_neg hin
    have hread : Readable (s.disk ino) .inval := by
      rw [← hdisk]
      exact h.knownType hino
    refine ((loadvnode_read h.own (h.own.lt_nblocks hino) (h.own.isset hino) hin hread).weaken
      fun _ hf => hf.elim).mono ?_
    rintro (e | _) t hload
    · exact ⟨fun he => (by cases he), fun _ _ => hload.2.2⟩
    obtain ⟨-, rfl⟩ := hload
    obtain ⟨hown, hcarry⟩ := h.own.load hino hin
    have hview := hcarry.alike.view h.root
    have hvnodes : ∀ u ∈ s.vnodes, u ∈ s.vnodes ++ [ino] :=
      fun u hu => List.mem_append_left _ hu
    exact ⟨fun _ => ⟨h.same hown hview hvnodes, hview,
      List.mem_append_right _ (List.mem_singleton.mpr rfl), hvnodes⟩, fun e he => by cases he⟩

/-- A new file has been made. -/
structure Made (L : Set Nat) (b : Nat) (s t : Fs) : Prop where
  fresh : b ∉ L
  volume : Volume (insert b L) settled t
  view : SameView L s t
  loaded : b ∈ t.vnodes
  refcount : (t.sv b).refcount = 1
  unlinked : sfiLinkcount (inodeOf t b) = 0
  vnodes : ∀ u ∈ s.vnodes, u ∈ t.vnodes

theorem Volume.create {b : Nat} (h : Volume L settled s) (hb : Free s b) :
    Made L b s ((s.alloc b).load b (newVnode zeros .file)) := by
  obtain ⟨hown, hcarry, hinode⟩ := h.own.create .file hb (by decide)
  have hbL : b ∉ L := fun hin => h.own.free_ne_self hb hin rfl
  have hview := hcarry.alike.view h.root
  have hnone : ¬ Names s b := by
    rintro ⟨j, hj, rfl⟩
    exact hbL (h.named j hj (hb.ne_zero h.own.format))
  have hnew : newVnode zeros .file = ⟨newInode .file, true, 1⟩ := if_neg (by decide)
  have hlinks : sfiLinkcount (inodeOf ((s.alloc b).load b (newVnode zeros .file)) b) = 0 := by
    rw [hinode, newInode, sfiLinkcount_setType]
    exact BigEndian.read_zero
  have hload : b ∈ ((s.alloc b).load b (newVnode zeros .file)).vnodes :=
    List.mem_append_right _ (List.mem_singleton.mpr rfl)
  have hvnodes : ∀ u ∈ s.vnodes, u ∈ ((s.alloc b).load b (newVnode zeros .file)).vnodes :=
    fun u hu => List.mem_append_left _ hu
  refine ⟨hbL, ⟨hown, .inr h.root, hview.isDir h.root h.dir, ?_, ?_,
    hview.uniqueNames h.unique, ?_, ?_⟩, hview, hload, ?_, hlinks, hvnodes⟩
  · rintro u (rfl | hu) hne
    · rw [hinode, newInode, sfiType_setType]
    · exact (hview.type u hu).trans (h.file u hu hne)
  · intro j hj h0
    rw [hview.nslots_eq] at hj
    rw [hview.slotIno_eq] at h0 ⊢
    exact .inr (h.named j hj h0)
  · rintro u (rfl | hu)
    · have hroot : u ≠ rootLocation := fun heq => hbL (heq ▸ h.root)
      have hzero : linksTo s u = 0 := by
        rw [← not_not (a := linksTo s u = 0), ← ne_eq, linksTo_ne_zero_iff]
        exact hnone
      rw [hlinks, properLinks, hview.linksTo_eq, hzero, if_neg hroot]
      rfl
    · rw [hview.linkcount u hu, properLinks, hview.linksTo_eq]
      exact h.links u hu
  · rintro u (rfl | hu)
    · exact .inr (.inl hload)
    · rw [hview.names_iff]
      exact (h.live u hu).imp_right (Or.imp_left (hvnodes u))
  · rw [hnew]
    simp only [Fs.load, Function.update_self]

theorem Volume.makeobj (h : Volume L settled s) :
    Ensures C (makeobj .file heap) (fun r t => (∀ b, r = .ok b → Made L b s t) ∧
      (∀ e, r = .error e → Volume L settled t ∧ SameView L s t)) s := by
  rw [Sfs.makeobj, ensures_bind]
  refine ((balloc_spec h.own.format).weaken fun _ hf => hf.elim).mono ?_
  rintro (e | b) t halloc
  · obtain ⟨-, rfl, -⟩ := halloc
    exact ⟨fun _ he => (by cases he), fun _ _ => ⟨h, .refl⟩⟩
  obtain ⟨hb, rfl⟩ := halloc
  obtain ⟨hown, hcarry⟩ := h.own.alloc hb
  have hview := hcarry.alike.view h.root
  have hset : bitmapIsset (s.alloc b).freemap b = true := by
    rw [isset_alloc, decide_eq_true rfl, Bool.true_or]
  have hzero : (s.alloc b).disk b = zeros := Function.update_self ..
  have hno : b ∉ (s.alloc b).vnodes :=
    fun hin => h.own.free_ne_self hb (h.own.loaded b hin).1 rfl
  have hread : Readable ((s.alloc b).disk b) .file := by
    rw [hzero]
    exact BigEndian.read_zero
  rw [after_ok, ensures_bind]
  refine ((loadvnode_read hown (hb.data h.own.format).2 hset hno hread).weaken
    fun _ hf => hf.elim).mono ?_
  rintro (e | _) t hload
  · -- the block is left marked, and belongs to no file
    obtain ⟨-, -, rfl⟩ := hload
    exact ⟨fun _ he => (by cases he), fun _ _ => ⟨h.same hown hview fun u hu => hu, hview⟩⟩
  obtain ⟨-, rfl⟩ := hload
  rw [after_ok, ensures_pure, hzero]
  refine ⟨fun b' he => ?_, fun _ he => by cases he⟩
  cases he
  exact h.create hb

/-- A name was found, and its file is loaded. -/
structure Found (L : Set Nat) (ino slot : Nat) (s t : Fs) : Prop where
  mem : ino ∈ L
  loads : Loaded L ino s t
  slot_lt : slot < nslots t rootLocation
  slot_eq : slotIno t rootLocation slot = ino

theorem Found.names (h : Found L ino slot s t) : Names t ino := ⟨slot, h.slot_lt, h.slot_eq⟩

/-- What an operation leaves: the files that are gone have given back their inodes, and after a
failure nothing is gone. -/
structure Outcome {α : Type} (L : Set Nat) (s : Fs) (r : Except Errno α) (t : Fs) : Prop where
  nblocks : t.nblocks = s.nblocks
  files : ∃ L', Volume L' settled t ∧ (∀ u ∈ L, u ∉ L' → bitmapIsset t.freemap u = false) ∧
    ∀ e, r = .error e → L' = L ∧ SameView L s t

section outcome
variable {α : Type} {a : α} {e : Errno}

theorem Outcome.failed (h : Volume L settled t) (hv : SameView L s t) :
    Outcome L s (.error e : Except Errno α) t :=
  ⟨hv.nblocks, L, h, fun _ hu hno => absurd hu hno, fun _ _ => ⟨rfl, hv⟩⟩

theorem Outcome.done (hn : t.nblocks = s.nblocks) (h : Volume L' settled t)
    (hf : ∀ u ∈ L, u ∉ L' → bitmapIsset t.freemap u = false) :
    Outcome L s (.ok a : Except Errno α) t :=
  ⟨hn, L', h, hf, fun _ he => by cases he⟩

/-- No file is gone. -/
theorem Outcome.kept (hn : t.nblocks = s.nblocks) (h : Volume L settled t) :
    Outcome L s (.ok a : Except Errno α) t :=
  .done hn h fun _ hu hno => absurd hu hno

end outcome

section operations
variable (h : Volume L settled s)
include h

theorem Volume.getroot (hC : C panic) : Ensures C (getroot heap) (Outcome L s) s := by
  rw [Sfs.getroot, ensures_bind, ensures_attempt]
  refine (h.loadvnode h.root).mono ?_
  rintro (e | _) t ⟨hok, -⟩
  · exact Call.ensures_crash.mpr hC
  · refine ensures_pure.mpr ?_
    exact .kept (hok rfl).view.nblocks (hok rfl).volume

theorem Volume.found_mem {a : Scan} {slot ino : Nat} (hfound : a.found = some (slot, ino))
    (hscan : Scanned s rootLocation name (nslots s rootLocation) a) :
    slot < nslots s rootLocation ∧ ino = slotIno s rootLocation slot ∧ ino ∈ L := by
  obtain ⟨hlt, hino, hne, -⟩ := hscan.found _ hfound
  dsimp only at hlt hino hne
  refine ⟨hlt, hino, ?_⟩
  rw [hino] at hne ⊢
  exact h.named slot hlt hne

variable (hroot : rootLocation ∈ s.vnodes)
include hroot

theorem Volume.dirFindname : Ensures C (dirFindname rootLocation name)
    (fun r t => t = s ∧ ∃ a, r = .ok a ∧ Scanned s rootLocation name (nslots s rootLocation) a) s :=
  (dirFindname_spec hroot h.dir h.own h.unique).weaken fun _ hf => hf.elim

theorem Volume.lookonce : Ensures C (lookonce rootLocation name heap) (fun r t =>
    (∀ x, r = .ok x → Found L x.1 x.2 s t) ∧ (∀ e, r = .error e → t = s)) s := by
  rw [Sfs.lookonce, ensures_bind]
  refine (h.dirFindname hroot).mono ?_
  rintro _ s₀ ⟨rfl, a, rfl, hscan⟩
  rw [after_ok]
  cases hfound : a.found with
  | none => exact ensures_fail.mpr ⟨fun _ he => (by cases he), fun _ _ => rfl⟩
  | some x =>
    obtain ⟨slot, ino⟩ := x
    obtain ⟨hlt, hino, hmem⟩ := h.found_mem hfound hscan
    rw [ensures_bind]
    refine (h.loadvnode hmem).mono ?_
    rintro (e | _) t ⟨hok, herr⟩
    · exact ⟨fun _ he => (by cases he), fun _ _ => herr e rfl⟩
    have hload := hok rfl
    have hf : Found L ino slot s₀ t := by
      refine ⟨hmem, hload, ?_, ?_⟩
      · rw [hload.view.nslots_eq]
        exact hlt
      · rw [hload.view.slotIno_eq]
        exact hino.symm
    have hlinks : sfiLinkcount (t.sv ino).inode ≠ 0 := by
      rw [← inodeOf_loaded hload.loaded]
      intro h0
      exact ((hload.volume.linkcount_eq_zero_iff hmem).mp h0).2 hf.names
    simp only [after_ok, ensures_bind, ensures_get, ensures_require, hlinks, ne_eq,
      not_false_eq_true, true_implies, not_true_eq_false, false_implies, and_true, ensures_pure]
    refine ⟨fun x he => ?_, fun _ he => by cases he⟩
    cases he
    exact hf

theorem Volume.lookup : Ensures C (lookup rootLocation name heap) (Outcome L s) s := by
  rw [Sfs.lookup, ensures_bind]
  refine (h.lookonce hroot).mono ?_
  rintro (e | x) t ⟨hok, herr⟩
  · rw [after_error, herr e rfl]
    exact .failed h .refl
  · refine ensures_pure.mpr ?_
    exact .kept (hok x rfl).loads.view.nblocks (hok x rfl).loads.volume

/-- `sfs_dir_link` of a file, and its link count. -/
theorem Volume.dirLink (hino : ino ∈ L) : Ensures C (dirLink rootLocation name ino) (fun r t =>
    (∀ slot, r = .ok slot → Linked L rootLocation name ino slot s t ∧
      Volume L (owed ino (-1)) t ∧ t.vnodes = s.vnodes) ∧
    (∀ e, r = .error e → Volume L settled t ∧ SameView L s t ∧ t.vnodes = s.vnodes ∧
      (ino ≠ rootLocation → t.sv ino = s.sv ino))) s := by
  refine (dirLink_spec hroot h.dir h.own h.unique).mono ?_
  rintro (e | slot) t ⟨hok, herr⟩
  · refine ⟨fun _ he => (by cases he), fun _ _ => ?_⟩
    have hkept := herr e rfl
    have hvnodes := hkept.frame.vnodes
    exact ⟨h.same hkept.own hkept.view fun u hu => hvnodes ▸ hu, hkept.view, hvnodes,
      fun hne => hkept.frame.sv ino hne⟩
  · refine ⟨fun slot' he => ?_, fun _ he => by cases he⟩
    cases he
    have hl := hok slot rfl
    exact ⟨hl, h.linked hino hl, hl.set.frame.vnodes⟩

theorem Volume.link (hv : v ∈ s.vnodes) : Ensures C (link rootLocation name v) (Outcome L s) s := by
  rw [Sfs.link, ensures_bind]
  refine (h.dirLink hroot (h.own.loaded v hv).1).mono ?_
  rintro (e | slot) t ⟨hok, herr⟩
  · exact .failed (herr e rfl).1 (herr e rfl).2.1
  obtain ⟨hl, hvol, hvnodes⟩ := hok slot rfl
  rw [after_ok, ensures_addLinks]
  exact .kept hl.set.frame.nblocks (hvol.relinked (k := 1) (hvnodes ▸ hv))

theorem Volume.creatNew : Ensures C (creatNew rootLocation name heap) (Outcome L s) s := by
  rw [Sfs.creatNew, ensures_bind]
  refine h.makeobj.mono ?_
  rintro (e | b) t ⟨hok, herr⟩
  · exact .failed (herr e rfl).1 (herr e rfl).2
  have hmade := hok b rfl
  have hb : b ≠ rootLocation := fun heq => hmade.fresh (heq ▸ h.root)
  rw [after_ok, ensures_bind, ensures_attempt]
  refine (hmade.volume.dirLink (hmade.vnodes _ hroot) (.inl rfl)).mono ?_
  rintro (e | slot) u ⟨hlinked, hfailed⟩
  · -- the new file has no name, so it goes again
    obtain ⟨hvol, hview, hvnodes, hsv⟩ := hfailed e rfl
    have hdrop : Discards u b := by
      refine ⟨?_, ?_⟩
      · rw [hsv hb]
        exact hmade.refcount
      · rw [hview.linkcount b (.inl rfl)]
        exact hmade.unlinked
    have hrest : remaining (insert b L) u b = L := by
      rw [remaining, if_pos hdrop]
      ext w
      constructor
      · rintro ⟨rfl | hw, hne⟩
        · exact absurd rfl hne
        · exact hw
      · intro hw
        exact ⟨.inr hw, fun heq => hmade.fresh (heq ▸ hw)⟩
    refine ensures_bind.mpr ((hvol.decref (hvnodes ▸ hmade.loaded)).mono ?_)
    rintro _ w ⟨rfl, hgone⟩
    obtain ⟨hvol', hview', -⟩ := hgone
    rw [hrest] at hvol' hview'
    refine ensures_fail.mpr (.failed hvol' ?_)
    exact (hmade.view.trans (hview.mono fun _ hw => .inr hw)).trans hview'
  · obtain ⟨hl, hvol, hvnodes⟩ := hlinked slot rfl
    refine ensures_bind.mpr (ensures_addLinks.mpr ?_)
    refine ensures_pure.mpr ?_
    exact .done (hl.set.frame.nblocks.trans hmade.view.nblocks)
      (hvol.relinked (k := 1) (hvnodes ▸ hmade.loaded)) fun w hw hno => absurd (.inr hw) hno

theorem Volume.creat {excl : Bool} :
    Ensures C (creat rootLocation name excl heap) (Outcome L s) s := by
  rw [Sfs.creat, ensures_bind]
  refine (h.dirFindname hroot).mono ?_
  rintro _ s₀ ⟨rfl, a, rfl, hscan⟩
  rw [after_ok]
  cases hfound : a.found with
  | none => exact h.creatNew hroot
  | some x =>
    obtain ⟨slot, ino⟩ := x
    have hmem := (h.found_mem hfound hscan).2.2
    rw [ensures_bind, Call.ensures_failIf]
    refine ⟨fun _ => .failed h .refl, fun _ => ?_⟩
    rw [after_ok, ensures_bind]
    refine (h.loadvnode hmem).mono ?_
    rintro (e | _) t ⟨hok, herr⟩
    · rw [after_error, herr e rfl]
      exact .failed h .refl
    · exact ensures_pure.mpr (.kept (hok rfl).view.nblocks (hok rfl).volume)

theorem Volume.dirUnlink (hi : i < nslots s rootLocation) (hino : slotIno s rootLocation i = ino)
    (hmem : ino ∈ L) (hv : ino ∈ s.vnodes) :
    Ensures C (dirUnlink rootLocation i) (fun r t => r = .ok () ∧ Volume L (owed ino 1) t ∧
      ino ∈ t.vnodes ∧ t.nblocks = s.nblocks) s := by
  have hused : slotIno s rootLocation i ≠ noIno := by
    rw [hino]
    exact h.ne_zero hmem
  refine (dirUnlink_spec hroot h.dir h.own hi hused).mono ?_
  rintro _ t ⟨rfl, hset⟩
  refine ⟨rfl, h.unlinked hset hi hino hv, ?_, hset.frame.nblocks⟩
  rw [hset.frame.vnodes]
  exact hv

omit h hroot in
/-- The end of `sfs_remove` and of `sfs_rename`: one link less, and the reference is given up. -/
theorem Volume.dropLink (h : Volume L (owed ino 1) s) (hmem : ino ∈ L) (hv : ino ∈ s.vnodes)
    (hn : s.nblocks = r.nblocks) : Ensures C (do
      let s ← Call.get
      Call.require assertion (0 < sfiLinkcount (s.sv ino).inode)
      addLinks ino (-1)
      Sfs.decref ino) (Outcome L r) s := by
  have hpos : 0 < sfiLinkcount (s.sv ino).inode := by
    have hlinks := h.links ino hmem
    rw [inodeOf_loaded hv, properLinks, owed, if_pos rfl] at hlinks
    split at hlinks <;> omega
  simp only [ensures_bind, ensures_get, after_ok, ensures_require, hpos,
    true_implies, not_true_eq_false, false_implies, and_true, ensures_addLinks]
  refine ((h.relinked (k := -1) hv).decref hv).mono ?_
  rintro _ t ⟨rfl, hgone⟩
  exact .done (hgone.view.nblocks.trans hn) hgone.volume hgone.freed

theorem Volume.remove : Ensures C (remove rootLocation name heap) (Outcome L s) s := by
  rw [Sfs.remove, ensures_bind]
  refine (h.lookonce hroot).mono ?_
  rintro (e | ⟨victim, slot⟩) t ⟨hok, herr⟩
  · rw [after_error, herr e rfl]
    exact .failed h .refl
  have hf := hok _ rfl
  rw [after_ok]
  rw [ensures_bind, ensures_attempt]
  refine (hf.loads.volume.dirUnlink (hf.loads.vnodes _ hroot) hf.slot_lt hf.slot_eq hf.mem
    hf.loads.loaded).mono ?_
  rintro _ u ⟨rfl, hvol, hv, hn⟩
  exact hvol.dropLink hf.mem hv (hn.trans hf.loads.view.nblocks)

omit h in
/-- The second half of `sfs_rename`: the old name goes. -/
theorem Volume.renameUnlink {slot1 slot2 : Nat} (h : Volume L (owed ino (-1)) s)
    (hmem : ino ∈ L) (hv : ino ∈ s.vnodes) (hlt : slot1 < nslots s rootLocation)
    (hino : slotIno s rootLocation slot1 = ino) (hn : s.nblocks = r.nblocks) :
    Ensures C (renameUnlink rootLocation ino slot1 slot2) (Outcome L r) s := by
  obtain ⟨-, hnames, -, -⟩ := h.own.relinked (k := 1) hv
  rw [Sfs.renameUnlink, ensures_bind, ensures_addLinks, after_ok, ensures_bind, ensures_attempt]
  refine ((h.relinked (k := 1) hv).dirUnlink hroot (hlt.trans_eq hnames.nslots_eq.symm)
    (hnames.slotIno_eq.trans hino) hmem hv).mono ?_
  rintro _ t ⟨rfl, hvol, hvt, hn'⟩
  rw [after_ok]
  exact hvol.dropLink hmem hvt (hn'.trans hn)

theorem Volume.rename {n1 n2 : Name} {d1 d2 : Nat} (hC : C assertion) :
    Ensures C (rename d1 n1 d2 n2 heap) (Outcome L s) s := by
  rw [Sfs.rename, ensures_bind, ensures_require]
  refine ⟨fun _ => ?_, fun _ => hC⟩
  rw [after_ok, ensures_bind, ensures_require]
  refine ⟨fun hd => ?_, fun _ => hC⟩
  rw [after_ok, ensures_bind, hd]
  refine (h.lookonce hroot).mono ?_
  rintro (e | ⟨g1, slot1⟩) t ⟨hok, herr⟩
  · rw [after_error, herr e rfl]
    exact .failed h .refl
  have hf := hok _ rfl
  simp only [ensures_bind, ensures_get, after_ok, ensures_require]
  refine ⟨fun _ => ?_, fun _ => hC⟩
  rw [ensures_attempt]
  refine (hf.loads.volume.dirLink (hf.loads.vnodes _ hroot) hf.mem).mono ?_
  rintro (e | slot2) u ⟨hlinked, hfailed⟩
  · obtain ⟨hvol, hview, hvnodes, -⟩ := hfailed e rfl
    have hrest : remaining L u g1 = L :=
      remaining_of_names hvol hf.mem (hview.names_iff.mpr hf.names)
    refine ensures_bind.mpr ((hvol.decref (hvnodes ▸ hf.loads.loaded)).mono ?_)
    rintro _ w ⟨rfl, hgone⟩
    obtain ⟨hvol', hview', -⟩ := hgone
    rw [hrest] at hvol' hview'
    exact ensures_fail.mpr (.failed hvol' ((hf.loads.view.trans hview).trans hview'))
  · obtain ⟨hl, hvol, hvnodes⟩ := hlinked slot2 rfl
    rw [after_ok]
    have hne : slot1 ≠ slot2 := by
      rintro rfl
      refine hf.loads.volume.ne_zero hf.mem ?_
      rw [← hf.slot_eq]
      exact hl.free hf.slot_lt
    refine Volume.renameUnlink (hvnodes ▸ hf.loads.vnodes _ hroot) hvol hf.mem
      (hvnodes ▸ hf.loads.loaded) ?_ ?_ (hl.set.frame.nblocks.trans hf.loads.view.nblocks)
    · rw [hl.set.nslots_eq]
      exact hf.slot_lt.trans_le (Nat.le_max_left ..)
    · rw [hl.set.ino, if_neg hne]
      exact hf.slot_eq

end operations

end OS161.Sfs
