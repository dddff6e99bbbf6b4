import OS161.Lib.Run
import OS161.Sfs.Mksfs
import OS161.Sfs.NameOps

/-! Operations one after the other on a mounted volume, with any of them failing. -/
namespace OS161.Sfs

open Call (Ensures ensures_bind after_ok)

/-- A call on a vnode or on the file system. -/
inductive Op where
  | getroot (heap : Heap)
  | lookup (v : Nat) (path : Name) (heap : Heap)
  | creat (v : Nat) (name : Name) (excl : Bool) (heap : Heap)
  | link (dir : Nat) (name : Name) (file : Nat)
  | remove (dir : Nat) (name : Name) (heap : Heap)
  | rename (d1 : Nat) (n1 : Name) (d2 : Nat) (n2 : Name) (heap : Heap)
  | read (v : Nat) (x : Xfer)
  | write (v : Nat) (x : Xfer)
  | truncate (v : Nat) (len : Int)
  | decref (v : Nat)

/-- A call of which only the failure is looked at. -/
def ignore {α : Type} (m : SfsCall α) : SfsCall Unit := do
  let _ ← m
  pure ()

/-- The call through the table of the vnode. -/
def Op.call : Op → SfsCall Unit
  | .getroot heap => Sfs.getroot heap
  | .lookup v path heap => dirOp v (ignore (Sfs.lookup v path heap))
  | .creat v name excl heap => dirOp v (ignore (Sfs.creat v name excl heap))
  | .link dir name file => dirOp dir (Sfs.link dir name file)
  | .remove dir name heap => dirOp dir (Sfs.remove dir name heap)
  | .rename d1 n1 d2 n2 heap => dirOp d1 (Sfs.rename d1 n1 d2 n2 heap)
  | .read v x => fileOp v (ignore (Sfs.read v x))
  | .write v x => fileOp v (ignore (Sfs.write v x))
  | .truncate v len => fileOp v (Sfs.truncate v len)
  | .decref v => Sfs.decref v

/-- What the caller promises: it has references to the vnodes it names, and a transfer fits its
buffer. -/
def Op.Given (s : Fs) : Op → Prop
  | .getroot _ => True
  | .lookup v _ _ => v ∈ s.vnodes
  | .creat v _ _ _ => v ∈ s.vnodes
  | .link dir _ file => dir ∈ s.vnodes ∧ file ∈ s.vnodes
  | .remove dir _ _ => dir ∈ s.vnodes
  | .rename d1 _ d2 _ _ => d1 ∈ s.vnodes ∧ d2 ∈ s.vnodes
  | .read v x => v ∈ s.vnodes ∧ x.uio.Ok
  | .write v x => v ∈ s.vnodes ∧ x.uio.Ok
  | .truncate v _ => v ∈ s.vnodes
  | .decref v => v ∈ s.vnodes

/-- An operation that returns, with its result. -/
def OpStep (s : Fs) (a : Op × Except Errno Unit) (t : Fs) : Prop :=
  a.1.Given s ∧ a.1.call s = .ok (a.2, t)

/-- The root directory, the files in memory and those with a name. -/
def Live (s : Fs) : Set Nat :=
  {u | u = rootLocation ∨ u ∈ s.vnodes ∨ u ≠ noIno ∧ Names s u}

/-- A volume as it is between operations. -/
def Consistent (s : Fs) : Prop := Volume (Live s) settled s

/-- The ways to stop that are not about free blocks. -/
def Unrelated (c : SfsCrash) : Prop := ∃ c', c = .other c'

section volume
variable {L : Set Nat} {d : Nat → Int} {s t : Fs} {u v : Nat} {C : SfsCrash → Prop}

theorem Volume.eq_live (h : Volume L d s) : L = Live s := by
  ext u
  constructor
  · intro hu
    exact (h.live u hu).imp_right (Or.imp_right fun hn => ⟨h.ne_zero hu, hn⟩)
  rintro (rfl | hin | ⟨hne, i, hi, rfl⟩)
  · exact h.root
  · exact (h.own.loaded u hin).1
  · exact h.named i hi hne

attribute [local irreducible] Ensures

section calls
variable {α : Type} {m : SfsCall α} (h : Volume L settled s)
include h

theorem Volume.dirOp (hv : v ∈ s.vnodes) (hm : rootLocation = v → Ensures C m (Outcome L s) s) :
    Ensures C (dirOp v m) (Outcome L s) s := by
  simp only [Sfs.dirOp, ensures_bind, Call.ensures_get, after_ok]
  rw [Call.ensures_ite]
  refine ⟨fun hd => hm ?_, fun _ => Call.ensures_fail.mpr (.failed h .refl)⟩
  rw [← inodeOf_loaded hv] at hd
  exact (h.type_dir (h.own.loaded v hv).1 hd).symm

theorem Volume.fileOp (hv : v ∈ s.vnodes) (hm : v ≠ rootLocation → Ensures C m (Outcome L s) s) :
    Ensures C (fileOp v m) (Outcome L s) s := by
  simp only [Sfs.fileOp, ensures_bind, Call.ensures_get, after_ok]
  rw [Call.ensures_ite]
  refine ⟨fun _ => Call.ensures_fail.mpr (.failed h .refl), fun hd => hm ?_⟩
  rintro rfl
  rw [← inodeOf_loaded hv] at hd
  exact hd h.dir.type

omit h in
theorem outcome_ignore (hm : Ensures C m (Outcome L s) s) :
    Ensures C (ignore m) (Outcome L s) s := by
  rw [ignore, ensures_bind]
  refine hm.mono ?_
  rintro (e | a) t ⟨hn, L', hvol, hfreed, hkept⟩
  · exact ⟨hn, L', hvol, hfreed, fun e' _ => hkept e rfl⟩
  · exact Call.ensures_pure.mpr (.done hn hvol hfreed)

/-- What changes one file that is not the directory. -/
theorem Volume.frame {r : Except Errno α} (hown : Own L t) (hf : Frame L v s t)
    (hv : v ≠ rootLocation) : Outcome L s r t := by
  have hview := hf.view h.root hv
  have hvol : Volume L settled t := h.same hown hview fun u hu => hf.vnodes ▸ hu
  cases r with
  | error e => exact .failed hvol hview
  | ok a => exact .kept hview.nblocks hvol

theorem Volume.transfer {x : Xfer} (hv : v ∈ s.vnodes) (hne : v ≠ rootLocation) (hx : x.uio.Ok) :
    Ensures Unrelated (withUio x (io v)) (Outcome L s) s := by
  rw [withUio, Call.ensures_withLocal]
  refine (io_steady (fun c => ⟨c, rfl⟩) h.own hv hx).mono ?_
  rintro r t ⟨hown, hf⟩
  exact h.frame hown hf hne

/-- Every operation keeps the volume, and stops for no reason that has to do with free blocks. -/
theorem Volume.op {op : Op} (hg : op.Given s) : Ensures Unrelated op.call (Outcome L s) s := by
  have hassert : Unrelated assertion := ⟨_, rfl⟩
  cases op with
  | getroot heap => exact h.getroot ⟨_, rfl⟩
  | lookup v path heap =>
    refine h.dirOp hg ?_
    rintro rfl
    exact outcome_ignore (h.lookup hg)
  | creat v name excl heap =>
    refine h.dirOp hg ?_
    rintro rfl
    exact outcome_ignore (h.creat hg)
  | link dir name file =>
    refine h.dirOp hg.1 ?_
    rintro rfl
    exact h.link hg.1 hg.2
  | remove dir name heap =>
    refine h.dirOp hg ?_
    rintro rfl
    exact h.remove hg
  | rename d1 n1 d2 n2 heap =>
    refine h.dirOp hg.1 ?_
    rintro rfl
    exact h.rename hg.1 hassert
  | read v x =>
    refine h.fileOp hg.1 fun hne => outcome_ignore ?_
    rw [Sfs.read, ensures_bind, Call.ensures_require]
    exact ⟨fun _ => h.transfer hg.1 hne hg.2, fun _ => hassert⟩
  | write v x =>
    refine h.fileOp hg.1 fun hne => outcome_ignore ?_
    rw [Sfs.write, ensures_bind, Call.ensures_require]
    exact ⟨fun _ => h.transfer hg.1 hne hg.2, fun _ => hassert⟩
  | truncate v len =>
    refine h.fileOp hg fun hne => ?_
    refine ((truncate_spec h.own hg len).weaken fun _ hf => hf.elim).mono ?_
    rintro r t ⟨rfl, htrunc⟩
    exact h.frame htrunc.own htrunc.frame hne
  | decref v =>
    refine (h.decref hg).mono ?_
    rintro _ t ⟨rfl, hgone⟩
    exact .done hgone.view.nblocks hgone.volume hgone.freed

end calls

end volume

section runs
variable {s t : Fs} {ops : List (Op × Except Errno Unit)} {op : Op} {r : Except Errno Unit}
  {u n : Nat}

theorem Consistent.outcome (h : Consistent s) (hstep : OpStep s (op, r) t) :
    Outcome (Live s) s r t :=
  (h.op hstep.1).of_eq hstep.2

theorem Outcome.consistent (h : Outcome (Live s) s r t) : Consistent t := by
  obtain ⟨L, hvol, -⟩ := h.files
  have hlive := hvol.eq_live
  rw [hlive] at hvol
  exact hvol

/-- The inodes that are gone are those of the files that are. -/
theorem Outcome.freed_iff (h : Outcome (Live s) s r t) (hu : u ∈ Live s) :
    bitmapIsset t.freemap u = false ↔ u ∉ Live t := by
  obtain ⟨L, hvol, hfreed, -⟩ := h.files
  rw [← hvol.eq_live]
  refine ⟨fun hclear hin => ?_, hfreed u hu⟩
  have hset := hvol.own.isset hin
  rw [hclear] at hset
  cases hset

theorem consistent_run (h : Consistent s) (hrun : Lts.Run OpStep s ops t) :
    Consistent t ∧ t.nblocks = s.nblocks := by
  refine hrun.invariant (fun t => Consistent t ∧ t.nblocks = s.nblocks) ?_ ⟨h, rfl⟩
  rintro t₁ ⟨op, r⟩ t₂ hstep ⟨hcons, hn⟩
  have hout := hcons.outcome hstep
  exact ⟨hout.consistent, hout.nblocks.trans hn⟩

theorem Fresh.consistent (h : Fresh n s) (hdata : firstData n ≤ n)
    (hmax : n ≤ maxBitBlocks * 4096) : Consistent s := by
  have hroot : inodeOf s rootLocation = rootInode := by
    rw [inodeOf, h.vnodes, if_neg List.not_mem_nil, h.root]
  have hempty : nslots s rootLocation = 0 := by
    rw [nslots, hroot, sfiSize_rootInode]
    rfl
  have hnone : ∀ i, ¬ i < nslots s rootLocation := by
    intro i hi
    rw [hempty] at hi
    exact Nat.not_lt_zero i hi
  have hvol : Volume {rootLocation} settled s := by
    refine ⟨h.own hdata hmax, rfl, ⟨?_, ?_, ?_⟩, ?_, ?_, ?_, ?_, ?_⟩
    · rw [hroot]
      exact sfiType_rootInode
    · rw [hroot, sfiSize_rootInode]
      rfl
    · rw [hroot, sfiSize_rootInode]
      exact Nat.zero_le _
    · exact fun u hu hne => absurd hu hne
    · exact fun i hi => absurd hi (hnone i)
    · exact fun i hi => absurd hi (hnone i)
    · rintro u rfl
      rw [hroot, properLinks, linksTo, hempty, Nat.count_zero, if_pos rfl]
      rfl
    · exact fun u hu => .inl hu
  have hlive := hvol.eq_live
  rw [hlive] at hvol
  exact hvol

theorem mksfs_consistent {volname : Name} {disk image : Disk} {room : Bool}
    (hmk : mksfs volname n disk = .ok image) (hmount : domount image n room = .ok (.ok s)) :
    Consistent s ∧ s.nblocks = n := by
  obtain ⟨hfresh, hdata, hmax⟩ := fresh_of_domount hmk hmount
  exact ⟨hfresh.consistent hdata hmax, hfresh.nblocks⟩

end runs

/-- On a volume made by `mksfs`, whatever operations have returned: the inode of every live file and
every block it refers to is marked in use and lies after the bitmap, and has no other place that
refers to it. So no operation meets a block of a file that is free, or frees a block twice, and
`sfs_balloc` hands out no block that is referred to. -/
theorem blocks_have_one_owner {volname : Name} {n : Nat} {disk image : Disk} {room : Bool}
    {s t : Fs} {ops : List (Op × Except Errno Unit)} (hmk : mksfs volname n disk = .ok image)
    (hmount : domount image n room = .ok (.ok s)) (hrun : Lts.Run OpStep s ops t) :
    (∀ u ∈ Live t, bitmapIsset t.freemap u = true) ∧
    (∀ u ∈ Live t, ∀ p, ref t u p ≠ 0 →
      mapLocation + bitBlocks n ≤ ref t u p ∧ ref t u p < n ∧
      bitmapIsset t.freemap (ref t u p) = true ∧
      ∀ u' ∈ Live t, ∀ p', ref t u' p' = ref t u p → u' = u ∧ p' = p) ∧
    (∀ op : Op, op.Given t → ∀ c, op.call t = .error c →
      c ≠ .markedFree ∧ c ≠ .unallocated ∧ c ≠ .unmarkFree) ∧
    (∀ b t', balloc t = .ok (.ok b, t') →
      bitmapIsset t.freemap b = false ∧ ∀ u ∈ Live t, u ≠ b ∧ ∀ p, ref t u p ≠ b) := by
  obtain ⟨hs, hn⟩ := mksfs_consistent hmk hmount
  obtain ⟨ht, htn⟩ := consistent_run hs hrun
  have hnblocks : t.nblocks = n := htn.trans hn
  refine ⟨fun u hu => ht.own.isset hu, fun u hu p h0 => ?_, fun op hg c hc => ?_, fun b t' hb => ?_⟩
  · obtain ⟨hlow, hlt, hset⟩ := ht.own.inUse hu h0
    rw [hnblocks] at hlow hlt
    refine ⟨hlow, hlt, hset, fun u' hu' p' heq => ?_⟩
    have hplace := ht.own.owns.inj (u, p) hu (u', p') hu' h0 heq.symm
    cases hplace
    exact ⟨rfl, rfl⟩
  · obtain ⟨c', rfl⟩ := (ht.op hg).of_error hc
    exact ⟨SfsCrash.noConfusion, SfsCrash.noConfusion, SfsCrash.noConfusion⟩
  · obtain ⟨hfree, -⟩ := (balloc_spec ht.own.format).of_eq hb
    exact ⟨hfree.2, fun u hu => ⟨ht.own.free_ne_self hfree hu,
      fun p => ht.own.free_ne_ref hfree hu⟩⟩

/-- The state in which a call returns. -/
def Op.after (op : Op) (s : Fs) : Fs := ((op.call s).toOption.map Prod.snd).getD s

theorem opStep_after {op : Op} {s : Fs} {r : Except Errno Unit} (hg : op.Given s)
    (h : (op.call s).map Prod.fst = .ok r) : OpStep s (op, r) (op.after s) := by
  refine ⟨hg, ?_⟩
  unfold Op.after
  cases hc : op.call s with
  | error c =>
    rw [hc] at h
    cases h
  | ok x =>
    rw [hc] at h
    cases h
    rfl

/-- The name of one letter. -/
def letter (c : Byte) (h : 0#8 ≠ c) : Name := ⟨[c], List.mem_singleton.not.mpr h⟩

/-- A disk of 4090 blocks, whose bitmap has only six bits behind the end. -/
def image : Disk := (mksfs ⟨[], List.not_mem_nil⟩ 4090 fun _ => zeros).toOption.getD fun _ => zeros

/-- On it the file "a" is made, gets the name "b" and loses the first. -/
def Renamed (s t : Fs) : Prop :=
  mksfs ⟨[], List.not_mem_nil⟩ 4090 (fun _ => zeros) = .ok image ∧
    domount image 4090 true = .ok (.ok s) ∧
    Lts.Run OpStep s [(.getroot .room, .ok ()),
      (.creat rootLocation (letter 97#8 (by decide)) true .room, .ok ()),
      (.link rootLocation (letter 98#8 (by decide)) 3, .ok ()),
      (.remove rootLocation (letter 97#8 (by decide)) .room, .ok ())] t

theorem exists_renamed : ∃ s t, Renamed s t ∧ t.vnodes = [rootLocation, 3] ∧
    sfiLinkcount (inodeOf t 3) = 1 ∧ ref t rootLocation (.data 0) = 4 := by
  obtain ⟨image', hmk, himage⟩ := mksfs_image ⟨[], List.not_mem_nil⟩ (fun _ => zeros) (n := 4090)
    (by decide) (by decide) (by decide)
  obtain rfl : image' = image := by
    unfold image
    rw [hmk]
    rfl
  refine ⟨_, _, ⟨hmk, (domount_image himage (by decide)).1, .head (opStep_after trivial ?_)
    (.head (opStep_after (show _ ∈ _ from ?_) ?_) (.head (opStep_after ⟨?_, ?_⟩ ?_)
    (.head (opStep_after (show _ ∈ _ from ?_) ?_) .refl)))⟩, ?_, ?_, ?_⟩
  all_goals decide +kernel

/-- Block 4 has been taken for the entries of the directory. -/
theorem blocks_have_one_owner_renamed : ∃ s t, Renamed s t ∧ ref t rootLocation (.data 0) = 4 ∧
    bitmapIsset t.freemap 4 = true ∧
    ∀ u ∈ Live t, ∀ p, ref t u p = 4 → u = rootLocation ∧ p = .data 0 := by
  obtain ⟨s, t, hst, -, -, href⟩ := exists_renamed
  have hroot := (blocks_have_one_owner hst.1 hst.2.1 hst.2.2).2.1 rootLocation (.inl rfl) (.data 0)
  rw [href] at hroot
  obtain ⟨-, -, hset, hone⟩ := hroot (by decide)
  exact ⟨s, t, hst, href, hset, hone⟩

/-- A mounted volume that is consistent, as one made by `mksfs` is, stays so whatever operations
return. No name is in two used slots, and link counts are numbers of slots. In the next operation
exactly those inodes are given back to which neither a slot nor memory refers after it, and if it
fails all slots and link counts are as they were. -/
theorem links_are_names :
    (∀ (volname : Name) (n : Nat) (disk image : Disk) (room : Bool) (s : Fs),
      mksfs volname n disk = .ok image → domount image n room = .ok (.ok s) → Consistent s) ∧
    ∀ (s t : Fs) (ops : List (Op × Except Errno Unit)), Consistent s → Lts.Run OpStep s ops t →
      UniqueNames t rootLocation ∧
      (∀ u ∈ Live t, sfiLinkcount (inodeOf t u) =
        linksTo t u + if u = rootLocation then 1 else 0) ∧
      (∀ op r t', OpStep t (op, r) t' →
        (∀ u ∈ Live t, bitmapIsset t'.freemap u = false ↔
          u ≠ rootLocation ∧ linksTo t' u = 0 ∧ u ∉ t'.vnodes) ∧
        (∀ e, r = .error e → nslots t' rootLocation = nslots t rootLocation ∧
          (∀ i, slotIno t' rootLocation i = slotIno t rootLocation i ∧
            slotName t' rootLocation i = slotName t rootLocation i) ∧
          ∀ u ∈ Live t, sfiLinkcount (inodeOf t' u) = sfiLinkcount (inodeOf t u))) ∧
      ∀ v r t', OpStep t (.decref v, r) t' → (bitmapIsset t'.freemap v = false ↔
        (t.sv v).refcount = 1 ∧ sfiLinkcount (inodeOf t v) = 0) := by
  refine ⟨fun _ _ _ _ _ s hmk hmount => (mksfs_consistent hmk hmount).1, ?_⟩
  intro s t ops hs hrun
  have ht := (consistent_run hs hrun).1
  refine ⟨ht.unique, fun u hu => ?_, fun op r t' hstep => ?_, fun v r t' hstep => ?_⟩
  · have hlinks := ht.links_settled hu
    rw [properLinks] at hlinks
    by_cases hroot : u = rootLocation
    · rw [if_pos hroot] at hlinks ⊢
      omega
    · rw [if_neg hroot] at hlinks ⊢
      omega
  · have hout := ht.outcome hstep
    refine ⟨fun u hu => ?_, fun e he => ?_⟩
    · have hne : u ≠ noIno := ht.ne_zero hu
      have hlinks : linksTo t' u = 0 ↔ ¬ Names t' u := by rw [← linksTo_ne_zero_iff, not_not]
      rw [hout.freed_iff hu, hlinks]
      constructor
      · intro hno
        exact ⟨fun h0 => hno (.inl h0), fun hn => hno (.inr (.inr ⟨hne, hn⟩)),
          fun hin => hno (.inr (.inl hin))⟩
      · rintro ⟨hroot, hnames, hin⟩ (h0 | h0 | h0)
        · exact hroot h0
        · exact hin h0
        · exact hnames h0.2
    · obtain ⟨L, -, -, hkept⟩ := hout.files
      obtain ⟨-, hview⟩ := hkept e he
      exact ⟨hview.nslots_eq, fun i => ⟨hview.slotIno_eq, hview.slotName_eq⟩, hview.linkcount⟩
  · have hv : v ∈ t.vnodes := hstep.1
    have hvL := (ht.own.loaded v hv).1
    obtain ⟨-, hgone⟩ := (ht.decref (C := Unrelated) hv).of_eq hstep.2
    constructor
    · intro hclear
      have hno : v ∉ remaining (Live t) t v := by
        intro hin
        have hset := hgone.volume.own.isset hin
        rw [hclear] at hset
        cases hset
      exact (not_mem_remaining hvL hno).1
    · intro hd
      refine hgone.freed v hvL ?_
      rw [remaining, if_pos (show Discards t v from hd)]
      exact fun hin => hin.2 rfl

/-- One slot has the file's number, as its inode says. -/
theorem links_are_names_renamed : ∃ s t, Renamed s t ∧ sfiLinkcount (inodeOf t 3) = 1 ∧
    linksTo t 3 = 1 ∧ UniqueNames t rootLocation := by
  obtain ⟨s, t, hst, hvnodes, hcount, -⟩ := exists_renamed
  have hs := links_are_names.1 _ _ _ _ _ s hst.1 hst.2.1
  obtain ⟨hunique, hlinks, -⟩ := links_are_names.2 s t _ hs hst.2.2
  have hlive : 3 ∈ Live t := .inr (.inl (by rw [hvnodes]; decide))
  exact ⟨s, t, hst, hcount, (hlinks 3 hlive).symm.trans hcount, hunique⟩

end OS161.Sfs
