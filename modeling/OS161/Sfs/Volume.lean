import OS161.Lib.Tally
import OS161.Sfs.Directory
import OS161.Sfs.Reclaim

/-! The files of a volume: the root, those with a vnode and those with a name. -/
namespace OS161.Sfs

variable {L L' : Set Nat} {d : Nat → Int} {s t r : Fs} {u v i : Nat}

/-- The types of files, and the contents of the root directory. -/
structure SameNames (L : Set Nat) (s t : Fs) : Prop where
  nblocks : t.nblocks = s.nblocks
  type : ∀ u ∈ L, sfiType (inodeOf t u) = sfiType (inodeOf s u)
  size : sfiSize (inodeOf t rootLocation) = sfiSize (inodeOf s rootLocation)
  bytes : fileByte t rootLocation = fileByte s rootLocation

/-- The same with the link counts of files. -/
structure SameView (L : Set Nat) (s t : Fs) : Prop extends SameNames L s t where
  linkcount : ∀ u ∈ L, sfiLinkcount (inodeOf t u) = sfiLinkcount (inodeOf s u)

theorem SameView.refl : SameView L s s := ⟨⟨rfl, fun _ _ => rfl, rfl, rfl⟩, fun _ _ => rfl⟩

theorem SameView.trans (h : SameView L s t) (h' : SameView L t r) : SameView L s r where
  nblocks := h'.nblocks.trans h.nblocks
  type u hu := (h'.type u hu).trans (h.type u hu)
  size := h'.size.trans h.size
  bytes := h'.bytes.trans h.bytes
  linkcount u hu := (h'.linkcount u hu).trans (h.linkcount u hu)

theorem SameView.mono (h : SameView L s t) (hL : L' ⊆ L) : SameView L' s t :=
  ⟨⟨h.nblocks, fun u hu => h.type u (hL hu), h.size, h.bytes⟩,
    fun u hu => h.linkcount u (hL hu)⟩

theorem Alike.view (h : Alike L s t) (hroot : rootLocation ∈ L) : SameView L s t where
  nblocks := h.nblocks
  type u hu := by rw [h.inode u hu]
  size := by rw [h.inode _ hroot]
  bytes := funext (h.bytes _ hroot)
  linkcount u hu := by rw [h.inode u hu]

theorem Frame.type_eq (h : Frame L v s t) (hu : u ∈ L) :
    sfiType (inodeOf t u) = sfiType (inodeOf s u) := by
  by_cases heq : u = v
  · rw [heq]
    exact h.type
  · rw [h.inode u hu heq]

theorem Frame.linkcount_eq (h : Frame L v s t) (hu : u ∈ L) :
    sfiLinkcount (inodeOf t u) = sfiLinkcount (inodeOf s u) := by
  by_cases heq : u = v
  · rw [heq]
    exact h.linkcount
  · rw [h.inode u hu heq]

theorem Frame.view (h : Frame L v s t) (hroot : rootLocation ∈ L) (hv : v ≠ rootLocation) :
    SameView L s t :=
  ⟨⟨h.nblocks, fun _ => h.type_eq, by rw [h.inode _ hroot hv.symm],
    funext (h.bytes _ hroot hv.symm)⟩, fun _ => h.linkcount_eq⟩

theorem SlotsKept.view (h : SlotsKept L rootLocation s t) : SameView L s t :=
  ⟨⟨h.frame.nblocks, fun _ => h.frame.type_eq, h.size, h.bytes⟩, fun _ => h.frame.linkcount_eq⟩

namespace SameNames
variable (h : SameNames L s t)
include h

theorem nslots_eq : nslots t rootLocation = nslots s rootLocation := by
  rw [nslots, nslots, h.size]

theorem slotIno_eq : slotIno t rootLocation i = slotIno s rootLocation i := by
  rw [slotIno, slotIno, slotBuf, slotBuf, h.bytes]

theorem slotName_eq : slotName t rootLocation i = slotName s rootLocation i := by
  rw [slotName, slotName, slotBuf, slotBuf, h.bytes]

end SameNames

/-- A name of the file. -/
def Names (s : Fs) (u : Nat) : Prop :=
  ∃ i < nslots s rootLocation, slotIno s rootLocation i = u

/-- The number of names of a file. -/
def linksTo (s : Fs) (u : Nat) : Nat :=
  Nat.count (fun i => slotIno s rootLocation i = u) (nslots s rootLocation)

theorem linksTo_ne_zero_iff : linksTo s u ≠ 0 ↔ Names s u := Nat.count_ne_iff_exists

namespace SameNames
variable (h : SameNames L s t)
include h

theorem names_iff : Names t u ↔ Names s u := by
  simp only [Names, h.nslots_eq, h.slotIno_eq]

theorem linksTo_eq : linksTo t u = linksTo s u := by
  simp only [linksTo, h.nslots_eq, h.slotIno_eq]

theorem isDir (hroot : rootLocation ∈ L) (hd : IsDir s rootLocation) : IsDir t rootLocation where
  type := (h.type _ hroot).trans hd.type
  whole := by
    rw [h.size]
    exact hd.whole
  size_le := by
    rw [h.size]
    exact hd.size_le

theorem uniqueNames (hu : UniqueNames s rootLocation) : UniqueNames t rootLocation := by
  unfold UniqueNames
  simp only [h.nslots_eq, h.slotIno_eq, h.slotName_eq]
  exact hu

end SameNames

/-- The link count of a file that is as it should be: the root directory has one of its own. -/
def properLinks (s : Fs) (u : Nat) : Int := linksTo s u + if u = rootLocation then 1 else 0

/-- The files of the volume are those of `L`; `d` is by how much their link counts are off in the
middle of an operation. -/
structure Volume (L : Set Nat) (d : Nat → Int) (s : Fs) : Prop where
  own : Own L s
  root : rootLocation ∈ L
  dir : IsDir s rootLocation
  file : ∀ u ∈ L, u ≠ rootLocation → sfiType (inodeOf s u) = FileType.file.code
  named : ∀ i < nslots s rootLocation, slotIno s rootLocation i ≠ noIno →
    slotIno s rootLocation i ∈ L
  unique : UniqueNames s rootLocation
  links : ∀ u ∈ L, (sfiLinkcount (inodeOf s u) : Int) = properLinks s u + d u
  live : ∀ u ∈ L, u = rootLocation ∨ u ∈ s.vnodes ∨ Names s u

/-- All link counts are right. -/
def settled : Nat → Int := fun _ => 0

/-- The link count of one file is off. -/
def owed (v : Nat) (k : Int) : Nat → Int := fun u => if u = v then k else 0

namespace Volume

section
variable (h : Volume L d s)
include h

theorem names {d' : Nat → Int} (hown : Own L' t) (hsub : L' ⊆ L)
    (hv : SameNames L' s t) (hroot : rootLocation ∈ L')
    (hcount : ∀ u ∈ L', (sfiLinkcount (inodeOf t u) : Int) + d u =
      sfiLinkcount (inodeOf s u) + d' u)
    (hnamed : ∀ i < nslots s rootLocation, slotIno s rootLocation i ≠ noIno →
      slotIno s rootLocation i ∈ L')
    (hlive : ∀ u ∈ L', u ∈ s.vnodes → u = rootLocation ∨ u ∈ t.vnodes ∨ Names s u) :
    Volume L' d' t := by
  refine ⟨hown, hroot, hv.isDir hroot h.dir, fun u hu hne => ?_, fun i hi h0 => ?_,
    hv.uniqueNames h.unique, fun u hu => ?_, fun u hu => ?_⟩
  · rw [hv.type u hu]
    exact h.file u (hsub hu) hne
  · rw [hv.nslots_eq] at hi
    rw [hv.slotIno_eq] at h0 ⊢
    exact hnamed i hi h0
  · have hold := h.links u (hsub hu)
    have hnew := hcount u hu
    unfold properLinks at *
    rw [hv.linksTo_eq]
    omega
  · rw [hv.names_iff]
    rcases h.live u (hsub hu) with hr | hl | hn
    · exact .inl hr
    · exact hlive u hu hl
    · exact .inr (.inr hn)

theorem same (hown : Own L t) (hv : SameView L s t)
    (hvnodes : ∀ u ∈ s.vnodes, u ∈ t.vnodes) : Volume L d t :=
  h.names hown (fun _ hu => hu) hv.toSameNames h.root (fun u hu => by rw [hv.linkcount u hu])
    h.named fun u _ hu => .inr (.inl (hvnodes u hu))

theorem type_dir (hu : u ∈ L) (hd : sfiType (inodeOf s u) = FileType.dir.code) :
    u = rootLocation := by
  by_contra hne
  rw [h.file u hu hne] at hd
  cases hd

theorem knownType (hu : u ∈ L) : KnownType (inodeOf s u) := by
  by_cases hr : u = rootLocation
  · rw [hr]
    exact .inr h.dir.type
  · exact .inl (h.file u hu hr)

theorem linksTo_lt : linksTo s u + 1 < 2 ^ 16 := by
  have hle : linksTo s u ≤ nslots s rootLocation := Nat.count_le _
  have hsize := h.dir.size_eq
  have hmax := h.dir.size_le
  unfold maxBytes maxBlocks ndirect dbperidb blockSize at hmax
  unfold dirSize at hsize
  omega

theorem ne_zero (hu : u ∈ L) : u ≠ noIno := by
  rintro rfl
  exact h.own.ne_zero hu

end

theorem links_settled (h : Volume L settled s) (hu : u ∈ L) :
    (sfiLinkcount (inodeOf s u) : Int) = properLinks s u :=
  (h.links u hu).trans (Int.add_zero _)

/-- A file without links has no name, and is not the root directory. -/
theorem linkcount_eq_zero_iff (h : Volume L settled s) (hu : u ∈ L) :
    sfiLinkcount (inodeOf s u) = 0 ↔ u ≠ rootLocation ∧ ¬ Names s u := by
  have hlinks := h.links_settled hu
  have hnames : linksTo s u = 0 ↔ ¬ Names s u := by rw [← linksTo_ne_zero_iff, not_not]
  rw [← hnames, ← Int.natCast_eq_zero, hlinks, properLinks]
  omega

end Volume

section slots
variable {sd : Buf} {name : Name} {ino : Nat}

/-- One slot has another inode number. -/
theorem SlotSet.linksTo_eq (h : SlotSet L rootLocation i sd s t) (hi : i ≤ nslots s rootLocation) :
    linksTo t u + (if i < nslots s rootLocation ∧ slotIno s rootLocation i = u then 1 else 0) =
      linksTo s u + if sfdIno sd = u then 1 else 0 := by
  have hother : ∀ j, j ≠ i → slotIno t rootLocation j = slotIno s rootLocation j :=
    fun j hj => (h.ino j).trans (if_neg hj)
  have hself : slotIno t rootLocation i = sfdIno sd := (h.ino i).trans (if_pos rfl)
  unfold linksTo
  rw [h.nslots_eq, ← hself]
  rcases Nat.lt_or_eq_of_le hi with hlt | heq
  · rw [Nat.max_eq_left hlt]
    simp only [hlt, true_and]
    exact Tally.count_change hother hlt
  · rw [← heq, Nat.max_eq_right (Nat.le_succ i), if_neg fun hin => Nat.lt_irrefl _ hin.1,
      Nat.add_zero]
    exact Tally.count_next hother

/-- The entry of a slot is set, and the link counts stay. -/
theorem Volume.slotSet {d' : Nat → Int} (h : Volume L d s)
    (hset : SlotSet L rootLocation i sd s t) (hi : i ≤ nslots s rootLocation)
    (hnamed : sfdIno sd ≠ noIno → sfdIno sd ∈ L) (hunique : UniqueNames t rootLocation)
    (hlinks : ∀ u ∈ L, (linksTo t u : Int) + d' u = linksTo s u + d u)
    (hlive : ∀ u ∈ L, Names s u → u ∈ s.vnodes ∨ Names t u) : Volume L d' t where
  own := hset.own
  root := h.root
  dir := hset.dir
  file u hu hne := (hset.frame.type_eq hu).trans (h.file u hu hne)
  named := by
    intro j hj h0
    rw [hset.ino] at h0 ⊢
    split
    · rename_i heq
      rw [if_pos heq] at h0
      exact hnamed h0
    · rename_i hne
      rw [if_neg hne] at h0
      rw [hset.nslots_eq] at hj
      exact h.named j (by omega) h0
  unique := hunique
  links := by
    intro u hu
    have hold := h.links u hu
    have hnew := hlinks u hu
    rw [hset.frame.linkcount_eq hu]
    unfold properLinks at *
    omega
  live := by
    intro u hu
    rw [hset.frame.vnodes]
    rcases h.live u hu with hr | hl | hn
    · exact .inl hr
    · exact .inr (.inl hl)
    · exact .inr (hlive u hu hn)

/-- A name for a file whose link count is then one too small. -/
theorem Volume.linked {slot : Nat} (h : Volume L settled s) (hino : ino ∈ L)
    (hl : Linked L rootLocation name ino slot s t) : Volume L (owed ino (-1)) t := by
  have hlt : ino < 2 ^ 32 :=
    (h.own.lt_nblocks hino).trans_le (h.own.format.small.trans (by decide))
  have hentry : sfdIno (dirEntry ino name) = ino := BigEndian.read_write_of_lt hlt
  have hname : sfdName (dirEntry ino name) = name.chars := sfdName_dirEntry hl.fits
  -- the other slots in use have the names they had, none of them the new one
  have hold : ∀ j < nslots t rootLocation, slotIno t rootLocation j ≠ noIno → j ≠ slot →
      slotName t rootLocation j = slotName s rootLocation j ∧
        slotIno s rootLocation j ≠ noIno ∧ j < nslots s rootLocation := by
    intro j hj h0 hne
    rw [hl.set.ino, if_neg hne] at h0
    rw [hl.set.nslots_eq] at hj
    have hle := hl.le
    refine ⟨?_, h0, by omega⟩
    rw [hl.set.name, if_neg hne]
  have hnew : slotName t rootLocation slot = name.chars := by
    rw [hl.set.name, if_pos rfl, hname]
  refine h.slotSet hl.set hl.le (fun _ => hentry.symm ▸ hino) ?_ (fun u hu => ?_) fun u hu hn => ?_
  · intro j hj k hk hj0 hk0 hsame
    by_cases hjs : j = slot <;> by_cases hks : k = slot
    · rw [hjs, hks]
    · obtain ⟨hkn, hk0', hkl⟩ := hold k hk hk0 hks
      refine absurd ?_ (hl.absent k hkl hk0')
      rw [← hkn, ← hsame, hjs, hnew]
    · obtain ⟨hjn, hj0', hjl⟩ := hold j hj hj0 hjs
      refine absurd ?_ (hl.absent j hjl hj0')
      rw [← hjn, hsame, hks, hnew]
    · obtain ⟨hjn, hj0', hjl⟩ := hold j hj hj0 hjs
      obtain ⟨hkn, hk0', hkl⟩ := hold k hk hk0 hks
      exact h.unique j hjl k hkl hj0' hk0' (hjn.symm.trans (hsame.trans hkn))
  · have hcount := hl.set.linksTo_eq (u := u) hl.le
    rw [if_neg, hentry] at hcount
    · unfold owed settled
      by_cases heq : u = ino
      · rw [if_pos heq.symm] at hcount
        omega
      · rw [if_neg (Ne.symm heq)] at hcount
        omega
    · rintro ⟨hlt, rfl⟩
      exact h.ne_zero hu (hl.free hlt)
  · obtain ⟨j, hj, rfl⟩ := hn
    refine .inr ⟨j, ?_, ?_⟩
    · rw [hl.set.nslots_eq]
      omega
    · rw [hl.set.ino, if_neg]
      rintro rfl
      exact h.ne_zero hu (hl.free hj)

/-- A file that is in memory loses a name, and its link count is then one too large. -/
theorem Volume.unlinked (h : Volume L settled s) (hset : SlotSet L rootLocation i zeros s t)
    (hi : i < nslots s rootLocation) (hino : slotIno s rootLocation i = ino)
    (hload : ino ∈ s.vnodes) : Volume L (owed ino 1) t := by
  have hnslots : nslots t rootLocation = nslots s rootLocation := by
    rw [hset.nslots_eq]
    omega
  have hold : ∀ j, slotIno t rootLocation j ≠ noIno → j ≠ i ∧
      slotIno t rootLocation j = slotIno s rootLocation j := by
    intro j h0
    have hne : j ≠ i := by
      rintro rfl
      refine h0 ?_
      rw [hset.ino, if_pos rfl]
      exact sfdIno_zeros
    exact ⟨hne, (hset.ino j).trans (if_neg hne)⟩
  refine h.slotSet hset hi.le (fun h0 => absurd sfdIno_zeros h0) ?_ (fun u hu => ?_)
    fun u hu hn => ?_
  · intro j hj k hk hj0 hk0 hsame
    obtain ⟨hjne, hjs⟩ := hold j hj0
    obtain ⟨hkne, hks⟩ := hold k hk0
    rw [hset.name, hset.name, if_neg hjne, if_neg hkne] at hsame
    rw [hnslots] at hj hk
    exact h.unique j hj k hk (hjs ▸ hj0) (hks ▸ hk0) hsame
  · have hcount := hset.linksTo_eq (u := u) hi.le
    have hused : ¬ noIno = u := Ne.symm (h.ne_zero hu)
    rw [sfdIno_zeros, if_neg hused, hino] at hcount
    unfold owed settled
    by_cases heq : u = ino
    · rw [if_pos ⟨hi, heq.symm⟩] at hcount
      omega
    · rw [if_neg fun hin => heq hin.2.symm] at hcount
      omega
  · obtain ⟨j, hj, rfl⟩ := hn
    by_cases hji : j = i
    · rw [hji, hino]
      exact .inl hload
    · exact .inr ⟨j, hj.trans_eq hnslots.symm, (hset.ino j).trans (if_neg hji)⟩

end slots

end OS161.Sfs
