import OS161.Sfs.ReadWrite

/-! A directory is a file of slots, each written as a whole or not at all. -/
namespace OS161.Sfs

open Buffer
open Call (ensures_bind after_ok ensures_require ensures_pure Ensures wp)

variable {L : Set Nat} {s t : Fs} {v i j n ino : Nat} {sd sd' : Buf} {name : Name}
  {C : SfsCrash → Prop}

theorem sfdIno_congr (h : ∀ k < dirSize, sd k = sd' k) : sfdIno sd = sfdIno sd' :=
  BigEndian.read_congr fun k _ hk => h k (hk.trans (by decide))

theorem sfdName_congr (h : ∀ k < dirSize, sd k = sd' k) : sfdName sd = sfdName sd' := by
  unfold sfdName
  congr 1
  refine List.map_congr_left fun k hk => h _ ?_
  have := List.mem_range.mp hk
  unfold nameLen at this
  unfold dirSize
  omega

theorem sfdIno_zeros : sfdIno zeros = noIno := BigEndian.read_zero

/-- A name with its last zero fits in the entry. -/
theorem sfdName_dirEntry (h : name.chars.length + 1 ≤ nameLen) :
    sfdName (dirEntry ino name) = name.chars := by
  have hlist : (List.range (nameLen - 1)).map (fun k => dirEntry ino name (4 + k)) =
      name.chars ++ List.replicate (nameLen - 1 - name.chars.length) 0#8 := by
    refine List.ext_getElem ?_ fun k _ _ => ?_
    · simp only [List.length_map, List.length_range, List.length_append, List.length_replicate]
      omega
    have hbyte : dirEntry ino name (4 + k) = name.chars.getD k 0#8 := by
      rw [dirEntry, BigEndian.write_outside (by omega), if_pos (by omega),
        Nat.add_sub_cancel_left]
    rw [List.getElem_map, List.getElem_range, hbyte, List.getElem_append]
    split
    · rename_i hlt
      rw [List.getD_eq_getElem?_getD, List.getElem?_eq_getElem hlt, Option.getD_some]
    · rename_i hge
      rw [List.getElem_replicate, List.getD_eq_getElem?_getD,
        List.getElem?_eq_none (Nat.not_lt.mp hge), Option.getD_none]
  have hchars : ∀ c ∈ name.chars, decide (c ≠ 0#8) = true :=
    fun c hc => decide_eq_true fun h0 => name.nonzero (h0 ▸ hc)
  rw [sfdName, hlist, List.takeWhile_append_of_pos hchars, List.takeWhile_replicate,
    if_neg (by decide), List.append_nil]

/-- What `sfs_readdir` reads from a slot. -/
def slotBuf (s : Fs) (v i : Nat) : Buf := blit zeros 0 (fileByte s v) (i * dirSize) dirSize

def slotIno (s : Fs) (v i : Nat) : Nat := sfdIno (slotBuf s v i)

def slotName (s : Fs) (v i : Nat) : List Byte := sfdName (slotBuf s v i)

def nslots (s : Fs) (v : Nat) : Nat := sfiSize (inodeOf s v) / dirSize

/-- A directory of whole slots. -/
structure IsDir (s : Fs) (v : Nat) : Prop where
  type : sfiType (inodeOf s v) = FileType.dir.code
  whole : sfiSize (inodeOf s v) % dirSize = 0
  size_le : sfiSize (inodeOf s v) ≤ maxBytes

theorem IsDir.size_eq (h : IsDir s v) : sfiSize (inodeOf s v) = nslots s v * dirSize :=
  (Nat.div_mul_cancel (Nat.dvd_of_mod_eq_zero h.whole)).symm

theorem IsDir.slot_le (h : IsDir s v) (hi : i < nslots s v) :
    i * dirSize + dirSize ≤ sfiSize (inodeOf s v) := by
  rw [h.size_eq, ← Nat.succ_mul]
  exact Nat.mul_le_mul_right _ hi

section dir
variable (hv : v ∈ s.vnodes) (hd : IsDir s v)
include hv hd

theorem ensures_dirNentries {Q : Except Errno Nat → Fs → Prop} :
    Ensures C (dirNentries v) Q s ↔ Q (.ok (nslots s v)) s := by
  have htype := hd.type
  have hwhole := hd.whole
  rw [inodeOf_loaded hv] at htype hwhole
  simp only [dirNentries, ensures_bind, Call.ensures_get, after_ok, ensures_require,
    htype, hwhole, true_implies, not_true_eq_false, false_implies, and_true, ensures_pure,
    nslots, inodeOf_loaded hv]

theorem ensures_readdir {Q : Except Errno Buf → Fs → Prop} (h : Own L s) (hi : i < nslots s v) :
    Ensures C (readdir v i) Q s ↔ Q (.ok (slotBuf s v i)) s := by
  have hle := hd.slot_le hi
  have hmax := hd.size_le
  have hlt := maxBytes_lt
  have hpos : offT ((i : Int) * dirSize) = (i * dirSize : Nat) := by
    exact offT_eq (by omega) (by omega)
  have hlen : readLen s v (i * dirSize) dirSize = dirSize := by
    rw [readLen]
    omega
  have hread := withUio_read_below (x := ⟨zeros, mkKuio dirSize (i * dirSize : Nat) .read⟩) h hv
    (at_mkKuio (by decide) (by omega)) rfl (by omega) (by simp only [mkKuio]; omega)
  have hresid : (mkKuio dirSize (i * dirSize : Nat) .read).resid = dirSize := rfl
  rw [hresid, hlen] at hread
  rw [readdir, ensures_bind, hpos, Call.ensures_iff_of_run hread]
  rfl

end dir

/-- No name is in two used slots. -/
def UniqueNames (s : Fs) (v : Nat) : Prop :=
  ∀ i < nslots s v, ∀ j < nslots s v, slotIno s v i ≠ noIno → slotIno s v j ≠ noIno →
    slotName s v i = slotName s v j → i = j

/-- What the search in the first `n` slots knows. -/
structure Scanned (s : Fs) (v : Nat) (name : Name) (n : Nat) (a : Scan) : Prop where
  found : ∀ x, a.found = some x → x.1 < n ∧ x.2 = slotIno s v x.1 ∧ x.2 ≠ noIno ∧
    slotName s v x.1 = name.chars
  missing : a.found = none → ∀ i < n, slotIno s v i ≠ noIno → slotName s v i ≠ name.chars
  empty : ∀ i, a.empty = some i → i < n ∧ slotIno s v i = noIno

/-- One more slot. -/
theorem scanSlot_spec {a : Scan} (hu : UniqueNames s v) (hn : n < nslots s v)
    (h : Scanned s v name n a) :
    wp (scanSlot name a n (slotBuf s v n))
      (fun r t => t = s ∧ ∃ b, r = .ok b ∧ Scanned s v name (n + 1) b) s := by
  have hold : ∀ x, a.found = some x → x.1 < n + 1 ∧ x.2 = slotIno s v x.1 ∧ x.2 ≠ noIno ∧
      slotName s v x.1 = name.chars :=
    fun x hx => ⟨Nat.lt_succ_of_lt (h.found x hx).1, (h.found x hx).2⟩
  have hempty : ∀ i, a.empty = some i → i < n + 1 ∧ slotIno s v i = noIno :=
    fun i hi => ⟨Nat.lt_succ_of_lt (h.empty i hi).1, (h.empty i hi).2⟩
  have hmissing : a.found = none →
      (slotIno s v n ≠ noIno → slotName s v n ≠ name.chars) →
      ∀ i < n + 1, slotIno s v i ≠ noIno → slotName s v i ≠ name.chars := by
    intro hnone hlast i hi
    rcases Nat.lt_succ_iff_lt_or_eq.mp hi with hlt | rfl
    · exact h.missing hnone i hlt
    · exact hlast
  unfold scanSlot
  split
  · rename_i hfree
    refine ⟨rfl, _, rfl, hold, fun hnone => hmissing hnone fun hne => absurd hfree hne, ?_⟩
    rintro i hi
    cases hi
    exact ⟨Nat.lt_succ_self n, hfree⟩
  · rename_i hused
    split
    · rename_i hname
      rw [wp, ensures_bind, ensures_require]
      refine ⟨fun _ => ⟨rfl, _, rfl, ?_, fun hnone => (by cases hnone), hempty⟩, fun htwice => ?_⟩
      · rintro x hx
        cases hx
        exact ⟨Nat.lt_succ_self n, rfl, hused, hname⟩
      -- the name would be in two slots
      obtain ⟨x, hx⟩ := Option.ne_none_iff_exists'.mp htwice
      obtain ⟨hlt, hino, hne, hsame⟩ := h.found x hx
      have := hu x.1 (hlt.trans hn) n hn (hino ▸ hne) hused (hsame.trans hname.symm)
      omega
    · rename_i hother
      exact ⟨rfl, _, rfl, hold, fun hnone => hmissing hnone fun _ => hother, hempty⟩

section dir
variable (hv : v ∈ s.vnodes) (hd : IsDir s v) (h : Own L s) (hu : UniqueNames s v)
include hv hd h hu

theorem scanSlots_spec (hn : n ≤ nslots s v) : wp (scanSlots v name n)
    (fun r t => t = s ∧ ∃ a, r = .ok a ∧ Scanned s v name n a) s := by
  induction n with
  | zero =>
    refine ⟨rfl, _, rfl, ?_, fun _ i hi => absurd hi (Nat.not_lt_zero i), ?_⟩
    · rintro x hx
      cases hx
    · rintro i hi
      cases hi
  | succ n ih =>
    rw [scanSlots, wp, ensures_bind]
    refine (ih (Nat.le_of_lt hn)).mono ?_
    rintro _ _ ⟨rfl, a, rfl, hscan⟩
    rw [after_ok, ensures_bind, ensures_readdir hv hd h hn, after_ok]
    exact scanSlot_spec hu hn hscan

theorem dirFindname_spec : wp (dirFindname v name)
    (fun r t => t = s ∧ ∃ a, r = .ok a ∧ Scanned s v name (nslots s v) a) s := by
  rw [dirFindname, wp, ensures_bind, ensures_dirNentries hv hd, after_ok]
  exact scanSlots_spec hv hd h hu (Nat.le_refl _)

end dir

/-- The directory has an entry with this inode number and name in the slot `i`. -/
structure SlotSet (L : Set Nat) (v i : Nat) (sd : Buf) (s t : Fs) : Prop where
  own : Own L t
  frame : Frame L v s t
  dir : IsDir t v
  nslots_eq : nslots t v = max (nslots s v) (i + 1)
  ino : ∀ j, slotIno t v j = if j = i then sfdIno sd else slotIno s v j
  name : ∀ j, slotName t v j = if j = i then sfdName sd else slotName s v j

/-- The directory has the slots it had. -/
structure SlotsKept (L : Set Nat) (v : Nat) (s t : Fs) : Prop where
  own : Own L t
  frame : Frame L v s t
  size : sfiSize (inodeOf t v) = sfiSize (inodeOf s v)
  bytes : fileByte t v = fileByte s v

theorem slotBuf_blit (sd : Buf) {bytes : Nat → Byte} {k : Nat}
    (hb : fileByte t v = blit bytes (i * dirSize) sd 0 dirSize) (hk : k < dirSize) :
    slotBuf t v j k = if j = i then sd k else bytes (j * dirSize + k) := by
  rw [slotBuf, blit_inside (Nat.zero_le _) (by omega), Nat.sub_zero, hb]
  split
  · rename_i heq
    rw [heq, blit_inside (by omega) (by omega), Nat.zero_add, Nat.add_sub_cancel_left]
  rename_i hne
  refine blit_outside ?_
  rcases Nat.lt_or_gt_of_ne hne with hlt | hgt
  · have := Nat.mul_le_mul_right dirSize (Nat.succ_le_of_lt hlt)
    rw [Nat.succ_mul] at this
    omega
  · have := Nat.mul_le_mul_right dirSize (Nat.succ_le_of_lt hgt)
    rw [Nat.succ_mul] at this
    omega

theorem slotBuf_eq {k : Nat} (hk : k < dirSize) :
    slotBuf s v j k = fileByte s v (j * dirSize + k) := by
  rw [slotBuf, blit_inside (Nat.zero_le _) (by omega), Nat.sub_zero]

/-- A request for one slot. -/
def slotReq (sd : Buf) (i : Nat) (rw : UioRw) : Xfer := ⟨sd, mkKuio dirSize (i * dirSize : Nat) rw⟩

section write
variable (hv : v ∈ s.vnodes) (hd : IsDir s v) (h : Own L s) (hi : i ≤ nslots s v)
include hd hi

theorem IsDir.pos_le : i * dirSize ≤ sfiSize (inodeOf s v) := by
  rw [hd.size_eq]
  exact Nat.mul_le_mul_right _ hi

theorem IsDir.stored (hst : Stored L v (i * dirSize) dirSize (slotReq sd i .write) s t)
    (hin : Within (i * dirSize) dirSize) : SlotSet L v i sd s t := by
  have hsize := hst.size
  have hslots := hd.size_eq
  have hmul : i * dirSize + dirSize = (i + 1) * dirSize := (Nat.succ_mul ..).symm
  have hsize' : sfiSize (inodeOf t v) = max (nslots s v) (i + 1) * dirSize := by
    rw [hsize, hslots, hmul]
    unfold dirSize
    omega
  have hbuf : ∀ j, ∀ k < dirSize, slotBuf t v j k = if j = i then sd k else slotBuf s v j k := by
    intro j k hk
    rw [slotBuf_blit sd hst.bytes hk, slotBuf_eq (s := s) hk]
  refine ⟨hst.own, hst.frame, ⟨?_, ?_, ?_⟩, ?_, fun j => ?_, fun j => ?_⟩
  · rw [hst.frame.type]
    exact hd.type
  · rw [hsize', Nat.mul_mod_left]
  · rw [hsize]
    have := hd.size_le
    unfold Within dirSize at hin
    unfold dirSize
    omega
  · rw [nslots, hsize', Nat.mul_div_cancel _ (by decide)]
  · split
    · rename_i heq
      exact sfdIno_congr fun k hk => (hbuf j k hk).trans (if_pos heq)
    · rename_i hne
      exact sfdIno_congr fun k hk => (hbuf j k hk).trans (if_neg hne)
  · split
    · rename_i heq
      exact sfdName_congr fun k hk => (hbuf j k hk).trans (if_pos heq)
    · rename_i hne
      exact sfdName_congr fun k hk => (hbuf j k hk).trans (if_neg hne)

include hv h

/-- The transfer of a slot of the directory or of the next one. The request has a name, so that
nothing evaluates the call. -/
theorem withUio_slot_spec {x : Xfer} (hx : x = slotReq sd i .write) :
    Ensures C (withUio x (io v)) (fun r t =>
      (∀ y, r = .ok y → y.uio.resid = 0 ∧ SlotSet L v i sd s t) ∧
      (∀ e, r = .error e → SlotsKept L v s t ∧
        (i < nslots s v → ref s v (.data (i * dirSize / blockSize)) = 0))) s := by
  have hle := hd.pos_le hi
  have hsize := hd.size_le
  have hmax := maxBytes_lt
  have hat : At (i * dirSize) x.uio := by
    rw [hx]
    exact at_mkKuio (by decide) (by omega)
  have hrw : x.uio.rw = .write := by rw [hx]; rfl
  have hres : x.uio.resid = dirSize := by rw [hx]; rfl
  have hmapped : Ensures C (withUio x (io v)) (fun r _ => i < nslots s v →
      ref s v (.data (i * dirSize / blockSize)) ≠ 0 → ∀ e, r ≠ .error e) s := by
    rw [withUio, Call.ensures_withLocal]
    by_cases hin : i < nslots s v ∧ ref s v (.data (i * dirSize / blockSize)) ≠ 0
    · have hslot := hd.slot_le hin.1
      refine (io_write_mapped h hv hat hrw ?_ ?_ ?_ ?_ hin.2).mono ?_
      · rw [hres]
        decide
      · rw [hres]
        decide
      · rw [hres]
        unfold dirSize blockSize
        omega
      · unfold dirSize at hslot ⊢
        omega
      · rintro r t rfl _ _ e he
        cases he
    · exact (io_write_spec h hv hat hrw (by omega)).mono fun _ _ _ hlt h0 =>
        absurd ⟨hlt, h0⟩ hin
  refine ((withUio_write_spec h hv hat hrw (by omega)).and hmapped).mono ?_
  rintro (e | y) t ⟨hwritten, hok⟩
  · refine ⟨fun y he => (by cases he), fun e' _ => ⟨?_, fun hlt => ?_⟩⟩
    · obtain ⟨m, hm, hst, -, hstop, -⟩ := hwritten
      have hm0 : m = 0 := by
        unfold dirSize blockSize at *
        omega
      rw [hm0] at hst
      refine ⟨hst.own, hst.frame, ?_, ?_⟩
      · rw [hst.size]
        omega
      · rw [hst.bytes, blit_zero]
    · by_contra h0
      exact hok hlt h0 e rfl
  · obtain ⟨hst, hin, hy⟩ := hwritten
    refine ⟨fun y' he => ?_, fun e he => by cases he⟩
    cases he
    rw [hres] at hst hin
    rw [hx] at hst
    refine ⟨?_, hd.stored hi hst hin⟩
    rw [hy]
    exact Nat.sub_self _

/-- `sfs_writedir`. The slot is written as a whole or not at all; a slot whose block is there is
written. -/
theorem writedir_spec : Ensures C (writedir v sd i) (fun r t =>
    (r = .ok () → SlotSet L v i sd s t) ∧ (∀ e, r = .error e → SlotsKept L v s t ∧
      (i < nslots s v → ref s v (.data (i * dirSize / blockSize)) = 0))) s := by
  have hle := hd.pos_le hi
  have hsize := hd.size_le
  have hmax := maxBytes_lt
  have hpos : offT ((i : Int) * dirSize) = (i * dirSize : Nat) := by
    exact offT_eq (by omega) (by omega)
  rw [writedir, hpos, ensures_bind]
  refine (withUio_slot_spec hv hd h hi rfl).mono ?_
  rintro (e | y) t ⟨hok, herr⟩
  · exact ⟨fun he => (by cases he), fun e' _ => herr e rfl⟩
  obtain ⟨hres, hset⟩ := hok y rfl
  simp only [after_ok, ensures_require, hres, true_implies, not_true_eq_false,
    false_implies, and_true]
  exact ⟨hset, fun e he => by cases he⟩

end write

theorem SlotsKept.refl (h : Own L s) : SlotsKept L v s s := ⟨h, .refl, rfl, rfl⟩

/-- The slot that `sfs_dir_link` has used for a name. -/
structure Linked (L : Set Nat) (v : Nat) (name : Name) (ino slot : Nat) (s t : Fs) : Prop where
  set : SlotSet L v slot (dirEntry ino name) s t
  le : slot ≤ nslots s v
  free : slot < nslots s v → slotIno s v slot = noIno
  fits : name.chars.length + 1 ≤ nameLen
  absent : ∀ i < nslots s v, slotIno s v i ≠ noIno → slotName s v i ≠ name.chars

-- What a call ensures is from here on known by the lemmas above only.
attribute [local irreducible] Ensures

section names
variable (hv : v ∈ s.vnodes) (hd : IsDir s v) (h : Own L s)
include hv hd h

theorem dirLink_spec (hu : UniqueNames s v) : Ensures C (dirLink v name ino) (fun r t =>
    (∀ slot, r = .ok slot → Linked L v name ino slot s t) ∧
      (∀ e, r = .error e → SlotsKept L v s t)) s := by
  have hfail : ∀ e : Errno, (∀ slot, Except.error e = .ok slot → Linked L v name ino slot s s) ∧
      (∀ e', (Except.error e : Except Errno Nat) = .error e' → SlotsKept L v s s) :=
    fun e => ⟨fun _ he => (by cases he), fun _ _ => .refl h⟩
  rw [dirLink, ensures_bind]
  refine ((dirFindname_spec hv hd h hu).weaken fun _ hf => hf.elim).mono ?_
  rintro _ t ⟨rfl, a, rfl, hscan⟩
  rw [after_ok, ensures_bind, Call.ensures_failIf]
  refine ⟨fun _ => hfail _, fun hnone => ?_⟩
  rw [after_ok, ensures_bind, Call.ensures_failIf]
  refine ⟨fun _ => hfail _, fun hfits => ?_⟩
  have habsent := hscan.missing (not_not.mp hnone)
  -- either way the slot is free or the next one
  have hslot : ∀ slot, slot ≤ nslots t v → (slot < nslots t v → slotIno t v slot = noIno) →
      Ensures C (do
        writedir v (dirEntry ino name) slot
        pure slot) (fun r u => (∀ slot, r = .ok slot → Linked L v name ino slot t u) ∧
          (∀ e, r = .error e → SlotsKept L v t u)) t := by
    intro slot hle hfree
    rw [ensures_bind]
    refine (writedir_spec hv hd h hle).mono ?_
    rintro (e | _) u ⟨hok, herr⟩
    · exact ⟨fun _ he => (by cases he), fun _ _ => (herr e rfl).1⟩
    rw [after_ok, ensures_pure]
    refine ⟨fun slot' he => ?_, fun _ he => by cases he⟩
    cases he
    exact ⟨hok rfl, hle, hfree, Nat.not_lt.mp hfits, habsent⟩
  rw [after_ok, ensures_bind, emptySlot]
  cases hempty : a.empty with
  | some slot =>
    obtain ⟨hlt, hfree⟩ := hscan.empty slot hempty
    simp only [ensures_pure, after_ok]
    exact hslot slot hlt.le fun _ => hfree
  | none =>
    rw [ensures_dirNentries hv hd, after_ok]
    exact hslot _ (Nat.le_refl _) fun hlt => absurd hlt (Nat.lt_irrefl _)

omit hv hd h in
/-- A slot in use is in a block of the directory. -/
theorem ref_of_used (hused : slotIno s v i ≠ noIno) :
    ref s v (.data (i * dirSize / blockSize)) ≠ 0 := by
  intro h0
  refine hused ?_
  have hzero : ∀ k < dirSize, slotBuf s v i k = zeros k := by
    intro k hk
    rw [slotBuf_eq hk]
    refine fileByte_hole ?_
    have hsame : (i * dirSize + k) / blockSize = i * dirSize / blockSize := by
      unfold dirSize blockSize at *
      omega
    rw [hsame]
    exact h0
  rw [slotIno, sfdIno_congr hzero]
  exact sfdIno_zeros

theorem dirUnlink_spec (hi : i < nslots s v) (hused : slotIno s v i ≠ noIno) :
    Ensures C (dirUnlink v i) (fun r t => r = .ok () ∧ SlotSet L v i zeros s t) s := by
  refine (writedir_spec hv hd h hi.le).mono ?_
  rintro (e | _) t ⟨hok, herr⟩
  · exact absurd ((herr e rfl).2 hi) (ref_of_used hused)
  · exact ⟨rfl, hok rfl⟩

end names

end OS161.Sfs
