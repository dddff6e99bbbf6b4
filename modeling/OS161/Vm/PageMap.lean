import OS161.Lib.Run
import OS161.Vm.Demand

/-! What a lookup finds depends on the latest update for the page and on nothing else. -/
namespace OS161

open Machine
open Function (update update_self update_of_ne)
open Coremap (frameAddr_ne_zero frameAddr_inj)

inductive PtEvent where
  | first (va second : Vaddr)
  | second (va frame : Vaddr) (flags : Word)
  /-- Something that leaves the pages of the table alone. -/
  | other

/-- The frame holds the first-level table or one of the second level. -/
def Machine.TableFrame (m : Machine) (pt : Vaddr) (f : Nat) : Prop :=
  f = m.frameOf pt ∨
    ∃ i, i < 1024 ∧ m.word pt i ≠ 0#32 ∧ f = m.frameOf (paddrToKvaddr (m.word pt i))

/-- The calls as `vm_fault` makes them: a new second-level table is a cleared page that is no table
yet, and an entry is only made where there is one. -/
inductive PtStep (pt : Vaddr) : Machine → PtEvent → Machine → Prop where
  | first {m : Machine} {va : Vaddr} {f : Nat} (hempty : m.word pt (index1 va) = 0#32)
      (hf : f < m.coremap.size) (hnew : ¬ m.TableFrame pt f)
      (hzero : ∀ j, j < 1024 → m.mem f j = 0#32) :
    PtStep pt m (.first va (m.kva f)) (m.updateFirstPtEntry pt va (m.kva f))
  | second {m : Machine} {va frame : Vaddr} {flags : Word} (hslot : m.word pt (index1 va) ≠ 0#32)
      (hframe : pageOf frame = frame) :
    PtStep pt m (.second va frame flags) (m.updateSecondPtEntry pt va frame flags).2
  | other {m m' : Machine} (hs : SameFrames m m')
      (hkeep : ∀ f, m.TableFrame pt f → m'.mem f = m.mem f) : PtStep pt m .other m'

/-- What one more call makes of the latest update for a page. -/
def PtEvent.update (va : Vaddr) (o : Option (Vaddr × Word)) : PtEvent → Option (Vaddr × Word)
  | .second va' frame flags => if pageOf va' = pageOf va then some (frame, flags) else o
  | _ => o

/-- The frame and the flags of the latest update for the page. -/
def latest (es : List PtEvent) (va : Vaddr) : Option (Vaddr × Word) :=
  es.foldl (PtEvent.update va) none

/-- Some call was an update for the page. -/
def Updated (es : List PtEvent) (va : Vaddr) : Prop :=
  ∃ va' frame flags, .second va' frame flags ∈ es ∧ pageOf va' = pageOf va

/-- The 4 MB slot of the address has got a table. -/
def HasTable (es : List PtEvent) (va : Vaddr) : Prop :=
  ∃ va' second, .first va' second ∈ es ∧ index1 va' = index1 va

/-- The call is for the page itself, or makes the table of its slot. -/
def PtEvent.Concerns (va : Vaddr) : PtEvent → Prop
  | .first va' _ => index1 va' = index1 va
  | .second va' _ _ => pageOf va' = pageOf va
  | .other => False

/-- The word in the table for that update. -/
def entryFor : Option (Vaddr × Word) → Word
  | none => 0#32
  | some (frame, flags) => newEntry frame flags

/-- What a lookup reports for the word it finds in a second-level table. -/
def lookupEntry (e : Word) (faulttype : FaultType) : Lookup × Word :=
  if isValid e then
    match faulttype with
    | .readonly =>
      (if isDirty e then .writePermitted else .writeNotPermitted, e &&& ~~~pteReadonly)
    | _ => (.pteFound, if isReadonly e then e &&& ~~~tlbloDirty else e)
  else (.invalid, 0#32)

/-- The table in frame `d` holds the latest update for each page. -/
structure Walks (d : Nat) (es : List PtEvent) (m : Machine) : Prop where
  dir : d < m.coremap.size
  table : ∀ i, i < 1024 → m.mem d i ≠ 0#32 →
    ∃ g, g < m.coremap.size ∧ m.mem d i = m.coremap.frameAddr g ∧ g ≠ d
  inj : ∀ i j, i < 1024 → j < 1024 → m.mem d i ≠ 0#32 → m.mem d i = m.mem d j → i = j
  slot : ∀ va, m.mem d (index1 va) ≠ 0#32 ↔ HasTable es va
  entry : ∀ va g, g < m.coremap.size → m.mem d (index1 va) = m.coremap.frameAddr g →
    m.mem g (index2 va) = entryFor (latest es va)
  missing : ∀ va, m.mem d (index1 va) = 0#32 → latest es va = none
  aligned : ∀ va frame flags, latest es va = some (frame, flags) → pageOf frame = frame

section
variable {m m' : Machine} {es : List PtEvent} {a : PtEvent} {d f g : Nat} {va va' frame : Vaddr}
  {flags : Word}

theorem latest_append : latest (es ++ [a]) va = a.update va (latest es va) := by
  simp [latest]

theorem latest_eq_none_iff : latest es va = none ↔ ¬ Updated es va := by
  have hfold : ∀ o, es.foldl (PtEvent.update va) o = none ↔ o = none ∧ ¬ Updated es va := by
    induction es with
    | nil => simp [Updated]
    | cons a es ih =>
      intro o
      rw [List.foldl_cons, ih]
      cases a with
      | first | other => simp [PtEvent.update, Updated]
      | second va' frame flags =>
        by_cases hp : pageOf va' = pageOf va
        · simp only [PtEvent.update, if_pos hp, reduceCtorEq, false_and, false_iff, not_and,
            not_not]
          exact fun _ => ⟨va', frame, flags, List.mem_cons_self, hp⟩
        simp only [PtEvent.update, if_neg hp, Updated, List.mem_cons]
        refine and_congr_right fun _ => not_congr ⟨?_, ?_⟩
        · rintro ⟨v, f, g, hmem, hv⟩
          exact ⟨v, f, g, .inr hmem, hv⟩
        rintro ⟨v, f, g, heq | hmem, hv⟩
        · cases heq
          exact absurd hv hp
        · exact ⟨v, f, g, hmem, hv⟩
  rw [latest, hfold]
  exact and_iff_right rfl

theorem hasTable_append : HasTable (es ++ [a]) va ↔
    HasTable es va ∨ ∃ va' second, a = .first va' second ∧ index1 va' = index1 va := by
  constructor
  · rintro ⟨va', second, hmem, hi⟩
    rcases List.mem_append.mp hmem with hmem | hmem
    · exact .inl ⟨va', second, hmem, hi⟩
    · exact .inr ⟨va', second, (List.mem_singleton.mp hmem).symm, hi⟩
  · rintro (⟨va', second, hmem, hi⟩ | ⟨va', second, rfl, hi⟩)
    · exact ⟨va', second, List.mem_append_left _ hmem, hi⟩
    · exact ⟨va', second, List.mem_append_right _ List.mem_cons_self, hi⟩

theorem tableFrame_dir (hd : d < m.coremap.size) : m.TableFrame (m.kva d) d :=
  .inl (frameOf_kva hd).symm

theorem tableFrame_table {i : Nat} (hd : d < m.coremap.size) (hg : g < m.coremap.size)
    (hi : i < 1024) (hw : m.mem d i = m.coremap.frameAddr g) : m.TableFrame (m.kva d) g := by
  refine .inr ⟨i, hi, ?_, ?_⟩
  · rw [word_kva hd, hw]
    exact frameAddr_ne_zero hg
  · rw [word_kva hd, hw]
    exact (frameOf_kva hg).symm

variable {pt : Vaddr}

section
variable (h : Walks d es m)
include h

/-- The second-level table of a slot. -/
theorem Walks.frame_ne (hg : g < m.coremap.size)
    (hw : m.mem d (index1 va) = m.coremap.frameAddr g) : g ≠ d := by
  have hne : m.mem d (index1 va) ≠ 0#32 := by
    rw [hw]
    exact frameAddr_ne_zero hg
  obtain ⟨g', hg', hw', hgd⟩ := h.table _ (index1_lt va) hne
  rw [hw, frameAddr_inj hg hg'] at hw'
  rwa [hw']

/-- `update_first_pt_entry` -/
theorem Walks.first (hempty : m.mem d (index1 va) = 0#32)
    (hf : f < m.coremap.size) (hnew : ¬ m.TableFrame (m.kva d) f)
    (hzero : ∀ j, j < 1024 → m.mem f j = 0#32) (second : Vaddr) :
    Walks d (es ++ [.first va second]) (m.updateFirstPtEntry (m.kva d) va (m.kva f)) := by
  have hd := h.dir
  have hfd : f ≠ d := by
    intro heq
    rw [heq] at hnew
    exact hnew (tableFrame_dir hd)
  have hnot : ∀ i, i < 1024 → m.mem d i ≠ m.coremap.frameAddr f :=
    fun i hi hw => hnew (tableFrame_table hd hf hi hw)
  -- Only the word of the slot changes.
  have hmem : (m.updateFirstPtEntry (m.kva d) va (m.kva f)).mem =
      update m.mem d (update (m.mem d) (index1 va) (m.coremap.frameAddr f)) := by
    rw [updateFirstPtEntry, setWord_mem, frameOf_kva hd, kvaddrToPaddr_kva]
  have hdir : ∀ k, (m.updateFirstPtEntry (m.kva d) va (m.kva f)).mem d k =
      if k = index1 va then m.coremap.frameAddr f else m.mem d k := by
    intro k
    rw [hmem, update_self, Function.update_apply]
  have hother : ∀ k, k ≠ d → (m.updateFirstPtEntry (m.kva d) va (m.kva f)).mem k = m.mem k := by
    intro k hk
    rw [hmem, update_of_ne hk]
  have hlatest : ∀ va', latest (es ++ [.first va second]) va' = latest es va' :=
    fun va' => latest_append
  refine ⟨hd, ?_, ?_, ?_, ?_, ?_, ?_⟩
  · intro i hi hne
    rw [hdir] at hne ⊢
    split at hne
    · rename_i heq
      rw [if_pos heq]
      exact ⟨f, hf, rfl, hfd⟩
    · rename_i heq
      rw [if_neg heq]
      exact h.table i hi hne
  · intro i j hi hj hne heq
    rw [hdir] at hne
    rw [hdir, hdir] at heq
    by_cases hii : i = index1 va
    · by_cases hjj : j = index1 va
      · rw [hii, hjj]
      · rw [if_pos hii, if_neg hjj] at heq
        exact absurd heq.symm (hnot j hj)
    by_cases hjj : j = index1 va
    · rw [if_neg hii, if_pos hjj] at heq
      exact absurd heq (hnot i hi)
    · rw [if_neg hii, if_neg hjj] at heq
      rw [if_neg hii] at hne
      exact h.inj i j hi hj hne heq
  · intro va'
    rw [hdir, hasTable_append, ← h.slot va']
    by_cases heq : index1 va' = index1 va
    · rw [if_pos heq]
      exact iff_of_true (frameAddr_ne_zero hf) (.inr ⟨va, second, rfl, heq.symm⟩)
    rw [if_neg heq]
    refine (or_iff_left ?_).symm
    rintro ⟨va'', s, hev, hi⟩
    cases hev
    exact heq hi.symm
  · intro va' g hg hw
    rw [hdir] at hw
    rw [hlatest]
    by_cases heq : index1 va' = index1 va
    · rw [if_pos heq] at hw
      obtain rfl := (frameAddr_inj hf hg).mp hw
      rw [hother f hfd, hzero _ (index2_lt va'), h.missing va' (by rw [heq, hempty])]
      rfl
    · rw [if_neg heq] at hw
      rw [hother g (h.frame_ne hg hw)]
      exact h.entry va' g hg hw
  · intro va' hw
    rw [hdir] at hw
    rw [hlatest]
    split at hw
    · exact absurd hw (frameAddr_ne_zero hf)
    · exact h.missing va' hw
  · intro va' frame flags hl
    rw [hlatest] at hl
    exact h.aligned va' frame flags hl

/-- `update_second_pt_entry` -/
theorem Walks.second (hslot : m.mem d (index1 va) ≠ 0#32)
    (hframe : pageOf frame = frame) : Walks d (es ++ [.second va frame flags])
      (m.updateSecondPtEntry (m.kva d) va frame flags).2 := by
  have hd := h.dir
  obtain ⟨g₀, hg₀, hw₀, hgd⟩ := h.table _ (index1_lt va) hslot
  have hmem : (m.updateSecondPtEntry (m.kva d) va frame flags).2.mem =
      update m.mem g₀
        (update (m.mem g₀) (index2 va) (newEntry frame flags)) := by
    have hsecond : paddrToKvaddr (m.word (m.kva d) (index1 va)) = m.kva g₀ := by
      rw [word_kva hd, hw₀]
      rfl
    rw [updateSecondPtEntry, setWord_mem, hsecond, frameOf_kva hg₀]
  have hdir : (m.updateSecondPtEntry (m.kva d) va frame flags).2.mem d = m.mem d := by
    rw [hmem, update_of_ne hgd.symm]
  refine ⟨hd, ?_, ?_, ?_, ?_, ?_, ?_⟩
  · rw [hdir]
    exact h.table
  · rw [hdir]
    exact h.inj
  · intro va'
    rw [hdir, hasTable_append, h.slot va']
    refine (or_iff_left ?_).symm
    rintro ⟨va'', s, hev, -⟩
    cases hev
  · intro va' g hg hw
    rw [hdir] at hw
    rw [hmem, latest_append]
    have hold := h.entry va' g hg hw
    by_cases hgg : g = g₀
    · subst hgg
      have hi : index1 va' = index1 va :=
        h.inj _ _ (index1_lt va') (index1_lt va) (by rw [hw]; exact frameAddr_ne_zero hg)
          (hw.trans hw₀.symm)
      rw [update_self]
      by_cases hj : index2 va' = index2 va
      · rw [hj, update_self, PtEvent.update, if_pos (pageOf_eq_iff.mpr ⟨hi.symm, hj.symm⟩)]
        rfl
      · rw [update_of_ne hj, PtEvent.update, if_neg, hold]
        exact fun hp => hj (pageOf_eq_iff.mp hp).2.symm
    · rw [update_of_ne hgg, PtEvent.update, if_neg, hold]
      intro hp
      rw [← (pageOf_eq_iff.mp hp).1, hw₀] at hw
      exact hgg ((frameAddr_inj hg₀ hg).mp hw).symm
  · intro va' hw
    rw [hdir] at hw
    rw [latest_append, PtEvent.update, if_neg, h.missing va' hw]
    intro hp
    rw [← (pageOf_eq_iff.mp hp).1] at hw
    exact hslot hw
  · intro va' frame' flags' hl
    rw [latest_append, PtEvent.update] at hl
    split at hl
    · cases hl
      exact hframe
    · exact h.aligned va' frame' flags' hl

theorem Walks.other (hs : SameFrames m m')
    (hkeep : ∀ f, m.TableFrame (m.kva d) f → m'.mem f = m.mem f) : Walks d (es ++ [.other]) m' := by
  have hd := h.dir
  have hdir := hkeep d (tableFrame_dir hd)
  have hlatest : ∀ va, latest (es ++ [.other]) va = latest es va := fun va => latest_append
  refine ⟨by rw [hs.size]; exact hd, ?_, ?_, ?_, ?_, ?_, ?_⟩
  · intro i hi hne
    rw [hdir] at hne ⊢
    obtain ⟨g, hg, hw, hgd⟩ := h.table i hi hne
    exact ⟨g, by rw [hs.size]; exact hg, by rw [hs.frameAddr]; exact hw, hgd⟩
  · rw [hdir]
    exact h.inj
  · intro va
    rw [hdir, hasTable_append, h.slot va]
    refine (or_iff_left ?_).symm
    rintro ⟨va', s, hev, -⟩
    cases hev
  · intro va g hg hw
    rw [hs.size] at hg
    rw [hdir, hs.frameAddr] at hw
    rw [hlatest, hkeep g (tableFrame_table hd hg (index1_lt va) hw)]
    exact h.entry va g hg hw
  · intro va hw
    rw [hdir] at hw
    rw [hlatest]
    exact h.missing va hw
  · intro va frame flags hl
    rw [hlatest] at hl
    exact h.aligned va frame flags hl

omit h in
/-- `pt_create` -/
theorem Walks.create (hpt : m.ptCreate = (some pt, m')) : ∃ d, pt = m'.kva d ∧ Walks d [] m' := by
  simp only [ptCreate, kmallocZeroed] at hpt
  split at hpt
  · rename_i addr m₁ hk
    simp only [Prod.mk.injEq, Option.some.injEq] at hpt
    obtain ⟨rfl, rfl⟩ := hpt
    obtain ⟨d, hd, -, rfl, -, hs, -⟩ := kmallocPage_some hk
    have hzero : ∀ i, (m₁.setPage (m.kva d) zeroPage).mem d i = 0#32 := by
      intro i
      rw [setPage_mem, hs.frameOf, frameOf_kva hd, update_self]
      rfl
    refine ⟨d, (hs.kva d).symm, ?_⟩
    refine ⟨by rw [setPage_coremap, hs.size]; exact hd, ?_, ?_, ?_, ?_, ?_, ?_⟩
    · exact fun i _ hne => absurd (hzero i) hne
    · exact fun i j _ _ hne => absurd (hzero i) hne
    · refine fun va => iff_of_false (not_not_intro (hzero _)) ?_
      rintro ⟨va', second, hmem, -⟩
      cases hmem
    · intro va g hg hw
      rw [hzero] at hw
      exact absurd hw.symm (frameAddr_ne_zero hg)
    · exact fun va _ => rfl
    · rintro va frame flags hl
      cases hl
  · cases hpt

omit h in
theorem Walks.step (hpt : pt = m.kva d) (h : Walks d es m) (hs : PtStep pt m a m') :
    pt = m'.kva d ∧ Walks d (es ++ [a]) m' := by
  subst hpt
  cases hs with
  | first hempty hf hnew hzero =>
    rw [word_kva h.dir] at hempty
    exact ⟨rfl, h.first hempty hf hnew hzero _⟩
  | second hslot hframe =>
    rw [word_kva h.dir] at hslot
    exact ⟨rfl, h.second hslot hframe⟩
  | other hs hkeep => exact ⟨(hs.kva d).symm, h.other hs hkeep⟩

omit h in
/-- What every run of calls keeps, from `pt_create` on. -/
theorem Walks.run {m₀ m₁ : Machine} (hpt : m₀.ptCreate = (some pt, m₁))
    (hrun : Lts.Run (PtStep pt) m₁ es m) : ∃ d, pt = m.kva d ∧ Walks d es m := by
  obtain ⟨d, hd, h0⟩ := Walks.create hpt
  exact ⟨d, hrun.history (fun es m => pt = m.kva d ∧ Walks d es m) ⟨hd, h0⟩
    fun _ _ _ _ h hs => h.2.step h.1 hs⟩

theorem Walks.latest_none (ht : ¬ HasTable es va) : latest es va = none :=
  h.missing va (not_not.mp ((h.slot va).not.mpr ht))

theorem Walks.lookup_noTable (ht : ¬ HasTable es va) (ft : FaultType) :
    m.ptLookup (m.kva d) va ft = (.noSecondLevelPt, 0#32) := by
  have hw := not_not.mp ((h.slot va).not.mpr ht)
  rw [ptLookup, word_kva h.dir, if_pos hw]

/-- Where there is a table, the lookup is decided by the latest update. -/
theorem Walks.lookup_table (ht : HasTable es va) (ft : FaultType) :
    m.ptLookup (m.kva d) va ft = lookupEntry (entryFor (latest es va)) ft := by
  have hne := (h.slot va).mpr ht
  obtain ⟨g, hg, hw, -⟩ := h.table _ (index1_lt va) hne
  have hent : m.word (paddrToKvaddr (m.word (m.kva d) (index1 va))) (index2 va) =
      entryFor (latest es va) := by
    rw [word_kva h.dir, hw, ← h.entry va g hg hw]
    exact word_kva hg
  rw [ptLookup, hent, if_neg (by rwa [word_kva h.dir])]
  rfl

theorem Walks.lookup_congr {es' : List PtEvent} (h' : Walks d es' m')
    (hl : latest es' va = latest es va) (ht : HasTable es' va ↔ HasTable es va) (ft : FaultType) :
    m'.ptLookup (m'.kva d) va ft = m.ptLookup (m.kva d) va ft := by
  by_cases hte : HasTable es va
  · rw [h.lookup_table hte, h'.lookup_table (ht.mpr hte), hl]
  · rw [h.lookup_noTable hte, h'.lookup_noTable (ht.not.mpr hte)]

omit h in
/-- The frame address as it stands in an entry. -/
theorem ppage_kvaddrToPaddr (h : pageOf frame = frame) :
    ppage (kvaddrToPaddr frame) = kvaddrToPaddr frame := by
  have hn := congrArg BitVec.toNat h
  have hk : (kvaddrToPaddr frame).toNat = (2147483648 + frame.toNat) % 4294967296 :=
    BitVec.toNat_sub _ _
  rw [toNat_pageOf] at hn
  refine (ppage_eq_pageOf _).trans (BitVec.eq_of_toNat_eq ?_)
  rw [toNat_pageOf, hk]
  have hsum : 4096 ∣ 2147483648 + frame.toNat :=
    (Nat.dvd_add_right ⟨524288, rfl⟩).mpr (hn ▸ Nat.dvd_mul_left ..)
  exact Nat.div_mul_cancel ((Nat.dvd_mod_iff ⟨1048576, rfl⟩).mpr hsum)

omit h in
theorem ppage_newEntry_aligned (h : pageOf frame = frame) :
    ppage (newEntry frame flags) = kvaddrToPaddr frame := by
  unfold newEntry
  split <;> simp [ppage_kvaddrToPaddr h]

omit h in
theorem isReadonly_newEntry_aligned (h : pageOf frame = frame) :
    isReadonly (newEntry frame flags) = false := by
  have hr := isReadonly_of_ppage (ppage_kvaddrToPaddr h)
  unfold newEntry
  split <;> simp [hr]

omit h in
theorem isDirty_newEntry (h : pageOf frame = frame) :
    isDirty (newEntry frame flags) = true ↔ flags &&& pfW ≠ 0#32 := by
  have hr : kvaddrToPaddr frame &&& tlbloDirty = 0#32 :=
    and_eq_zero_of_ppage (ppage_kvaddrToPaddr h) rfl
  have hd : isDirty (kvaddrToPaddr frame) = false := by rw [isDirty, hr]; rfl
  unfold newEntry
  split
  · simp_all
  · simp_all

theorem Walks.updated_hasTable (hu : Updated es va) : HasTable es va := by
  by_contra ht
  exact latest_eq_none_iff.mp (h.latest_none ht) hu

theorem Walks.lookup_some (hl : latest es va = some (frame, flags)) (ft : FaultType) :
    m.ptLookup (m.kva d) va ft = lookupEntry (newEntry frame flags) ft := by
  have ht : HasTable es va := by
    refine h.updated_hasTable (not_not.mp fun hn => ?_)
    rw [latest_eq_none_iff.mpr hn] at hl
    cases hl
  rw [h.lookup_table ht, hl]
  rfl

omit h in
theorem lookupEntry_newEntry (hf : pageOf frame = frame) (ft : FaultType) :
    lookupEntry (newEntry frame flags) ft =
      if ft = .readonly then
        (if flags &&& pfW ≠ 0#32 then .writePermitted else .writeNotPermitted,
          newEntry frame flags &&& ~~~pteReadonly) else (.pteFound, newEntry frame flags) := by
  have hd : isDirty (newEntry frame flags) = true ↔ flags &&& pfW ≠ 0#32 := isDirty_newEntry hf
  have hr : isReadonly (newEntry frame flags) = false := isReadonly_newEntry_aligned hf
  cases ft <;> simp [lookupEntry, isValid_newEntry, hr, hd]

/-- What the lookups of the page have to report after the calls `es`. -/
structure Answers (es : List PtEvent) (m : Machine) (pt va : Vaddr) : Prop where
  noTable : ∀ ft, (m.ptLookup pt va ft).1 = .noSecondLevelPt ↔ ¬ Updated es va ∧ ¬ HasTable es va
  invalid : ∀ ft, (m.ptLookup pt va ft).1 = .invalid ↔ ¬ Updated es va ∧ HasTable es va
  found : Updated es va → ∃ frame flags, latest es va = some (frame, flags) ∧
    ∀ ft, ft ≠ .readonly → ∃ e, m.ptLookup pt va ft = (.pteFound, e) ∧
      ppage e = kvaddrToPaddr frame ∧ isValid e = true ∧ isReadonly e = false ∧
      (isDirty e = true ↔ flags &&& pfW ≠ 0#32)
  writable : (m.ptLookup pt va .readonly).1 = .writePermitted ↔
    ∃ frame flags, latest es va = some (frame, flags) ∧ flags &&& pfW ≠ 0#32

theorem Walks.answers (va : Vaddr) : Answers es m (m.kva d) va := by
  rcases hl : latest es va with - | ⟨frame, flags⟩
  · have hu := latest_eq_none_iff.mp hl
    by_cases ht : HasTable es va
    · have hlook : ∀ ft, m.ptLookup (m.kva d) va ft = (.invalid, 0#32) := by
        intro ft
        rw [h.lookup_table ht, hl]
        rfl
      exact ⟨by simp [hlook, ht], by simp [hlook, hu, ht], fun hup => absurd hup hu,
        by simp [hlook, hl]⟩
    · exact ⟨by simp [h.lookup_noTable ht, hu, ht], by simp [h.lookup_noTable ht, ht],
        fun hup => absurd hup hu, by simp [h.lookup_noTable ht, hl]⟩
  · have hu : Updated es va := by
      by_contra hn
      rw [latest_eq_none_iff.mpr hn] at hl
      cases hl
    have hf := h.aligned va frame flags hl
    have hlook := fun ft => (h.lookup_some hl ft).trans (lookupEntry_newEntry hf ft)
    refine ⟨?_, ?_, fun _ => ⟨frame, flags, hl, ?_⟩, ?_⟩
    · intro ft
      rw [hlook ft]
      by_cases hw : flags &&& pfW = 0#32 <;> cases ft <;> simp [hw, hu]
    · intro ft
      rw [hlook ft]
      by_cases hw : flags &&& pfW = 0#32 <;> cases ft <;> simp [hw, hu]
    · intro ft hft
      refine ⟨_, by rw [hlook ft, if_neg hft], ppage_newEntry_aligned hf, isValid_newEntry _,
        isReadonly_newEntry_aligned hf, isDirty_newEntry hf⟩
    · rw [hlook, hl]
      by_cases hw : flags &&& pfW = 0#32 <;> simp [hw]

end

theorem Walks.lookup_step (hpt : pt = m.kva d) (h : Walks d es m)
    (hs : PtStep pt m a m') (ha : ¬ a.Concerns va) (ft : FaultType) :
    m'.ptLookup pt va ft = m.ptLookup pt va ft := by
  obtain ⟨hpt', h'⟩ := h.step hpt hs
  have hl : latest (es ++ [a]) va = latest es va := by
    rw [latest_append]
    cases a with
    | second va' frame flags => exact if_neg ha
    | first | other => rfl
  have ht : HasTable (es ++ [a]) va ↔ HasTable es va := by
    rw [hasTable_append]
    refine or_iff_left ?_
    rintro ⟨va', second, rfl, hi⟩
    exact ha hi
  have hc := h.lookup_congr h' hl ht ft
  rwa [← hpt, ← hpt'] at hc

/-- After any calls on a new page table a lookup answers for the latest update of its page, and the
next call changes no answer for another page. -/
theorem page_table_is_map {m₀ m₁ : Machine} {pt : Vaddr} (hpt : m₀.ptCreate = (some pt, m₁))
    (hrun : Lts.Run (PtStep pt) m₁ es m) (va : Vaddr) :
    Answers es m pt va ∧
      ∀ a m', PtStep pt m a m' → ¬ a.Concerns va →
        ∀ ft, m'.ptLookup pt va ft = m.ptLookup pt va ft := by
  obtain ⟨d, rfl, h⟩ := Walks.run hpt hrun
  exact ⟨h.answers va, fun a m' hs ha ft => h.lookup_step rfl hs ha ft⟩

end

theorem fourFrames_pos : 0 < (0x1000#32).toNat := by decide

theorem fourFrames_aligned : (0x1000#32).toNat % 4096 = 0 := by decide

/-- A machine of four free frames. -/
def fourFrames : Machine :=
  ⟨⟨fun _ => .zero, 4, 0x1000#32, 4, 0, fourFrames_pos, fourFrames_aligned, by decide⟩,
    fun _ _ => 0#32⟩

/-- A page is entered for writing, and found so. -/
theorem page_table_is_map_fourFrames : ∃ m₁ m pt es,
    fourFrames.ptCreate = (some pt, m₁) ∧ Lts.Run (PtStep pt) m₁ es m ∧
      latest es 0x401abc#32 = some (0x80003000#32, pfW) ∧
      (m.ptLookup pt 0x401abc#32 .readonly).1 = .writePermitted := by
  have hcreate : fourFrames.ptCreate = (some 0x80001000#32, fourFrames.ptCreate.2) := rfl
  have hword : ∀ i, fourFrames.ptCreate.2.word 0x80001000#32 i = 0#32 := fun _ => rfl
  have hnew : ¬ fourFrames.ptCreate.2.TableFrame 0x80001000#32 1 := by
    rintro (h | ⟨i, -, hne, -⟩)
    · exact absurd h (by decide)
    · exact hne (hword i)
  have hfirst : PtStep 0x80001000#32 fourFrames.ptCreate.2 (.first 0x400000#32 _) _ :=
    .first (hword _) (by decide) hnew fun _ _ => rfl
  have hsecond : PtStep 0x80001000#32 _ (.second 0x401000#32 0x80003000#32 pfW) _ :=
    .second (m := fourFrames.ptCreate.2.updateFirstPtEntry 0x80001000#32 0x400000#32
      (fourFrames.ptCreate.2.kva 1)) (by decide) (by decide)
  have hrun := (Lts.Run.single hfirst).snoc hsecond
  exact ⟨_, _, _, _, hcreate, hrun, rfl,
    (page_table_is_map hcreate hrun _).1.writable.mpr ⟨_, _, rfl, by decide⟩⟩

end OS161
