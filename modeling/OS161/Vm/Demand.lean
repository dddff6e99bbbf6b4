import OS161.Vm.Mapping

/-! What the page-table calls of `vm_fault` do to ownership, to entries and to user pages. -/
namespace OS161

open Machine
open Function (update_self update_of_ne update)
open Coremap (ppage_frameAddr isShared frameIndex_frameAddr)

variable {live : Finset Nat} {pt : Nat → Vaddr} {own own' own'' : Nat → Owner}
  {m m' m'' : Machine} {p q r f i j i' j' : Nat} {e : Word} {va : Vaddr} {flags : Word}

/-- The frame holds user data or the tables of a live process, other than what belongs to `p`
alone. -/
def Owner.Kept (live : Finset Nat) (p : Nat) : Owner → Prop
  | .pending q => q ≠ p
  | .dir q | .table q _ => q ∈ live ∧ q ≠ p
  | .user _ _ => True
  | _ => False

/-- A step of `p`: no such frame changes its use or its contents. -/
structure Keeps (live : Finset Nat) (p : Nat) (own own' : Nat → Owner) (m m' : Machine) : Prop where
  frames : SameFrames m m'
  label : ∀ f, (own f).Kept live p → own' f = own f
  mem : ∀ f, (own f).Kept live p → m'.mem f = m.mem f

theorem Keeps.refl (live : Finset Nat) (p : Nat) (own : Nat → Owner) (m : Machine) :
    Keeps live p own own m m :=
  ⟨.refl m, fun _ _ => rfl, fun _ _ => rfl⟩

theorem Keeps.trans (h : Keeps live p own own' m m') (h' : Keeps live p own' own'' m' m'') :
    Keeps live p own own'' m m'' := by
  refine ⟨h.frames.trans h'.frames, ?_, ?_⟩
  · intro f hf
    have hl := h.label f hf
    rw [h'.label f (by rw [hl]; exact hf), hl]
  · intro f hf
    have hl := h.label f hf
    rw [h'.mem f (by rw [hl]; exact hf), h.mem f hf]

/-- No live table changes. -/
def SameEntries (live : Finset Nat) (pt pt' : Nat → Vaddr) (m m' : Machine) : Prop :=
  ∀ q, q ∈ live → ∀ i j, i < 1024 → m'.entry (pt' q) i j = m.entry (pt q) i j

theorem Owned.kmallocZeroed (h : Owned live pt own m) (r : Nat)
    (hk : m.kmallocZeroed = (some va, m')) :
    ∃ f, f < m.coremap.size ∧ va = m.kva f ∧ own f = .free ∧
      m'.mem = update m.mem f zeroPage ∧
      Owned live pt (update own f (.pending r)) m' ∧
      Keeps live r own (update own f (.pending r)) m m' ∧ SameEntries live pt pt m m' := by
  simp only [Machine.kmallocZeroed] at hk
  split at hk
  · rename_i addr m₁ hk₁
    obtain ⟨rfl, rfl⟩ := hk
    obtain ⟨f, hf, rfl, hfree, hmem, hs, hown⟩ := h.kmallocPage hk₁
    have hfr : m₁.frameOf (m.kva f) = f := by
      rw [hs.frameOf, frameOf_kva hf]
    have hmem' : (m₁.setPage (m.kva f) zeroPage).mem = update m.mem f zeroPage := by
      simp [setPage, hfr, hmem]
    have hne : ∀ k, own k ≠ .free → k ≠ f := by
      rintro k hk rfl
      exact hk hfree
    have hkeep : ∀ k, own k ≠ .free → (m₁.setPage (m.kva f) zeroPage).mem k = m.mem k := by
      intro k hk
      rw [hmem', update_of_ne (hne k hk)]
    have hs' : SameFrames m (m₁.setPage (m.kva f) zeroPage) := ⟨hs.size, hs.frame0⟩
    refine ⟨f, hf, rfl, hfree, hmem', ?_, ⟨hs', ?_, ?_⟩, ?_⟩
    · refine Owned.setMem (m := m₁) (hown (.pending r) (by simp) (by simp)) rfl ?_
      intro q _ k hk
      have hkf : k ≠ f := by
        rintro rfl
        simp at hk
      rw [hmem', update_of_ne hkf, hmem]
    · intro k hk
      exact update_of_ne (hne k (by rintro hkf; simp [hkf, Owner.Kept] at hk)) _ _
    · intro k hk
      exact hkeep k (by rintro hkf; simp [hkf, Owner.Kept] at hk)
    intro q hq i j hi
    refine entry_outside h.tables hs' ?_ hq hi
    rintro q _ k (hk | ⟨i, hk⟩)
    · exact hkeep k (by simp [hk])
    · exact hkeep k (by simp [hk])
  · simp at hk

/-- A label other than a user page's may be put on a pending frame. -/
theorem FrameOK.of_pending {info : FrameInfo} {n : Nat → Nat → Nat} {l : Owner}
    (h : FrameOK info n (.pending r)) (hl : l ≠ .free) (hu : ∀ i j, l ≠ .user i j) :
    ∀ n', FrameOK info n' l :=
  fun _ => h.relabel (by simp) (by simp) (by simp) hl hu

/-- Frames in use for anything but user data keep their labels when a pending frame gets one. -/
theorem update_pending (hf : own f = .pending r) (l : Owner) {k : Nat} {o : Owner}
    (hk : own k = o) (ho : ∀ r, o ≠ .pending r) : update own f l k = o := by
  rw [update_of_ne, hk]
  rintro rfl
  exact ho r (by rw [← hk, hf])

theorem Owned.relabel_pending {pt' : Nat → Vaddr} {l : Owner} (h : Owned live pt own m)
    (hf : own f = .pending r) (hl : l ≠ .free) (hu : ∀ i j, l ≠ .user i j)
    (hc : m'.coremap = m.coremap) (he : SameEntries live pt pt' m m')
    (htab : ∀ q, q ∈ live → OwnsTable (update own f l) m' q (pt' q)) :
    Owned live pt' (update own f l) m' := by
  refine h.of_entries ⟨by rw [hc], by rw [hc]⟩ he htab ?_ ?_ ?_
  · intro k hk
    by_cases hkf : k = f
    · subst k
      exact h.inside f (by simp [hf])
    · rw [update_of_ne hkf] at hk
      exact h.inside k hk
  · exact fun k i j hk => update_pending hf _ hk (by simp)
  intro k hk
  by_cases hkf : k = f
  · subst k
    have hok := h.frames f hk
    rw [hf] at hok
    right
    rw [update_self, hc]
    exact hok.of_pending hl hu
  · left
    exact ⟨update_of_ne hkf _ own, by rw [hc]⟩

theorem Machine.OwnsTable.update_pending (h : OwnsTable own m q va) (hf : own f = .pending r)
    (l : Owner) : OwnsTable (update own f l) m q va :=
  h.relabel (fun _ hk => OS161.update_pending hf _ hk (by simp))
    (fun _ _ hk => OS161.update_pending hf _ hk (by simp))

theorem Owned.newDir (h : Owned live pt own m) (hf : own f = .pending r)
    (hzero : m.mem f = zeroPage) (hz : pt p = 0#32) :
    Owned live (update pt p (m.kva f)) (update own f (.dir p)) m ∧
      SameEntries live pt (update pt p (m.kva f)) m m := by
  have hlt : f < m.coremap.size := h.inside f (by simp [hf])
  have he : SameEntries live pt (update pt p (m.kva f)) m m := by
    intro q _ i j _
    by_cases hqp : q = p
    · subst q
      rw [update_self, hz, entry_null, entry_absent hlt (by rw [hzero]; rfl)]
    · rw [update_of_ne hqp]
  refine ⟨h.relabel_pending hf (by simp) (by simp) rfl he ?_, he⟩
  intro q hq
  by_cases hqp : q = p
  · subst q
    rw [update_self]
    intro _
    refine ⟨f, hlt, rfl, by simp, ?_⟩
    intro i _ hne
    rw [hzero] at hne
    exact (hne rfl).elim
  · rw [update_of_ne hqp]
    exact (h.tables q hq).update_pending hf _

/-- The address of frame `f` is stored in slot `i` of the first-level table in frame `d`. -/
structure SlotSet (m m' : Machine) (d i f : Nat) : Prop where
  coremap : m'.coremap = m.coremap
  dir : m'.mem d = update (m.mem d) i (m.coremap.frameAddr f)
  other : ∀ k, k ≠ d → m'.mem k = m.mem k

theorem slotSet_setWord {d : Nat} (hd : d < m.coremap.size) :
    SlotSet m (m.setWord (m.kva d) i (m.coremap.frameAddr f)) d i f := by
  refine ⟨rfl, ?_, ?_⟩
  · simp [setWord, frameOf_kva hd]
  · intro k hk
    simp [setWord, frameOf_kva hd, hk]

section
variable {d : Nat} (hset : SlotSet m m' d i f) (h : Owned live pt own m) (hp : p ∈ live)
  (hz : pt p ≠ 0#32) (hpd : pt p = m.kva d) (hod : own d = .dir p) (hf : own f = .pending r)
include hset

theorem SlotSet.sameFrames : SameFrames m m' := ⟨by rw [hset.coremap], by rw [hset.coremap]⟩

include hod

/-- Nothing of another process is in the frame. -/
theorem SlotSet.other_dir (hqp : q ≠ p) {k : Nat} (hk : own k = .dir q) : m'.mem k = m.mem k := by
  apply hset.other
  rintro rfl
  simp [hod, Ne.symm hqp] at hk

theorem SlotSet.other_table {k l : Nat} (hk : own k = .table q l) : m'.mem k = m.mem k := by
  apply hset.other
  rintro rfl
  simp [hod] at hk

include h hp hz hpd hf

/-- The slot was empty and the new table is, so that every entry reads as it did. -/
theorem SlotSet.sameEntries (hw : m.mem d i = 0#32) (hzero : m.mem f = zeroPage) :
    SameEntries live pt pt m m' := by
  have hs := hset.sameFrames
  have hd : d < m.coremap.size := h.inside d (by simp [hod])
  have hd' : d < m'.coremap.size := by rw [hs.size]; exact hd
  have hlt : f < m.coremap.size := h.inside f (by simp [hf])
  intro q hq i' j' hi'
  by_cases hqp : q = p
  · subst q
    have hpk : m.kva d = m'.kva d := (hs.kva d).symm
    rw [hpd]
    by_cases hii : i' = i
    · subst i'
      have hnew : m'.mem d i = m'.coremap.frameAddr f := by
        rw [hset.dir, hs.frameAddr, update_self]
      have hfd : f ≠ d := by
        rintro rfl
        simp [hf] at hod
      rw [entry_absent hd hw, hpk, entry_table hd' (by rw [hs.size]; exact hlt) hnew,
        hset.other f hfd, hzero]
      rfl
    · have hsame : m'.mem d i' = m.mem d i' := by rw [hset.dir, update_of_ne hii]
      by_cases hzero' : m.mem d i' = 0#32
      · rw [entry_absent hd hzero', hpk, entry_absent hd' (by rw [hsame]; exact hzero')]
      obtain ⟨d', hd₁, hpd', -, htab⟩ := h.tables p hp hz
      obtain rfl : d = d' := kva_inj hd hd₁ (hpd.symm.trans hpd')
      obtain ⟨g, hg, hge, hgo⟩ := htab i' hi' hzero'
      rw [entry_table hd hg hge, hpk, entry_table hd' (by rw [hs.size]; exact hg)
        (by rw [hsame, hs.frameAddr]; exact hge), hset.other_table hod hgo]
  · exact entry_congr (h.tables q hq) hs hi' (fun _ hk => hset.other_dir hod hqp hk)
      (fun _ _ hk => hset.other_table hod hk)

theorem SlotSet.ownsTable (hq : q ∈ live) : OwnsTable (update own f (.table p i)) m' q (pt q) := by
  have hs := hset.sameFrames
  by_cases hqp : q = p
  · subst q
    intro _
    obtain ⟨d', hd, hpd', -, htab⟩ := h.tables p hp hz
    obtain rfl : d = d' := kva_inj (h.inside d (by simp [hod])) hd (hpd.symm.trans hpd')
    refine ⟨d, by rw [hs.size]; exact hd, by rw [hs.kva]; exact hpd,
      update_pending hf _ hod (by simp), ?_⟩
    intro i' hi' hne
    by_cases hii : i' = i
    · subst i'
      have hlt : f < m.coremap.size := h.inside f (by simp [hf])
      exact ⟨f, by rw [hs.size]; exact hlt,
        by rw [hset.dir, hs.frameAddr, update_self], by simp⟩
    · rw [hset.dir, update_of_ne hii] at hne ⊢
      obtain ⟨g, hg, hge, hgo⟩ := htab i' hi' hne
      exact ⟨g, by rw [hs.size]; exact hg, by rw [hs.frameAddr]; exact hge,
        update_pending hf _ hgo (by simp)⟩
  · have hq' : OwnsTable own m' q (pt q) :=
      (h.tables q hq).congr hs fun _ hk => hset.other_dir hod hqp hk
    exact hq'.update_pending hf _

end

theorem Owned.newTable (h : Owned live pt own m) (hp : p ∈ live) (hz : pt p ≠ 0#32)
    (hw : m.word (pt p) i = 0#32) (hf : own f = .pending r) (hzero : m.mem f = zeroPage) :
    Owned live pt (update own f (.table p i))
        (m.setWord (pt p) i (m.coremap.frameAddr f)) ∧
      SameEntries live pt pt m (m.setWord (pt p) i (m.coremap.frameAddr f)) ∧
      (m.setWord (pt p) i (m.coremap.frameAddr f)).word (pt p) i ≠ 0#32 := by
  have hlt : f < m.coremap.size := h.inside f (by simp [hf])
  obtain ⟨d, hd, hpd, hod, -⟩ := h.tables p hp hz
  have hset : SlotSet m (m.setWord (pt p) i (m.coremap.frameAddr f)) d i f := by
    rw [hpd]
    exact slotSet_setWord hd
  generalize m.setWord (pt p) i (m.coremap.frameAddr f) = m' at hset
  have hs := hset.sameFrames
  have he : SameEntries live pt pt m m' := by
    rw [hpd, word_kva hd] at hw
    exact hset.sameEntries h hp hz hpd hod hf hw hzero
  refine ⟨h.relabel_pending hf (by simp) (by simp) hset.coremap he ?_, he, ?_⟩
  · exact fun q hq => hset.ownsTable h hp hz hpd hod hf hq
  · rw [hpd, ← hs.kva d, word_kva (by rw [hs.size]; exact hd), hset.dir, update_self]
    exact Coremap.frameAddr_ne_zero hlt

theorem Machine.isValid_newEntry (frame : Vaddr) : isValid (newEntry frame flags) = true := by
  unfold newEntry
  split <;> simp

theorem Machine.isReadonly_newEntry (hf : f < m.coremap.size) :
    isReadonly (newEntry (m.kva f) flags) = false := by
  have hr := isReadonly_of_ppage (ppage_frameAddr hf)
  unfold newEntry
  split <;> simp [hr]

theorem Machine.ppage_newEntry (hf : f < m.coremap.size) :
    ppage (newEntry (m.kva f) flags) = m.coremap.frameAddr f := by
  unfold newEntry
  split <;> simp [ppage_frameAddr hf]

section
variable (h : Owned live pt own m) (hp : p ∈ live)
include h hp

theorem Owned.mapPage (hz : pt p ≠ 0#32) (hw : m.word (pt p) (index1 va) ≠ 0#32)
    (hf : own f = .pending r) (hinv : isValid (m.entry (pt p) (index1 va) (index2 va)) = false)
    (hm' : (m.updateSecondPtEntry (pt p) va (m.kva f) flags).2 = m') :
    Owned live pt (update own f (.user (index1 va) (index2 va))) m' ∧
      Stores live pt m m' p (index1 va) (index2 va) (newEntry (m.kva f) flags) ∧
      SameFrames m m' ∧ ∀ k, (∀ l, own k ≠ .table p l) → m'.mem k = m.mem k := by
  have hlt : f < m.coremap.size := h.inside f (by simp [hf])
  change m.setEntry (pt p) (index1 va) (index2 va) (newEntry (m.kva f) flags) = m' at hm'
  have hst : Stores live pt m m' p (index1 va) (index2 va) (newEntry (m.kva f) flags) := by
    intro q hq i' j' hi'
    rw [← hm']
    exact entry_setEntry h.tables hp hz hw (index1_lt va) hq hi'
  have hs : SameFrames m m' := by rw [← hm']; exact ⟨rfl, rfl⟩
  obtain ⟨d, g, _, _, _, _, _, hgo, hfr⟩ := (h.tables p hp).second hz (index1_lt va) hw
  have hmem : ∀ k, (∀ l, own k ≠ .table p l) → m'.mem k = m.mem k := by
    intro k hk
    have hkg : k ≠ g := by
      rintro rfl
      exact hk _ hgo
    simp [← hm', setEntry, setWord, hfr, hkg]
  refine ⟨?_, hst, hs, hmem⟩
  apply h.map hs hst hp (index1_lt va) (index2_lt va) (by rw [← hm']; rfl) ?_ hf hinv
    (isValid_newEntry _) (ppage_newEntry hlt)
  intro q hq
  exact (h.tables q hq).congr hs fun k hk => hmem k (by simp [hk])

/-- An entry rewritten so that the page may be written to: the contents the page had. -/
structure Rewritten (live : Finset Nat) (pt : Nat → Vaddr) (own : Nat → Owner) (m : Machine)
    (p i j : Nat) (e : Word) (m' : Machine) (own' : Nat → Owner) : Prop where
  owned : Owned live pt own' m'
  stores : Stores live pt m m' p i j e
  keeps : Keeps live p own own' m m'
  valid : isValid e = true
  writable : isReadonly e = false
  dirty : isDirty (m.entry (pt p) i j) = true → isDirty e = true
  content : ∃ f g, ppage e = m.coremap.frameAddr f ∧ own' f = .user i j ∧
    ppage (m.entry (pt p) i j) = m.coremap.frameAddr g ∧ own g = .user i j ∧
    m'.mem f = m.mem g

/-- What a completed copy-on-write leaves: such a mapping, which no other table shares. -/
structure CopiedOnWrite (live : Finset Nat) (pt : Nat → Vaddr) (own : Nat → Owner) (m : Machine)
    (p i j : Nat) (e : Word) (m' : Machine) (own' : Nat → Owner) : Prop
    extends Rewritten live pt own m p i j e m' own' where
  sole : (m'.coremap.entries (m.coremap.frameIndex (ppage e))).shared = 0

/-- The entry `(i, j)` of `p`, which is in frame `t`, maps frame `g`. -/
structure EntryAt (own : Nat → Owner) (m : Machine) (ptp : Vaddr) (p i j g t : Nat) : Prop where
  ptr : ptp ≠ 0#32
  slot : m.word ptp i ≠ 0#32
  table : own t = .table p i
  frame : m.frameOf (paddrToKvaddr (m.word ptp i)) = t
  maps : ppage (m.entry ptp i j) = m.coremap.frameAddr g
  user : own g = .user i j

theorem Owned.entryAt (hi : i < 1024) (hj : j < 1024)
    (hv : isValid (m.entry (pt p) i j) = true) : ∃ g t, EntryAt own m (pt p) p i j g t := by
  obtain ⟨hz, hw⟩ := word_ne_zero_of_valid hv
  obtain ⟨g, hg, hgo⟩ := h.mapped p hp _ _ hi hj hv
  obtain ⟨_, t, _, _, _, _, _, hto, hfr⟩ := (h.tables p hp).second hz hi hw
  exact ⟨g, t, hz, hw, hto, hfr, hg, hgo⟩

/-- The page in frame `g` is copied to frame `f`, and word `j` of frame `t` maps the copy. -/
structure PageCopied (m m' : Machine) (f g t j : Nat) : Prop where
  frames : SameFrames m m'
  mem : m'.mem = update (update m.mem f (m.mem g)) t
    (update (m.mem t) j (m.coremap.frameAddr f ||| tlbloDirty ||| tlbloValid))
  copy : m'.coremap.entries f =
    { m.coremap.entries f with status := .kernelAllocated, allocSize := 1 }
  source : m'.coremap.entries g =
    { m.coremap.entries g with shared := (m.coremap.entries g).shared - 1 }
  rest : ∀ k, k ≠ f → k ≠ g → m'.coremap.entries k = m.coremap.entries k

omit hp in
/-- What `pt_copy_on_write` does to a page that is shared. -/
theorem Owned.ptCopyOnWrite_shared {g t : Nat}
    (hat : EntryAt own m (pt p) p (index1 va) (index2 va) g t)
    (hshared : (m.coremap.entries g).shared ≠ 0) (hk : m.ptCopyOnWrite (pt p) va = (.ok e, m')) :
    ∃ f, f < m.coremap.size ∧ own f = .free ∧ (m.coremap.entries f).shared = 0 ∧
      e = m.coremap.frameAddr f ||| tlbloDirty ||| tlbloValid ∧
      PageCopied m m' f g t (index2 va) := by
  have hglt : g < m.coremap.size := h.inside g (by simp [hat.user])
  have hisShared : m.coremap.isShared (m.coremap.frameAddr g) = true := by
    simpa [isShared, frameIndex_frameAddr hglt] using hshared
  simp only [ptCopyOnWrite, ← entry_eq_word hat.ptr hat.slot, hat.maps, if_pos hisShared] at hk
  split at hk
  · simp at hk
  rename_i newframe m₂ hk₂
  simp only [Prod.mk.injEq, Except.ok.injEq] at hk
  obtain ⟨rfl, hk⟩ := hk
  obtain ⟨f, hf, hfree, rfl, hmem, hs₂, hc₂⟩ := kmallocPage_some hk₂
  -- the count of the source has gone down before the copy's frame is looked for
  have hdec : (m.decrefcount (m.coremap.frameAddr g)).coremap.entries
      = update m.coremap.entries g
        { m.coremap.entries g with shared := (m.coremap.entries g).shared - 1 } := by
    simp [decrefcount, Coremap.decrefcount, Coremap.setShared, frameIndex_frameAddr hglt]
  have hkva : (m.decrefcount (m.coremap.frameAddr g)).kva f = m.kva f := rfl
  have hlt : f < m.coremap.size := hf
  have hmem' : m₂.mem = m.mem := hmem
  have hs : SameFrames m m₂ := ⟨hs₂.size, hs₂.frame0⟩
  rw [hdec] at hfree hc₂
  rw [hkva, kvaddrToPaddr_kva] at hk ⊢
  have hfg : f ≠ g := by
    rintro rfl
    have hok := h.frames f hlt
    rw [hat.user] at hok
    rw [update_self] at hfree
    exact hok.1 hfree
  rw [update_of_ne hfg] at hfree hc₂
  obtain ⟨hfo, hf0⟩ := h.eq_free hlt hfree
  have hft : t ≠ f := by
    rintro rfl
    exact Owner.noConfusion (hat.table.symm.trans hfo)
  have hpage : m₂.page (paddrToKvaddr (m.coremap.frameAddr g)) = m.mem g := by
    have hgk : m.frameOf (paddrToKvaddr (m.coremap.frameAddr g)) = g := frameOf_kva hglt
    rw [page, hs.frameOf, hgk, hmem']
  have hfr : m₂.frameOf (m.kva f) = f := by rw [hs.frameOf, frameOf_kva hlt]
  have hfrt : (m₂.setPage (m.kva f) (m.mem g)).frameOf
      (paddrToKvaddr (m.word (pt p) (index1 va))) = t := by
    rw [frameOf_setPage, hs.frameOf, hat.frame]
  have hcm : m'.coremap = m₂.coremap := by rw [← hk]; rfl
  refine ⟨f, hlt, hfo, hf0, rfl, ⟨by rw [hcm, hs.size], by rw [hcm, hs.frame0]⟩, ?_, ?_, ?_, ?_⟩
  · rw [hpage] at hk
    simp only [← hk, setWord, hfrt]
    simp [setPage, hfr, hmem', hft]
  · rw [hcm, hc₂, update_self]
  · rw [hcm, hc₂, update_of_ne hfg.symm, update_self]
  · intro k hkf hkg
    rw [hcm, hc₂, update_of_ne hkf, update_of_ne hkg]

/-- The copy of a shared page is the process's own. -/
theorem PageCopied.copiedOnWrite {g t : Nat} (hi : i < 1024) (hj : j < 1024)
    (hv : isValid (m.entry (pt p) i j) = true) (hat : EntryAt own m (pt p) p i j g t)
    (hshared : (m.coremap.entries g).shared ≠ 0) (hf : f < m.coremap.size) (hfo : own f = .free)
    (hf0 : (m.coremap.entries f).shared = 0) (hc : PageCopied m m' f g t j) :
    CopiedOnWrite live pt own m p i j (m.coremap.frameAddr f ||| tlbloDirty ||| tlbloValid) m'
      (update own f (.user i j)) := by
  have hs := hc.frames
  have hft : f ≠ t := by
    rintro rfl
    exact Owner.noConfusion (hat.table.symm.trans hfo)
  have hkeep : ∀ k, own k ≠ .free → k ≠ t → m'.mem k = m.mem k := by
    intro k hk hkt
    rw [hc.mem, update_of_ne hkt, update_of_ne]
    rintro rfl
    exact hk hfo
  have hst : Stores live pt m m' p i j (m.coremap.frameAddr f ||| tlbloDirty ||| tlbloValid) := by
    intro q hq i' j' hi'
    refine entry_of_store h.tables hp hat.ptr hat.slot hi hs ?_ ?_ hq hi'
    · simp [page, hs.frameOf, hat.frame, hc.mem]
    intro k hkt q _ hlab
    rw [hat.frame] at hkt
    refine hkeep k ?_ hkt
    rcases hlab with hlab | ⟨_, hlab⟩ <;> simp [hlab]
  have hpp : ppage (m.coremap.frameAddr f ||| tlbloDirty ||| tlbloValid)
      = m.coremap.frameAddr f := by
    simp [ppage_frameAddr hf]
  refine ⟨⟨?_, hst, ⟨hs, ?_, ?_⟩, by simp, ?_, by simp, f, g, hpp, by simp, hat.maps, hat.user,
    ?_⟩, ?_⟩
  · refine h.split hs hst hp hi hj hfo hf ?_ hv hat.maps hat.user hshared hc.source ?_ hc.rest
      (by simp) hpp
    · intro q hq
      refine (h.tables q hq).congr hs fun k hkd => hkeep k (by simp [hkd]) ?_
      rintro rfl
      simp [hat.table] at hkd
    · rw [hc.copy]
      exact ⟨by simp, rfl, hf0⟩
  · intro k hkp
    rw [update_of_ne]
    rintro rfl
    simp [hfo, Owner.Kept] at hkp
  · intro k hkp
    refine hkeep k ?_ ?_
    · intro hk
      simp [hk, Owner.Kept] at hkp
    · rintro rfl
      simp [hat.table, Owner.Kept] at hkp
  · simp [isReadonly_of_ppage (ppage_frameAddr hf)]
  · rw [hc.mem, update_of_ne hft, update_self]
  · rw [hpp, frameIndex_frameAddr hf, hc.copy]
    exact hf0

theorem Owned.rewritten {g t : Nat} (hi : i < 1024) (hj : j < 1024)
    (hv : isValid (m.entry (pt p) i j) = true) (hat : EntryAt own m (pt p) p i j g t)
    (hk : m.setEntry (pt p) i j (m.entry (pt p) i j &&& ~~~pteReadonly) = m') :
    Rewritten live pt own m p i j (m.entry (pt p) i j &&& ~~~pteReadonly) m' own := by
  have hs : SameFrames m m' := by rw [← hk]; exact ⟨rfl, rfl⟩
  have hst : Stores live pt m m' p i j (m.entry (pt p) i j &&& ~~~pteReadonly) := by
    intro q hq i' j' hi'
    rw [← hk]
    exact entry_setEntry h.tables hp hat.ptr hat.slot hi hq hi'
  have hkeep : ∀ k, (∀ l, own k ≠ .table p l) → m'.mem k = m.mem k := by
    intro k hkl
    have hkt : k ≠ t := by
      rintro rfl
      exact hkl i hat.table
    simp [← hk, setEntry, setWord, hat.frame, hkt]
  refine ⟨?_, hst, ⟨hs, fun _ _ => rfl, ?_⟩, by simp [hv], by simp, by simp, g, g,
    by simp [hat.maps], hat.user, hat.maps, hat.user, hkeep g (by simp [hat.user])⟩
  · refine h.reflag hs hst hp hi hj (by rw [← hk]; rfl) ?_ (by simp) (by simp)
    exact fun q hq => (h.tables q hq).congr hs fun k hkd => hkeep k (by simp [hkd])
  · intro k hkp
    refine hkeep k fun l hkl => ?_
    simp [hkl, Owner.Kept] at hkp

theorem Owned.copyOnWrite
    (hv : isValid (m.entry (pt p) (index1 va) (index2 va)) = true)
    (hk : m.ptCopyOnWrite (pt p) va = (.ok e, m')) :
    ∃ own', CopiedOnWrite live pt own m p (index1 va) (index2 va) e m' own' := by
  have hi := index1_lt va
  have hj := index2_lt va
  obtain ⟨g, t, hat⟩ := h.entryAt hp hi hj hv
  have hglt : g < m.coremap.size := h.inside g (by simp [hat.user])
  by_cases hshared : (m.coremap.entries g).shared = 0
  · have hsole : m.coremap.isShared (m.coremap.frameAddr g) = false := by
      simp [isShared, frameIndex_frameAddr hglt, hshared]
    simp only [ptCopyOnWrite, ← entry_eq_word hat.ptr hat.slot, hat.maps, hsole, Bool.false_eq_true,
      if_false, Prod.mk.injEq, Except.ok.injEq] at hk
    obtain ⟨rfl, hk⟩ := hk
    refine ⟨own, h.rewritten hp hi hj hv hat hk, ?_⟩
    rw [ppage_clear_readonly, hat.maps, frameIndex_frameAddr hglt, ← hk]
    exact hshared
  · obtain ⟨f, hf, hfo, hf0, rfl, hc⟩ := h.ptCopyOnWrite_shared hat hshared hk
    exact ⟨_, hc.copiedOnWrite h hp hi hj hv hat hshared hf hfo hf0⟩

end

end OS161
