import OS161.Vm.Destroy
import OS161.Vm.Fork
import OS161.Vm.Layout
import OS161.Vm.TlbSpec

/-! What a fault and a call of `sys_sbrk` do to memory: one specification for each outcome. -/
namespace OS161

open Machine
open Function (update_self update_of_ne update_eq_self update_idem update)

variable {live : Finset Nat} {pt pt' pt'' : Nat → Vaddr} {own own' own'' : Nat → Owner}
  {m m' m'' : Machine} {p q f i j : Nat} {e : Word} {va : Vaddr} {c c' : Ctx}
  {ft : FaultType} {rand : Nat} {region : Mapping} {flags : Word}

/-- The page behind a table entry. -/
def Machine.view (m : Machine) (ptp : Vaddr) (i j : Nat) : Option (Nat → Word) :=
  if isValid (m.entry ptp i j) then some (m.mem (m.coremap.frameIndex (ppage (m.entry ptp i j))))
  else none

section
variable (h : Owned live pt own m)
include h

theorem Owned.view_eq (hp : p ∈ live) (hi : i < 1024) (hj : j < 1024)
    (hv : isValid (m.entry (pt p) i j) = true) :
    ∃ f, f < m.coremap.size ∧ ppage (m.entry (pt p) i j) = m.coremap.frameAddr f ∧
      own f = .user i j ∧ m.view (pt p) i j = some (m.mem f) := by
  obtain ⟨f, hf, hfo⟩ := h.mapped p hp i j hi hj hv
  have hlt : f < m.coremap.size := h.inside f (by simp [hfo])
  refine ⟨f, hlt, hf, hfo, ?_⟩
  simp [view, hv, hf, Coremap.frameIndex_frameAddr hlt]

/-- An entry that keeps its value keeps its page while user data is kept. -/
theorem Owned.view_congr (hp : p ∈ live) (hi : i < 1024) (hj : j < 1024)
    (hk : Keeps live q own own' m m') (he : m'.entry (pt' p) i j = m.entry (pt p) i j) :
    m'.view (pt' p) i j = m.view (pt p) i j := by
  by_cases hv : isValid (m.entry (pt p) i j) = true
  · obtain ⟨f, hlt, hf, hfo, hview⟩ := h.view_eq hp hi hj hv
    simp [view, he, hv, hf, hk.frames.frameIndex, Coremap.frameIndex_frameAddr hlt,
      hk.mem f (by simp [hfo, Owner.Kept])]
  · simp [view, he, hv]

/-- Nothing a process can see has changed. -/
structure Quiet (p : Nat) (live : Finset Nat) (pt pt' : Nat → Vaddr) (own own' : Nat → Owner)
    (m m' : Machine) : Prop where
  owned : Owned live pt' own' m'
  keeps : Keeps live p own own' m m'
  entries : SameEntries live pt pt' m m'

theorem Quiet.refl : Quiet p live pt pt own own m m :=
  ⟨h, .refl live p own m, fun _ _ _ _ _ => rfl⟩

omit h in
theorem Quiet.trans (h : Quiet p live pt pt' own own' m m')
    (h' : Quiet p live pt' pt'' own' own'' m' m'') : Quiet p live pt pt'' own own'' m m'' :=
  ⟨h'.owned, h.keeps.trans h'.keeps,
    fun q hq i j hi => (h'.entries q hq i j hi).trans (h.entries q hq i j hi)⟩

/-- At most the entry of `p` for one page has changed, and if the page was mapped before, it is
mapped to the same contents. -/
structure Remap (p : Nat) (live : Finset Nat) (pt pt' : Nat → Vaddr) (own own' : Nat → Owner)
    (m m' : Machine) (i j : Nat) : Prop where
  owned : Owned live pt' own' m'
  keeps : Keeps live p own own' m m'
  entries : ∀ q, q ∈ live → ∀ i' j', i' < 1024 → ¬ (q = p ∧ i' = i ∧ j' = j) →
    m'.entry (pt' q) i' j' = m.entry (pt q) i' j'
  view : ∀ w, m.view (pt p) i j = some w → m'.view (pt' p) i j = some w

theorem Quiet.remap (hq : Quiet p live pt pt' own own' m m')
    (hp : p ∈ live) (hi : i < 1024) (hj : j < 1024) : Remap p live pt pt' own own' m m' i j := by
  refine ⟨hq.owned, hq.keeps, fun q hl i' j' hi' _ => hq.entries q hl i' j' hi', ?_⟩
  intro w hw
  rw [h.view_congr hp hi hj hq.keeps (hq.entries p hp i j hi), hw]

theorem Quiet.trans_remap (hq : Quiet p live pt pt' own own' m m')
    (hp : p ∈ live) (hi : i < 1024) (hj : j < 1024)
    (hr : Remap p live pt' pt'' own' own'' m' m'' i j) :
    Remap p live pt pt'' own own'' m m'' i j := by
  refine ⟨hr.owned, hq.keeps.trans hr.keeps, ?_, ?_⟩
  · intro q hl i' j' hi' hne
    rw [hr.entries q hl i' j' hi' hne, hq.entries q hl i' j' hi']
  · intro w hw
    apply hr.view
    rw [h.view_congr hp hi hj hq.keeps (hq.entries p hp i j hi), hw]

end

section
variable (h : Owned live pt own c.mach) (hpt : pt p = c.as.pageTable) (hp : p ∈ live)
include h hpt

theorem Ctx.ensureTable_quiet (he : c.ensureTable = some c') :
    ∃ own', Quiet p live pt (update pt p c'.as.pageTable) own own' c.mach c'.mach ∧
      c'.as.pageTable ≠ 0#32 ∧ c' = { c with
        mach := c'.mach, as := { c.as with pageTable := c'.as.pageTable } } := by
  unfold Ctx.ensureTable at he
  split at he
  · rename_i hz
    split at he
    · rename_i table m₁ hk
      cases he
      obtain ⟨f, hlt, rfl, hfree, hmem, ho, hkeep, hent⟩ := h.kmallocZeroed p hk
      have hpend : update own f (.pending p) f = .pending p := update_self ..
      have hkva : m₁.kva f = c.mach.kva f := hkeep.frames.kva f
      obtain ⟨ho', hent'⟩ := ho.newDir hpend (by rw [hmem, update_self])
        (hpt.trans hz)
      rw [hkva] at ho' hent'
      refine ⟨_, ⟨ho', ?_, ?_⟩, kva_ne_zero hlt, rfl⟩
      · refine ⟨hkeep.frames, ?_, hkeep.mem⟩
        intro k hk'
        have hkf : k ≠ f := by
          rintro rfl
          simp [hfree, Owner.Kept] at hk'
        rw [update_of_ne hkf, update_of_ne hkf]
      · intro q hq i j hi
        rw [hent' q hq i j hi, hent q hq i j hi]
    · cases he
  · rename_i hz
    cases he
    refine ⟨own, ?_, hz, rfl⟩
    rw [← hpt, update_eq_self]
    exact .refl h

include hp

theorem Ctx.ensureSecond_quiet (hz : c.as.pageTable ≠ 0#32) {lookup : Lookup}
    (hl : lookup = .noSecondLevelPt ↔ c.mach.word c.as.pageTable (index1 va) = 0#32)
    (he : c.ensureSecond va lookup = some c') :
    ∃ own', Quiet p live pt pt own own' c.mach c'.mach ∧
      c'.mach.word c.as.pageTable (index1 va) ≠ 0#32 ∧ c' = { c with mach := c'.mach } := by
  unfold Ctx.ensureSecond at he
  split at he
  · rename_i hno
    split at he
    · rename_i second m₁ hk
      cases he
      obtain ⟨f, hlt, rfl, hfree, hmem, ho, hkeep, hent⟩ := h.kmallocZeroed p hk
      have hpend : update own f (.pending p) f = .pending p := update_self ..
      rw [← hpt] at hz hl ⊢
      have hw : m₁.word (pt p) (index1 va) = 0#32 := by
        obtain ⟨d, hd, hpd, hdo, _⟩ := h.tables p hp hz
        have hdf : d ≠ f := by
          rintro rfl
          simp [hfree] at hdo
        have hw := hl.mp hno
        rw [hpd, word_kva hd] at hw
        rw [hpd, word, hkeep.frames.frameOf, frameOf_kva hd, hmem, update_of_ne hdf, hw]
      have hstep : m₁.updateFirstPtEntry (pt p) va (c.mach.kva f)
          = m₁.setWord (pt p) (index1 va) (m₁.coremap.frameAddr f) := by
        rw [updateFirstPtEntry, kvaddrToPaddr_kva, hkeep.frames.frameAddr]
      obtain ⟨ho', hent', hne⟩ := ho.newTable hp hz hw hpend (by rw [hmem, update_self])
      rw [hstep]
      refine ⟨_, ⟨ho', ?_, ?_⟩, hne, rfl⟩
      · obtain ⟨d, hd, hpd, hdo, _⟩ := ho.tables p hp hz
        refine ⟨⟨hkeep.frames.size, hkeep.frames.frame0⟩, ?_, ?_⟩
        · intro k hk'
          have hkf : k ≠ f := by
            rintro rfl
            simp [hfree, Owner.Kept] at hk'
          rw [update_of_ne hkf, update_of_ne hkf]
        · intro k hk'
          have hkd : k ≠ d := by
            rintro rfl
            rw [hkeep.label k hk'] at hdo
            simp [hdo, Owner.Kept] at hk'
          have hfr : m₁.frameOf (pt p) = d := by rw [hpd, frameOf_kva hd]
          rw [setWord_mem, hfr, update_of_ne hkd, hkeep.mem k hk']
      · intro q hq i j hi
        rw [hent' q hq i j hi, hent q hq i j hi]
    · cases he
  · rename_i hno
    cases he
    exact ⟨own, .refl h, fun hw => hno (hl.mpr hw), rfl⟩

/-- Mapping a frame held for the process where the table has nothing. -/
theorem Ctx.map_remap (flags : Word) (hz : c.as.pageTable ≠ 0#32)
    (hw : c.mach.word c.as.pageTable (index1 va) ≠ 0#32)
    (hinv : isValid (c.pte va) = false) (hf : own f = .pending p)
    (hm' : (c.mach.updateSecondPtEntry c.as.pageTable va (c.mach.kva f) flags).2 = m') :
    ∃ own', Remap p live pt pt own own' c.mach m' (index1 va) (index2 va) ∧
      m'.entry c.as.pageTable (index1 va) (index2 va) = newEntry (c.mach.kva f) flags := by
  rw [Ctx.pte] at hinv
  rw [← hpt] at hz hw hinv hm' ⊢
  obtain ⟨ho, hst, hs, hmem⟩ := h.mapPage hp hz hw hf hinv hm'
  refine ⟨_, ⟨ho, ⟨hs, ?_, ?_⟩, ?_, ?_⟩, ?_⟩
  · intro k hk
    rw [update_of_ne]
    rintro rfl
    simp [hf, Owner.Kept] at hk
  · intro k hk
    refine hmem k ?_
    intro l hkl
    simp [hkl, Owner.Kept] at hk
  · intro q hq i' j' hi' hne
    rw [hst q hq i' j' hi', if_neg hne]
  · intro w hw
    simp [view, hinv] at hw
  · rw [hst p hp _ _ (index1_lt va), if_pos ⟨rfl, rfl, rfl⟩]

end

/-- The frame waits to be mapped where the table has nothing. -/
structure Awaits (own : Nat → Owner) (m : Machine) (p : Nat) (ptp : Vaddr) (l : Load) : Prop where
  frame : ∃ f, f < m.coremap.size ∧ l.frame = m.kva f ∧ own f = .pending p
  table : ptp ≠ 0#32
  second : m.word ptp (index1 l.va) ≠ 0#32
  absent : isValid (m.entry ptp (index1 l.va) (index2 l.va)) = false

/-- What the rest of the kernel may rely on when `vm_fault` returns or goes to sleep. -/
def Settles (p : Nat) (live : Finset Nat) (pt : Nat → Vaddr) (own : Nat → Owner) (c : Ctx)
    (va : Vaddr) : Outcome → Prop
  | .done c' => (∃ own', Remap p live pt (update pt p c'.as.pageTable) own own' c.mach
      c'.mach (index1 va) (index2 va)) ∧ TlbFor c'.mach c'.as.pageTable c'.tlb ∧
      isValid (c'.pte va) = true
  | .failed _ c' => c'.tlb = c.tlb ∧
      ∃ own', Quiet p live pt (update pt p c'.as.pageTable) own own' c.mach c'.mach
  | .loading l c' => c'.tlb = c.tlb ∧ l.va = va ∧
      ∃ own', Quiet p live pt (update pt p c'.as.pageTable) own own' c.mach c'.mach ∧
        Awaits own' c'.mach p c'.as.pageTable l

theorem Settles.failed {e : Errno} (h : Owned live pt own c.mach) (hpt : pt p = c.as.pageTable) :
    Settles p live pt own c va (.failed e c) := by
  refine ⟨rfl, own, ?_⟩
  rw [← hpt, update_eq_self]
  exact .refl h

variable {o : Outcome}

/-- A fault that goes on from a state nobody can tell from the first. -/
theorem Settles.of_quiet (h : Owned live pt own c.mach) (hp : p ∈ live) (htlb : c'.tlb = c.tlb)
    (hq : Quiet p live pt (update pt p c'.as.pageTable) own own' c.mach c'.mach)
    (hs : Settles p live (update pt p c'.as.pageTable) own' c' va o) :
    Settles p live pt own c va o := by
  cases o with
  | done c₂ =>
    obtain ⟨⟨own₂, hr⟩, ht⟩ := hs
    rw [update_idem] at hr
    exact ⟨⟨own₂, hq.trans_remap h hp (index1_lt va) (index2_lt va) hr⟩, ht⟩
  | failed e c₂ =>
    obtain ⟨ht, own₂, hr⟩ := hs
    rw [update_idem] at hr
    exact ⟨ht.trans htlb, own₂, hq.trans hr⟩
  | loading l c₂ =>
    obtain ⟨ht, hl, own₂, hr, ha⟩ := hs
    rw [update_idem] at hr
    exact ⟨ht.trans htlb, hl, own₂, hq.trans hr, ha⟩

theorem Settles.of_quiet_mach (c' : Ctx) (h : Owned live pt own c.mach) (hp : p ∈ live)
    (hpt : pt p = c.as.pageTable) (htlb : c'.tlb = c.tlb)
    (htable : c'.as.pageTable = c.as.pageTable) (hq : Quiet p live pt pt own own' c.mach c'.mach)
    (hs : Settles p live pt own' c' va o) : Settles p live pt own c va o := by
  have hupd : update pt p c'.as.pageTable = pt := by
    rw [htable, ← hpt, update_eq_self]
  have hq' : Quiet p live pt (update pt p c'.as.pageTable) own own' c.mach c'.mach := by
    rw [hupd]
    exact hq
  exact Settles.of_quiet h hp htlb hq' (by rw [hupd]; exact hs)

theorem Owned.fill (h : Owned live pt own m) (hf : own f = .pending p) (pg : Nat → Word) :
    Quiet p live pt pt own own m (m.setPage (m.kva f) pg) := by
  have hlt : f < m.coremap.size := h.inside f (by simp [hf])
  have hmem : ∀ k, own k ≠ .pending p → (m.setPage (m.kva f) pg).mem k = m.mem k := by
    intro k hk
    rw [setPage_mem, frameOf_kva hlt, update_of_ne]
    rintro rfl
    exact hk hf
  have htab : ∀ q, q ∈ live → ∀ k, (own k = .dir q ∨ ∃ i, own k = .table q i) →
      (m.setPage (m.kva f) pg).mem k = m.mem k := by
    rintro q _ k (hk | ⟨i, hk⟩)
    · exact hmem k (by simp [hk])
    · exact hmem k (by simp [hk])
  refine ⟨h.setMem rfl htab, ⟨⟨rfl, rfl⟩, fun _ _ => rfl, ?_⟩, ?_⟩
  · intro k hk
    refine hmem k ?_
    intro hkp
    simp [hkp, Owner.Kept] at hk
  · intro q hq i j hi
    exact entry_outside h.tables ⟨rfl, rfl⟩ htab hq hi

theorem Owned.fill_word (h : Owned live pt own m) (hp : p ∈ live) (hz : pt p ≠ 0#32)
    (hf : own f = .pending q) (pg : Nat → Word) (i : Nat) :
    (m.setPage (m.kva f) pg).word (pt p) i = m.word (pt p) i := by
  have hlt : f < m.coremap.size := h.inside f (by simp [hf])
  obtain ⟨d, hd, hpd, hdo, _⟩ := h.tables p hp hz
  have hdf : d ≠ f := by
    rintro rfl
    simp [hf] at hdo
  rw [hpd, word, frameOf_setPage, setPage_mem, frameOf_kva hd, frameOf_kva hlt,
    update_of_ne hdf, word, frameOf_kva hd]

theorem Owned.putArgs (h : Owned live pt own m) (hp : p ∈ live) (hz : pt p ≠ 0#32)
    (hf : own f = .pending p) (page : Vaddr) (args : Option Args) :
    Quiet p live pt pt own own m (m.putArgs (m.kva f) page args) ∧
      (∀ i, (m.putArgs (m.kva f) page args).word (pt p) i = m.word (pt p) i) ∧
      (m.putArgs (m.kva f) page args).kva f = m.kva f := by
  cases args with
  | none => exact ⟨.refl h, fun _ => rfl, rfl⟩
  | some a => exact ⟨h.fill hf _, h.fill_word hp hz hf _, rfl⟩

section
variable (h : Owned live pt own c.mach) (hp : p ∈ live) (hpt : pt p = c.as.pageTable)
  (hz : c.as.pageTable ≠ 0#32)
include h hp hpt hz

theorem Ctx.kmallocZeroed_quiet {frame : Vaddr} (hk : c.mach.kmallocZeroed = (some frame, m')) :
    ∃ f own', f < m'.coremap.size ∧ frame = m'.kva f ∧ own' f = .pending p ∧
      Quiet p live pt pt own own' c.mach m' ∧
      ∀ i, m'.word c.as.pageTable i = c.mach.word c.as.pageTable i := by
  obtain ⟨f, hlt, rfl, hfree, hmem, ho, hkeep, hent⟩ := h.kmallocZeroed p hk
  refine ⟨f, update own f (.pending p), by rw [hkeep.frames.size]; exact hlt,
    (hkeep.frames.kva f).symm, by simp, ⟨ho, hkeep, hent⟩, ?_⟩
  rw [← hpt] at hz ⊢
  obtain ⟨d, hd, hpd, hdo, _⟩ := h.tables p hp hz
  have hdf : d ≠ f := by
    rintro rfl
    simp [hfree] at hdo
  intro i
  rw [hpd, word, word, hkeep.frames.frameOf, frameOf_kva hd, hmem, update_of_ne hdf]

variable (hw : c.mach.word c.as.pageTable (index1 va) ≠ 0#32)
  (hinv : isValid (c.pte va) = false)
include hw hinv

theorem Ctx.startLoad_settles (r : Region) : Settles p live pt own c va (c.startLoad r va) := by
  unfold Ctx.startLoad
  split
  · rename_i frame m₁ hk
    obtain ⟨f, own', hlt, hfr, hfo, hq, hword⟩ := c.kmallocZeroed_quiet h hp hpt hz hk
    have hupd : update pt p c.as.pageTable = pt := by rw [← hpt, update_eq_self]
    have he := hq.entries p hp (index1 va) (index2 va) (index1_lt va)
    rw [hpt] at he
    refine ⟨rfl, rfl, own', by rw [hupd]; exact hq, ⟨⟨f, hlt, hfr, hfo⟩, hz, ?_, ?_⟩⟩
    · show m₁.word _ _ ≠ _
      rw [hword]
      exact hw
    · show isValid (m₁.entry _ _ _) = _
      rw [he]
      exact hinv
  · exact .failed h hpt

variable (htlb : TlbFor c.mach c.as.pageTable c.tlb) (hva : va.toNat < 2147483648)
  (hmiss : ∀ i, (c.tlb i).hi ≠ pageOf va)
include htlb hva hmiss

theorem Ctx.mapAndRefill_settles (hf : own f = .pending p) (rand : Nat) :
    Settles p live pt own c va (.done (c.mapAndRefill va (c.mach.kva f) flags rand)) := by
  have hlt : f < c.mach.coremap.size := h.inside f (by simp [hf])
  obtain ⟨own', hr, he⟩ := c.map_remap h hpt hp flags hz hw hinv hf rfl
  have hupd : update pt p c.as.pageTable = pt := by rw [← hpt, update_eq_self]
  have hv := (congrArg isValid he).trans (isValid_newEntry _)
  refine ⟨⟨own', ?_⟩, ?_, hv⟩
  · show Remap p live pt (update pt p c.as.pageTable) _ _ _ _ _ _
    rw [hupd]
    exact hr
  refine TlbFor.refill htlb hva ?_ hv ?_ ?_ ?_ hmiss rand
  · intro i j hi _ hne
    have hk := hr.entries p hp i j hi (by tauto)
    rw [hpt] at hk
    exact hk
  · exact isValid_newEntry _
  · exact congrArg ppage he.symm
  intro hd
  refine ⟨?_, ?_⟩
  · exact (congrArg isDirty he).trans hd
  · exact (congrArg isReadonly he).trans (isReadonly_newEntry hlt)

theorem Ctx.mapLater_settles (c' : Ctx) (htlb' : c'.tlb = c.tlb)
    (htable : c'.as.pageTable = c.as.pageTable) (hq : Quiet p live pt pt own own' c.mach c'.mach)
    (hword : c'.mach.word c.as.pageTable (index1 va) = c.mach.word c.as.pageTable (index1 va))
    (hf : own' f = .pending p) {frame : Vaddr} (hframe : frame = c'.mach.kva f) (rand : Nat) :
    Settles p live pt own c va (.done (c'.mapAndRefill va frame flags rand)) := by
  subst hframe
  have he : ∀ i j, i < 1024 →
      c'.mach.entry c.as.pageTable i j = c.mach.entry c.as.pageTable i j := by
    rw [← hpt]
    exact fun i j hi => hq.entries p hp i j hi
  refine Settles.of_quiet_mach c' h hp hpt htlb' htable hq ?_
  refine Ctx.mapAndRefill_settles hq.owned hp ?_ ?_ ?_ ?_ ?_ hva ?_ hf rand
  · rw [htable, hpt]
  · rw [htable]
    exact hz
  · rw [htable, hword]
    exact hw
  · rw [Ctx.pte, htable, he _ _ (index1_lt va)]
    exact hinv
  · rw [htable, htlb']
    exact htlb.congr fun i j hi _ => he i j hi
  · rw [htlb']
    exact hmiss

theorem Ctx.growHeap_settles (rand : Nat) : Settles p live pt own c va (c.growHeap va rand) := by
  unfold Ctx.growHeap
  split
  · rename_i frame m₁ hk
    obtain ⟨f, own', hlt, rfl, hfo, hq, hword⟩ := c.kmallocZeroed_quiet h hp hpt hz hk
    exact c.mapLater_settles h hp hpt hz hw hinv htlb hva hmiss { c with mach := m₁ } rfl rfl hq
      (hword _) hfo rfl rand
  · exact .failed h hpt

theorem Ctx.growStack_settles (rand : Nat) : Settles p live pt own c va (c.growStack va rand) := by
  unfold Ctx.growStack
  split
  · rename_i frame m₁ hk
    obtain ⟨f, own', hlt, rfl, hfo, hq, hword⟩ := c.kmallocZeroed_quiet h hp hpt hz hk
    obtain ⟨hq₂, hword₂, hkva⟩ := hq.owned.putArgs hp (by rw [hpt]; exact hz) hfo (pageOf va) c.args
    rw [hpt] at hword₂
    exact c.mapLater_settles h hp hpt hz hw hinv htlb hva hmiss
      { c with
        mach := m₁.putArgs (m₁.kva f) (pageOf va) c.args
        as := { c.as with asStackvbase := pageOf va }
        args := none } rfl rfl (hq.trans hq₂) ((hword₂ _).trans (hword _)) hfo hkva.symm
      rand
  · exact .failed h hpt

end

section
variable (h : Owned live pt own c.mach) (hp : p ∈ live) (hpt : pt p = c.as.pageTable)
  (hz : c.as.pageTable ≠ 0#32) (htlb : TlbFor c.mach c.as.pageTable c.tlb)
  (hva : va.toNat < 2147483648)
include h hp hpt hz htlb hva

theorem Ctx.mapMissing_settles (hmiss : ∀ i, (c.tlb i).hi ≠ pageOf va) {lookup : Lookup}
    (hl : lookup = .noSecondLevelPt ↔ c.mach.word c.as.pageTable (index1 va) = 0#32)
    (hinv : isValid (c.pte va) = false) (rand : Nat) (region : Mapping) :
    Settles p live pt own c va (c.mapMissing va rand region lookup) := by
  unfold Ctx.mapMissing
  split
  · exact .failed h hpt
  rename_i c₁ hc₁
  obtain ⟨own', hq, hw, hc⟩ := c.ensureSecond_quiet h hpt hp hz hl hc₁
  have htable : c₁.as.pageTable = c.as.pageTable := by rw [hc]
  have htlb₁ : c₁.tlb = c.tlb := by rw [hc]
  have he : ∀ i j, i < 1024 →
      c₁.mach.entry c.as.pageTable i j = c.mach.entry c.as.pageTable i j := by
    rw [← hpt]
    exact fun i j hi => hq.entries p hp i j hi
  refine Settles.of_quiet_mach c₁ h hp hpt htlb₁ htable hq ?_
  have hpt₁ : pt p = c₁.as.pageTable := by rw [htable, hpt]
  have hz₁ : c₁.as.pageTable ≠ 0#32 := by rw [htable]; exact hz
  have hw₁ : c₁.mach.word c₁.as.pageTable (index1 va) ≠ 0#32 := by rw [htable]; exact hw
  have hinv₁ : isValid (c₁.mach.entry c₁.as.pageTable (index1 va) (index2 va)) = false := by
    rw [htable, he _ _ (index1_lt va)]
    exact hinv
  have htf : TlbFor c₁.mach c₁.as.pageTable c₁.tlb := by
    rw [htlb₁, htable]
    exact htlb.congr fun i j hi _ => he i j hi
  have hmiss₁ : ∀ i, (c₁.tlb i).hi ≠ pageOf va := by rw [htlb₁]; exact hmiss
  cases region with
  | code | data => exact c₁.startLoad_settles hq.owned hp hpt₁ hz₁ hw₁ hinv₁ _
  | heap => exact c₁.growHeap_settles hq.owned hp hpt₁ hz₁ hw₁ hinv₁ htf hva hmiss₁ rand
  | stack => exact c₁.growStack_settles hq.owned hp hpt₁ hz₁ hw₁ hinv₁ htf hva hmiss₁ rand

theorem Ctx.access_settles (hmiss : ∀ i, (c.tlb i).hi ≠ pageOf va) (hft : ft ≠ .readonly)
    (rand : Nat) (region : Mapping) : Settles p live pt own c va (c.access va ft rand region) := by
  by_cases hv : isValid (c.pte va) = true
  · rw [Ctx.access, ptLookup_valid hft hv]
    have hupd : update pt p c.as.pageTable = pt := by
      rw [← hpt, update_eq_self]
    refine ⟨⟨own, ?_⟩, ?_, hv⟩
    · show Remap p live pt (update pt p c.as.pageTable) _ _ _ _ _ _
      rw [hupd]
      exact (Quiet.refl h).remap h hp (index1_lt va) (index2_lt va)
    refine TlbFor.refill htlb hva (fun _ _ _ _ _ => rfl) hv ?_ ?_ ?_ hmiss rand
    · split <;> simp [hv]
    · split <;> simp
    split
    · simp
    rename_i hr
    intro hd
    exact ⟨hd, by simpa using hr⟩
  · obtain ⟨lookup, ho, hl⟩ := access_missing ft rand region hz hv
    rw [ho]
    exact c.mapMissing_settles h hp hpt hz htlb hva hmiss hl (by simpa using hv) rand region

omit hz in
/-- A page made writable for the modify trap. -/
theorem Rewritten.settles {own' : Nat → Owner} {m₁ : Machine} {e : Word}
    (hcow : Rewritten live pt own c.mach p (index1 va) (index2 va) e m₁ own')
    (hv : isValid (c.pte va) = true) (hdirty : isDirty (c.pte va) = true) :
    Settles p live pt own c va (.done { c with
      mach := m₁, tlb := c.tlb.write (pageOf va) e (c.tlb.probeSlot (pageOf va)) }) := by
  rw [Ctx.pte, ← hpt] at hv
  have hupd : update pt p c.as.pageTable = pt := by
    rw [← hpt, update_eq_self]
  have hnew := hcow.stores p hp (index1 va) (index2 va) (index1_lt va)
  rw [if_pos ⟨rfl, rfl, rfl⟩] at hnew
  have hent' : ∀ q, q ∈ live → ∀ i' j', i' < 1024 →
      ¬ (q = p ∧ i' = index1 va ∧ j' = index2 va) →
      m₁.entry (pt q) i' j' = c.mach.entry (pt q) i' j' := by
    intro q hq i' j' hi' hne
    rw [hcow.stores q hq i' j' hi', if_neg hne]
  have hv' : isValid (m₁.entry c.as.pageTable (index1 va) (index2 va)) = true := by
    rw [← hpt, hnew]
    exact hcow.valid
  refine ⟨⟨own', ?_⟩, ?_, hv'⟩
  · show Remap p live pt (update pt p c.as.pageTable) _ _ _ _ _ _
    rw [hupd]
    refine ⟨hcow.owned, hcow.keeps, hent', ?_⟩
    intro w hview
    obtain ⟨f, g, hf, hfo, hg, hgo, hmem⟩ := hcow.content
    have hglt : g < c.mach.coremap.size := h.inside g (by simp [hgo])
    have hflt : f < m₁.coremap.size := hcow.owned.inside f (by simp [hfo])
    rw [hcow.keeps.frames.size] at hflt
    simp only [view, hv, if_true, hg, Coremap.frameIndex_frameAddr hglt] at hview
    simp only [view, hnew, hcow.valid, if_true, hf, hcow.keeps.frames.frameIndex,
      Coremap.frameIndex_frameAddr hflt, hmem]
    exact hview
  · rw [hpt] at hnew
    refine TlbFor.write_probe htlb hva ?_ hv' hcow.valid ?_ ?_
    · intro i j hi _ hne
      have hk' := hent' p hp i j hi (by tauto)
      rw [hpt] at hk'
      exact hk'
    · show _ = ppage (m₁.entry _ _ _)
      rw [hnew]
    intro _
    show isDirty (m₁.entry _ _ _) = true ∧ isReadonly (m₁.entry _ _ _) = false
    rw [hnew]
    exact ⟨hcow.dirty (by rw [hpt]; exact hdirty), hcow.writable⟩

theorem Ctx.modify_settles (hv : isValid (c.pte va) = true)
    (hfit : ∀ e m, c.mach.ptCopyOnWrite c.as.pageTable va ≠ (.error e, m))
    (ho : c.modify va = .ok o) : Settles p live pt own c va o := by
  have hw := (word_ne_zero_of_valid hv).2
  have hent := entry_eq_word (m := c.mach) (j := index2 va) hz hw
  unfold Ctx.modify at ho
  split at ho
  · rename_i entrylo hl
    have hdirty : isDirty (c.pte va) = true := by
      by_contra hd
      simp only [ptLookup, if_neg hw, ← hent, hv, if_true, hd] at hl
      simp at hl
    split at ho
    · rename_i e m₁ hk
      exact (hfit e m₁ hk).elim
    rename_i e m₁ hk
    cases ho
    have hv₁ := hv
    rw [Ctx.pte] at hv₁
    rw [← hpt] at hv₁ hk
    obtain ⟨own', hcow⟩ := h.copyOnWrite hp hv₁ hk
    exact hcow.toRewritten.settles h hp hpt htlb hva hv hdirty
  · simp at ho

theorem Ctx.vmFaultLoaded_settles {l : Load} {r : ReadResult} (hl : l.va = va)
    (ha : Awaits own c.mach p c.as.pageTable l) (hmiss : ∀ i, (c.tlb i).hi ≠ pageOf va)
    (rand : Nat) : Settles p live pt own c va (c.vmFaultLoaded l r rand) := by
  obtain ⟨⟨f, hlt, hfr, hfo⟩, _, hw, hinv⟩ := ha
  subst va
  unfold Ctx.vmFaultLoaded
  rw [hfr]
  dsimp only
  generalize (packPage fun n => if n < min r.count l.len.toNat then r.bytes n else 0#8) = page
  have hq := h.fill hfo page
  have hupd : update pt p c.as.pageTable = pt := by
    rw [← hpt, update_eq_self]
  have hword := h.fill_word hp (by rw [hpt]; exact hz) hfo page
  rw [hpt] at hword
  have hfail : ∀ e, Settles p live pt own c l.va
      (.failed e { c with mach := c.mach.setPage (c.mach.kva f) page }) := by
    intro e
    refine ⟨rfl, own, ?_⟩
    rw [hupd]
    exact hq
  cases r.result with
  | some e => exact hfail e
  | none =>
    dsimp only
    split
    · exact c.mapLater_settles h hp hpt hz hw hinv htlb hva hmiss
        { c with mach := c.mach.setPage (c.mach.kva f) page } rfl rfl hq (hword _) hfo rfl rand
    · exact hfail .enoexec

end

theorem Ctx.vmFault_settles (h : Owned live pt own c.mach) (hp : p ∈ live)
    (hpt : pt p = c.as.pageTable) (htlb : TlbFor c.mach c.as.pageTable c.tlb)
    (hva : va.toNat < 2147483648) (hmiss : ft ≠ .readonly → ∀ i, (c.tlb i).hi ≠ pageOf va)
    (hro : ft = .readonly →
      isValid (c.pte va) = true ∧
      ∀ e m, c.mach.ptCopyOnWrite c.as.pageTable va ≠ (.error e, m))
    (ho : c.vmFault ft va rand = .ok o) : Settles p live pt own c va o := by
  -- from the table on, the fault works on a context nobody can tell from the first
  have hfrom : ∀ c₁, c.ensureTable = some c₁ → ∃ own', c₁.as.pageTable ≠ 0#32 ∧
      c₁.tlb = c.tlb ∧ TlbFor c₁.mach c₁.as.pageTable c₁.tlb ∧
      Quiet p live pt (update pt p c₁.as.pageTable) own own' c.mach c₁.mach := by
    intro c₁ hc₁
    obtain ⟨own', hq, hz, hc⟩ := c.ensureTable_quiet h hpt hc₁
    have htlb₁ : c₁.tlb = c.tlb := by rw [hc]
    refine ⟨own', hz, htlb₁, ?_, hq⟩
    rw [htlb₁]
    refine htlb.congr ?_
    intro i j hi _
    have := hq.entries p hp i j hi
    rwa [update_self, hpt] at this
  cases Ctx.vmFault_cases ho with
  | noRegion | noTable => exact .failed h hpt
  | @modify _ c₁ _ _ hc₁ hft hm =>
    obtain ⟨own', hz, htlb₁, htf, hq⟩ := hfrom c₁ hc₁
    obtain ⟨hv, hfit⟩ := hro hft
    -- the page is mapped, so there was a table already
    obtain rfl : c₁ = c := by
      rw [Ctx.ensureTable, if_neg (word_ne_zero_of_valid hv).1] at hc₁
      exact (Option.some.inj hc₁).symm
    refine Settles.of_quiet h hp htlb₁ hq ?_
    exact c₁.modify_settles hq.owned hp (update_self ..) hz htf hva hv hfit hm
  | @access region c₁ _ _ hc₁ hft ho =>
    subst ho
    obtain ⟨own', hz, htlb₁, htf, hq⟩ := hfrom c₁ hc₁
    refine Settles.of_quiet h hp htlb₁ hq ?_
    exact c₁.access_settles hq.owned hp (update_self ..) hz htf hva
      (by rw [htlb₁]; exact hmiss hft) hft rand region

/-- Mapping a page that was absent disturbs no TLB entry. -/
theorem TlbFor.of_absent {ptp ptp' : Vaddr} {t : Tlb} (h : TlbFor m ptp t)
    (hinv : isValid (m.entry ptp i j) = false)
    (he : ∀ i' j', i' < 1024 → j' < 1024 → ¬ (i' = i ∧ j' = j) →
      m'.entry ptp' i' j' = m.entry ptp i' j') : TlbFor m' ptp' t := by
  refine ⟨h.aligned, h.inj, ?_, h.unused⟩
  intro k hk
  have hb := h.backs k hk
  refine hb.congr (he _ _ (index1_lt _) (index2_lt _) ?_)
  rintro ⟨h1, h2⟩
  have hv := hb.valid
  rw [h1, h2, hinv] at hv
  cases hv

theorem AddrSpace.moveBreak_pageTable {as as' : AddrSpace} {amount old : Word}
    (h : as.moveBreak amount = .ok (old, as')) : as'.pageTable = as.pageTable := by
  unfold AddrSpace.moveBreak at h
  dsimp only at h
  split at h
  · split at h
    · cases h
      rfl
    · cases h
  · split at h
    · cases h
      rfl
    · cases h

section
variable (h : Owned live pt own c.mach) (hp : p ∈ live) (hpt : pt p = c.as.pageTable)
  (hz : c.as.pageTable ≠ 0#32)
include h hp hpt hz

theorem Ctx.mapZeroed_remap (hw : c.mach.word c.as.pageTable (index1 va) ≠ 0#32)
    (hinv : isValid (c.pte va) = false) (flags : Word) :
    ∃ own', Remap p live pt pt own own' c.mach (c.mapZeroed va flags).2.mach
      (index1 va) (index2 va) ∧ (c.mapZeroed va flags).2.as = c.as ∧
      (c.mapZeroed va flags).2.tlb = c.tlb := by
  unfold Ctx.mapZeroed
  split
  · rename_i frame m₁ hk
    obtain ⟨f, own', hlt, rfl, hfo, hq, hword⟩ := c.kmallocZeroed_quiet h hp hpt hz hk
    have he : m₁.entry c.as.pageTable (index1 va) (index2 va) = c.pte va := by
      rw [Ctx.pte, ← hpt]
      exact hq.entries p hp _ _ (index1_lt va)
    have hw' : m₁.word c.as.pageTable (index1 va) ≠ 0#32 := by
      rw [hword]
      exact hw
    have hinv' : isValid (m₁.entry c.as.pageTable (index1 va) (index2 va)) = false := by
      rw [he]
      exact hinv
    obtain ⟨own₂, hr, _⟩ := Ctx.map_remap (c := { c with mach := m₁ }) hq.owned hpt hp flags hz hw'
      hinv' hfo rfl
    exact ⟨own₂, hq.trans_remap h hp (index1_lt va) (index2_lt va) hr, rfl, rfl⟩
  · exact ⟨own, (Quiet.refl h).remap h hp (index1_lt va) (index2_lt va), rfl, rfl⟩

theorem Ctx.mapZero_remap : ∃ own', Remap p live pt pt own own' c.mach c.mapZero.2.mach
    (index1 0#32) (index2 0#32) ∧ c.mapZero.2.as = c.as ∧ c.mapZero.2.tlb = c.tlb ∧
    (isValid (c.pte 0#32) = false ∨ c.mapZero.2.mach = c.mach) := by
  have hsame := (Quiet.refl (p := p) h).remap h hp (index1_lt 0#32) (index2_lt 0#32)
  by_cases hv : isValid (c.pte 0#32) = true
  · have hnop : c.mapZero = (.ok (), c) := by
      simp only [Ctx.mapZero, ptLookup_valid (show FaultType.write ≠ .readonly by simp) hv]
    rw [hnop]
    exact ⟨own, hsame, rfl, rfl, .inr rfl⟩
  have hinv := Bool.eq_false_of_not_eq_true hv
  obtain ⟨lookup, hl, ⟨rfl, hw⟩ | ⟨rfl, hw⟩⟩ := ptLookup_missing .write hz hv
  · simp only [Ctx.mapZero, hl]
    split
    · rename_i c₁ hc₁
      obtain ⟨own', hq, hw₁, hc⟩ := c.ensureSecond_quiet h hpt hp hz (by simp [hw]) hc₁
      have htable : c₁.as.pageTable = c.as.pageTable := by rw [hc]
      have he : c₁.pte 0#32 = c.pte 0#32 := by
        rw [Ctx.pte, Ctx.pte, htable, ← hpt]
        exact hq.entries p hp _ _ (index1_lt 0#32)
      obtain ⟨own₂, hr, has, htlb⟩ := c₁.mapZeroed_remap hq.owned hp (hpt.trans htable.symm)
        (by rw [htable]; exact hz) (by rw [htable]; exact hw₁) (by rw [he]; exact hinv) 1#32
      refine ⟨own₂, hq.trans_remap h hp (index1_lt _) (index2_lt _) hr, ?_, ?_, .inl hinv⟩
      · rw [has, hc]
      · rw [htlb, hc]
    · exact ⟨own, hsame, rfl, rfl, .inr rfl⟩
  · simp only [Ctx.mapZero, hl]
    obtain ⟨own₂, hr, has, htlb⟩ := c.mapZeroed_remap h hp hpt hz hw hinv pfW
    exact ⟨own₂, hr, has, htlb, .inl hinv⟩

theorem Ctx.sysSbrk_remap (htlb : TlbFor c.mach c.as.pageTable c.tlb) (amount : Word) :
    ∃ own', Remap p live pt (update pt p (c.sysSbrk amount).2.as.pageTable) own own' c.mach
      (c.sysSbrk amount).2.mach (index1 0#32) (index2 0#32) ∧
      TlbFor (c.sysSbrk amount).2.mach (c.sysSbrk amount).2.as.pageTable
        (c.sysSbrk amount).2.tlb := by
  obtain ⟨own', hr, has, ht, habs⟩ := c.mapZero_remap h hp hpt hz
  have hkeep : (c.sysSbrk amount).2.mach = c.mapZero.2.mach ∧
      (c.sysSbrk amount).2.as.pageTable = c.as.pageTable ∧ (c.sysSbrk amount).2.tlb = c.tlb := by
    unfold Ctx.sysSbrk
    split
    · rename_i e c₁ hc₁
      rw [hc₁] at has ht ⊢
      exact ⟨rfl, by rw [has], ht⟩
    rename_i c₁ hc₁
    rw [hc₁] at has ht ⊢
    split
    · rename_i old as hm
      exact ⟨rfl, by rw [AddrSpace.moveBreak_pageTable hm, has], ht⟩
    · exact ⟨rfl, by rw [has], ht⟩
  obtain ⟨hm, hpt', ht'⟩ := hkeep
  refine ⟨own', ?_, ?_⟩
  · rw [hm, hpt', ← hpt, update_eq_self]
    exact hr
  rw [hm, hpt', ht']
  obtain hinv | hsame := habs
  · refine htlb.of_absent hinv ?_
    intro i j hi _ hne
    have he := hr.entries p hp i j hi (by tauto)
    rw [hpt] at he
    exact he
  · rw [hsame]
    exact htlb

end

end OS161
