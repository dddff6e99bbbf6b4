import OS161.Vm.Refcount

/-! Each process sees a memory of its own, replayed from the events by `lastStore`. -/
namespace OS161

open Machine

variable {own own' : Nat → Owner} {s t : Sys} {a : Event} {es : List Event} {p q c i j : Nat}
  {va va' : Vaddr} {v w e : Word}

/-- The word of its memory a process has at an address. -/
def Sys.peek (s : Sys) (q : Nat) (va : Vaddr) : Option Word :=
  (s.page q (index1 va) (index2 va)).map fun page => page (wordIndex va)

def SameWord (va va' : Vaddr) : Prop := pageOf va = pageOf va' ∧ wordIndex va = wordIndex va'

instance : Decidable (SameWord va va') := inferInstanceAs (Decidable (_ ∧ _))

/-- A store by `q` itself replaces the word; no other event does anything to it. -/
def replay (q : Nat) (va : Vaddr) (w : Word) : Event → Word
  | .store p va' w' => if p = q ∧ SameWord va' va then w' else w
  | _ => w

/-- The word `q` ought to see at `va` after a run, if it was `w` at first. -/
def lastStore (q : Nat) (va : Vaddr) (w : Word) (es : List Event) : Word :=
  es.foldl (replay q va) w

/-- No store goes through the TLB to a frame that other tables map too. -/
def NoSharedStore (s : Sys) (a : Event) : Prop :=
  ∀ p va w e, a = .store p va w → s.tlb.translate va true = .ok e →
    s.mach.coremap.isShared (ppage e) = false

theorem noSharedStore_of_ne (h : ∀ p va w, a ≠ .store p va w) : NoSharedStore s a :=
  fun p va w _ ha => (h p va w ha).elim

def Guarded (s : Sys) (a : Event) : Prop := CowFits s a ∧ NoSharedStore s a

theorem peek_some (h : s.peek q va = some w) :
    ∃ pg, s.page q (index1 va) (index2 va) = some pg ∧ pg (wordIndex va) = w :=
  Option.map_eq_some_iff.mp h

section
variable (hi : Inv own s)
include hi

/-- A load reads the process's own memory. -/
theorem Inv.peek_load {store : Bool} (hr : s.Runs p) (he : s.tlb.translate va store = .ok e) :
    s.peek p va = some (s.mach.userWord e va) := by
  obtain ⟨hv, hf⟩ := hi.translate_frame hr he
  rw [Sys.peek, page_of_valid hv, ← hf]
  rfl

/-- A frame with a count of 0 has a single table entry. -/
theorem Inv.user_unshared {f : Nat} (hfo : own f = .user i j)
    (hsh : s.mach.coremap.isShared (s.mach.coremap.frameAddr f) = false) (hp : p ∈ s.live)
    (hpv : isValid (s.pte p i j) = true) (hpf : ppage (s.pte p i j) = s.mach.coremap.frameAddr f)
    (hq : q ∈ s.live) (hqv : isValid (s.pte q i j) = true)
    (hqf : ppage (s.pte q i j) = s.mach.coremap.frameAddr f) : q = p := by
  have hlt := hi.owned.inside f (by simp [hfo])
  have hzero : (s.mach.coremap.entries f).shared = 0 := by
    simpa [Coremap.isShared, Coremap.frameIndex_frameAddr hlt] using hsh
  have hrefs := (hi.owned.user_refs hfo).2
  rw [hzero] at hrefs
  have hone : (s.live.filter fun r => isValid (s.pte r i j) = true ∧
      ppage (s.pte r i j) = s.mach.coremap.frameAddr f).card ≤ 1 := Nat.le_of_eq hrefs.symm
  exact Finset.card_le_one.mp hone q (by simp [hq, hqv, hqf]) p (by simp [hp, hpv, hpf])

/-- A store to a frame no other table maps is seen by nobody else. -/
theorem Inv.peek_store (hr : s.Runs p) (he : s.tlb.translate va' true = .ok e)
    (hsh : s.mach.coremap.isShared (ppage e) = false) (hq : q ∈ s.live)
    (hv : s.peek q va = some v) :
    ({ s with mach := s.mach.setUserWord e va' w } : Sys).peek q va
      = some (replay q va v (.store p va' w)) := by
  obtain ⟨hpv, hef⟩ := hi.translate_frame hr he
  obtain ⟨g, hg, hgo⟩ := hi.owned.mapped p hr.2.1 _ _ (index1_lt va') (index2_lt va') hpv
  have hglt := hi.owned.inside g (by simp [hgo])
  have heg : ppage e = s.mach.coremap.frameAddr g := hef.trans hg
  obtain ⟨pg, hpg, rfl⟩ := peek_some hv
  obtain ⟨hqv, _⟩ := page_some hpg
  obtain ⟨f, hflt, hf, hfo, hview⟩ := hi.owned.view_eq hq (index1_lt va) (index2_lt va) hqv
  rw [Sys.page, hview] at hpg
  cases hpg
  have hpte : ({ s with mach := s.mach.setUserWord e va' w } : Sys).pte q (index1 va) (index2 va)
      = s.pte q (index1 va) (index2 va) :=
    hi.setUserWord_entry hglt hgo heg hq (index1_lt va)
  have hpeek : ({ s with mach := s.mach.setUserWord e va' w } : Sys).peek q va
      = some ((s.mach.setUserWord e va' w).mem f (wordIndex va)) := by
    have hfr : s.mach.coremap.frameIndex (ppage (s.pte q (index1 va) (index2 va))) = f :=
      (congrArg s.mach.coremap.frameIndex hf).trans (Coremap.frameIndex_frameAddr hflt)
    rw [Sys.peek, page_of_valid (by rw [hpte]; exact hqv), hpte]
    exact congrArg (fun k => some ((s.mach.setUserWord e va' w).mem k (wordIndex va))) hfr
  rw [hpeek]
  simp only [Machine.setUserWord, heg, Coremap.frameIndex_frameAddr hglt, replay]
  by_cases hfg : f = g
  · subst hfg
    obtain ⟨h1, h2⟩ : index1 va' = index1 va ∧ index2 va' = index2 va := by
      simpa [hgo] using hfo
    rw [h1, h2] at hpv hg
    rw [heg] at hsh
    obtain rfl := hi.user_unshared hfo hsh hr.2.1 hpv hg hq hqv hf
    rw [Function.update_self, Function.update_apply]
    have hpage : pageOf va' = pageOf va := pageOf_eq_iff.mpr ⟨h1, h2⟩
    simp only [SameWord, hpage, true_and, eq_comm]
  · rw [Function.update_of_ne hfg, if_neg]
    rintro ⟨rfl, hpage, _⟩
    obtain ⟨h1, h2⟩ := pageOf_eq_iff.mp hpage
    rw [h1, h2, hf] at hg
    exact hfg ((Coremap.frameAddr_inj hflt hglt).mp hg)

/-- What a step of the paging system does to the memory of a process that lives on. -/
theorem Inv.peek_step (h : Step s a t) (hok : Guarded s a) (hq : q ∈ s.live)
    (hw : s.peek q va = some w) : t.peek q va = some (replay q va w a) := by
  obtain ⟨hfit, hns⟩ := hok
  by_cases hs : ∃ p va' w', a = .store p va' w'
  · obtain ⟨p, va', w', rfl⟩ := hs
    cases h with
    | @store _ _ e _ hr hva he => exact hi.peek_store hr he (hns p va' w' e rfl he) hq hw
  have hreplay : replay q va w a = w := by
    cases a with
    | store p va' w' => exact (hs ⟨p, va', w', rfl⟩).elim
    | _ => rfl
  obtain ⟨pg, hpg, rfl⟩ := peek_some hw
  have hpage := hi.page_step ⟨index1_lt va, index2_lt va⟩ h hfit
    (fun p va' w' ha => hs ⟨p, va', w', ha⟩) hq hpg
  rw [hreplay, Sys.peek, hpage]
  rfl

/-- A read of a mapped page that passes the region tests of `vm_fault` is served, at once or after
one miss. -/
theorem Inv.load_served (hr : s.Runs q) (hva : va.toNat < 2147483648)
    (hw : s.peek q va = some w) (hset : (s.proc q).as.checkSetup = .ok ())
    (hreg : ∃ r, (s.proc q).as.mappedRegion va = .ok (some r)) (rand : Nat) :
    Step s (.load q va w) s ∨ ∃ t u, Step s (.trap q .read va) t ∧ Step t (.fault q rand) u ∧
      Step u (.load q va w) u := by
  cases he : s.tlb.translate va false with
  | ok e =>
    left
    have hload : Step s (.load q va (s.mach.userWord e va)) s := .load hr hva he
    rw [hi.peek_load hr he] at hw
    cases hw
    exact hload
  | error ft =>
    right
    obtain rfl := Tlb.translate_load_error he
    obtain ⟨pg, hpg, _⟩ := peek_some hw
    have hv : isValid ((s.ctx q).pte va) = true := (page_some hpg).1
    obtain ⟨r, hreg⟩ := hreg
    obtain ⟨e, hlk, hve⟩ : ∃ e, (s.ctx q).mach.ptLookup (s.ctx q).as.pageTable va .read =
        (.pteFound, e) ∧ isValid e = true := by
      refine ⟨_, Ctx.ptLookup_valid (by simp) hv, ?_⟩
      split <;> simp [hv]
    have hfault : (s.ctx q).vmFault .read va rand
        = .ok (.done { s.ctx q with tlb := s.tlb.refill va e rand }) := by
      have htab : (s.ctx q).ensureTable = some (s.ctx q) :=
        if_neg (word_ne_zero_of_valid hv).1
      have hset' : (s.ctx q).as.checkSetup = .ok () := hset
      have hreg' : (s.ctx q).as.mappedRegion va = .ok (some r) := hreg
      simp only [Ctx.vmFault, bind, Except.bind, hset', hreg', htab, Ctx.access, hlk, pure,
        Except.pure]
      rfl
    obtain ⟨h₁, h₂⟩ := step_trap_fault false hr hva he hfault
    refine ⟨_, _, h₁, h₂, ?_⟩
    have hg₁ : Guarded s (.trap q .read va) :=
      ⟨cowFits_of_ne (by simp), noSharedStore_of_ne (by simp)⟩
    have hg₂ : Guarded (s.setMode q (.trapped .read va)) (.fault q rand) :=
      ⟨cowFits_miss (by simp), noSharedStore_of_ne (by simp)⟩
    obtain ⟨own₁, hi₁⟩ := inv_step h₁ hg₁.1 hi
    obtain ⟨own₂, hi₂⟩ := inv_step h₂ hg₂.1 hi₁
    have hw₂ := hi₁.peek_step h₂ hg₂ hr.2.1 (hi.peek_step h₁ hg₁ hr.2.1 hw)
    generalize hu : s.settle q (.done { s.ctx q with tlb := s.tlb.refill va e rand }) = u at *
    have hru : u.Runs q := by
      rw [← hu]
      exact ⟨hr.1, hr.2.1, by simp [Sys.settle, Sys.put]⟩
    have hslot : u.tlb (s.tlb.refillSlot rand) = ⟨pageOf va, e⟩ := by
      rw [← hu]
      exact Function.update_self ..
    have htr := Tlb.translate_of_hi (hi₂.tlb q hru.1).1.inj (congrArg TlbEntry.hi hslot)
      ((congrArg (fun x => isValid x.lo) hslot).trans hve)
    have hload : Step u (.load q va _) u := .load hru hva htr
    rw [hi₂.peek_load hru htr] at hw₂
    cases hw₂
    exact hload

end

/-- The memory of a process after a run is replayed from its own stores. -/
theorem run_peek (h : Lts.Run (Lts.Restrict Step Guarded) s es t) (hi : Inv own s)
    (hlt : q < s.next) (hq : q ∈ t.live) (hw : s.peek q va = some w) :
    (∃ own', Inv own' t) ∧ t.peek q va = some (lastStore q va w es) := by
  induction h generalizing own w with
  | refl => exact ⟨⟨own, hi⟩, hw⟩
  | head hs hrun ih =>
    have hlt' := Nat.lt_of_lt_of_le hlt hs.1.live_next.1
    have hlive := hs.1.live_next.2 q hlt (run_live hrun hlt' hq)
    obtain ⟨own₁, hi₁⟩ := inv_step hs.1 hs.2.1 hi
    exact ih hi₁ hlt' hq (hi.peek_step hs.1 hs.2 hlive hw)

/-- Isolation of parent and child: in every run after a fork in which no store goes through the
TLB to a frame that is still shared, a load by either of them of a word mapped at the fork gives
what it has stored there itself since, or else what its parent had there at the fork. A load of an
address in one of the regions `vm_fault` knows is served, after one miss at most. -/
theorem fork_isolated {s₁ : Sys} {heapbase breakaddr : Vaddr} (h : Reachable s)
    (hf : Step s (.fork p c heapbase breakaddr) s₁)
    (hrun : Lts.Run (Lts.Restrict Step Guarded) s₁ es t) (hq : q = p ∨ q = c) (hl : q ∈ t.live)
    (hv : s.peek p va = some v) :
    (∀ w u, Step t (.load q va w) u → w = lastStore q va v es) ∧
    (t.Runs q → va.toNat < 2147483648 → (t.proc q).as.checkSetup = .ok () →
      (∃ r, (t.proc q).as.mappedRegion va = .ok (some r)) → ∀ rand,
      Step t (.load q va (lastStore q va v es)) t ∨
      ∃ u u', Step t (.trap q .read va) u ∧ Step u (.fault q rand) u' ∧
        Step u' (.load q va (lastStore q va v es)) u') := by
  obtain ⟨own, hi⟩ := inv_reachable h
  obtain ⟨own₁, hi₁⟩ := inv_step hf (cowFits_of_ne (by simp)) hi
  have hpeek : s₁.peek q va = some v ∧ q < s₁.next := by
    obtain ⟨pg, hpg, hw⟩ := peek_some hv
    have hforked := hi.page_fork ⟨index1_lt va, index2_lt va⟩ pg hf
    have hpage : s₁.page q (index1 va) (index2 va) = some pg ∧ q < s₁.next := by
      cases hf with
      | fork hr hz hcard hm =>
        rcases hq with rfl | rfl
        · exact ⟨hforked.1 _ hr.2.1 hpg, Nat.lt_succ_of_lt (hi.fresh _ hr.2.1)⟩
        · exact ⟨hforked.2 hpg, Nat.lt_succ_self _⟩
    refine ⟨?_, hpage.2⟩
    rw [Sys.peek, hpage.1]
    exact congrArg some hw
  obtain ⟨⟨own', hi'⟩, hpeek'⟩ := run_peek hrun hi₁ hpeek.2 hl hpeek.1
  refine ⟨?_, ?_⟩
  · intro w u hload
    cases hload with
    | load hr hva he =>
      rw [hi'.peek_load hr he] at hpeek'
      exact Option.some.inj hpeek'
  · intro hr hva hset hreg rand
    exact hi'.load_served hr hva hpeek' hset hreg rand

namespace OnePage

def copiedOnWrite : Sys := afterFault forked 0 .readonly stackVa

def rewritten : Sys :=
  { copiedOnWrite with mach := copiedOnWrite.mach.setUserWord 0x6600#32 stackVa 2#32 }

theorem run_rewritten : Lts.Run (Lts.Restrict Step Guarded) forked
    [.trap 0 .readonly stackVa, .fault 0 0, .store 0 stackVa 2#32, .switch (some 1)]
    (switched rewritten 1) := by
  obtain ⟨h₁, h₂⟩ := step_afterFault forked 0 .readonly stackVa true ⟨rfl, by decide, rfl⟩
    (by decide) rfl rfl
  refine .head ⟨h₁, cowFits_of_ne (by simp), noSharedStore_of_ne (by simp)⟩
    (.head ⟨h₂, ?_, noSharedStore_of_ne (by simp)⟩
    (.head (t := rewritten) ⟨?_, cowFits_of_ne (by simp), ?_⟩
    (.single ⟨.switch (by decide), cowFits_of_ne (by simp), noSharedStore_of_ne (by simp)⟩)))
  · intro _ _ _ _ _ _
    exact ⟨by decide +kernel, 5, by decide, by decide +kernel⟩
  · exact .store ⟨rfl, by decide, rfl⟩ (by decide) rfl
  intro p va w e heq he
  cases heq
  have he' : copiedOnWrite.tlb.translate stackVa true = .ok 0x6600#32 := rfl
  obtain rfl : 0x6600#32 = e := Except.ok.inj (he'.symm.trans he)
  decide +kernel

theorem peek_written : written.peek 0 stackVa = some 1#32 := by decide +kernel

theorem fork_isolated_child :
    (∀ w u, Step (switched rewritten 1) (.load 1 stackVa w) u → w = 1#32) ∧
    (Step (switched rewritten 1) (.load 1 stackVa 1#32) (switched rewritten 1) ∨
      ∃ u u', Step (switched rewritten 1) (.trap 1 .read stackVa) u ∧ Step u (.fault 1 0) u' ∧
        Step u' (.load 1 stackVa 1#32) u') := by
  have h := fork_isolated reachable_written step_fork run_rewritten (.inr rfl) (by decide)
    peek_written
  exact ⟨h.1, h.2 ⟨rfl, by decide, rfl⟩ (by decide) rfl ⟨.stack, rfl⟩ 0⟩

def refilled : Sys := afterFault (switched (switched forked 1) 0) 0 .write stackVa

def overwritten : Sys :=
  { refilled with mach := refilled.mach.setUserWord 0x3600#32 stackVa 2#32 }

def childReads : Sys := afterFault (switched overwritten 1) 1 .read stackVa

def parentWrites : List Event :=
  [.switch (some 1), .switch (some 0), .trap 0 .write stackVa, .fault 0 0, .store 0 stackVa 2#32,
    .switch (some 1), .trap 1 .read stackVa, .fault 1 0]

theorem run_childReads : Lts.Run (Lts.Restrict Step CowFits) forked parentWrites childReads := by
  obtain ⟨h₁, h₂⟩ := step_afterFault (switched (switched forked 1) 0) 0 .write stackVa true
    ⟨rfl, by decide, rfl⟩ (by decide) rfl rfl
  obtain ⟨h₃, h₄⟩ := step_afterFault (switched overwritten 1) 1 .read stackVa false
    ⟨rfl, by decide, rfl⟩ (by decide) rfl rfl
  have hstore : Step refilled (.store 0 stackVa 2#32) overwritten :=
    .store ⟨rfl, by decide, rfl⟩ (by decide) rfl
  exact .head ⟨.switch (by decide), cowFits_of_ne (by simp)⟩
    (.head ⟨.switch (by decide), cowFits_of_ne (by simp)⟩
    (.head ⟨h₁, cowFits_of_ne (by simp)⟩ (.head ⟨h₂, cowFits_miss (by simp)⟩
    (.head ⟨hstore, cowFits_of_ne (by simp)⟩
    (.head ⟨.switch (by decide), cowFits_of_ne (by simp)⟩
    (.head ⟨h₃, cowFits_of_ne (by simp)⟩ (.single ⟨h₄, cowFits_miss (by simp)⟩)))))))

/-- The child never wrote to the page, and reads 2 where its parent had 1 at the fork. -/
theorem parent_store_visible : Reachable written ∧ Step written (.fork 0 1 0#32 0#32) forked ∧
    written.peek 0 stackVa = some 1#32 ∧
    Lts.Run (Lts.Restrict Step CowFits) forked parentWrites childReads ∧
    lastStore 1 stackVa 1#32 parentWrites = 1#32 ∧
    Step childReads (.load 1 stackVa 2#32) childReads :=
  ⟨reachable_written, step_fork, peek_written, run_childReads, rfl,
    .load (e := 0x3201#32) ⟨rfl, by decide, rfl⟩ (by decide) rfl⟩

end OnePage

/-- The frame is one of the page table of the process, at its first or its second level. -/
def Sys.InTable (s : Sys) (q f : Nat) : Prop :=
  f < s.mach.coremap.size ∧ s.pt q ≠ 0#32 ∧
    (s.pt q = s.mach.kva f ∨ ∃ i, i < 1024 ∧ s.mach.word (s.pt q) i = s.mach.coremap.frameAddr f)

theorem Inv.inTable {f : Nat} (hi : Inv own s) (hq : q ∈ s.live) (h : s.InTable q f) :
    own f = .dir q ∨ ∃ i, own f = .table q i := by
  obtain ⟨hf, hz, hlevel⟩ := h
  obtain ⟨d, hd, hpt, hdo, htab⟩ := hi.owned.tables q hq hz
  rcases hlevel with hfirst | ⟨i, hlt, hsecond⟩
  · obtain rfl := kva_inj hd hf (hpt.symm.trans hfirst)
    exact .inl hdo
  rw [hpt, word_kva hd] at hsecond
  obtain ⟨g, hg, hmem, hgo⟩ := htab i hlt (hsecond ▸ Coremap.frameAddr_ne_zero hf)
  obtain rfl := (Coremap.frameAddr_inj hg hf).mp (hmem.symm.trans hsecond)
  exact .inr ⟨i, hgo⟩

/-- Page tables are out of the reach of user programs: no process maps a frame of a page table, its
own or another's, no two page tables have a frame in common, and no store changes an entry. -/
theorem page_tables_protected (h : Reachable s) :
    (∀ p q f i j, p ∈ s.live → q ∈ s.live → i < 1024 → j < 1024 → isValid (s.pte p i j) = true →
      s.InTable q f → ppage (s.pte p i j) ≠ s.mach.coremap.frameAddr f) ∧
    (∀ p q f, p ∈ s.live → q ∈ s.live → s.InTable p f → s.InTable q f → p = q) ∧
    ∀ p va w t, Step s (.store p va w) t → ∀ q i j, q ∈ s.live → i < 1024 →
      t.pte q i j = s.pte q i j := by
  obtain ⟨own, hi⟩ := inv_reachable h
  refine ⟨?_, ?_, ?_⟩
  · intro p q f i j hp hq hlt hlt' hv hf heq
    obtain ⟨g, hg, hgo⟩ := hi.owned.mapped p hp i j hlt hlt' hv
    have hlt := hi.owned.inside g (by simp [hgo])
    obtain rfl := (Coremap.frameAddr_inj hlt hf.1).mp (hg.symm.trans heq)
    have := hi.inTable hq hf
    simp_all
  · intro p q f hp hq hpf hqf
    have := hi.inTable hp hpf
    have := hi.inTable hq hqf
    grind
  intro p va w t hstore q i j hq hlt
  cases hstore with
  | store hr hva he =>
    obtain ⟨hv, hfr⟩ := hi.translate_frame hr he
    obtain ⟨g, hg, hgo⟩ := hi.owned.mapped p hr.2.1 _ _ (index1_lt _) (index2_lt _) hv
    exact hi.setUserWord_entry (hi.owned.inside g (by simp [hgo])) hgo (hfr.trans hg) hq hlt

theorem page_tables_protected_forked :
    OnePage.forked.InTable 1 3 ∧ ¬ OnePage.forked.InTable 0 3 := by
  have hf : OnePage.forked.InTable 1 3 :=
    ⟨by decide +kernel, by decide +kernel, .inl (by decide +kernel)⟩
  refine ⟨hf, fun h0 => ?_⟩
  cases (page_tables_protected OnePage.reachable_forked).2.1 0 1 3 (by decide) (by decide) h0 hf

end OS161
