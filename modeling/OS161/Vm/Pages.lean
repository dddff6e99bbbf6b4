import OS161.Vm.Invariant

/-! What the steps of the system do to the pages a process has mapped. -/
namespace OS161

open Machine

variable {own own' : Nat → Owner} {s t : Sys} {a : Event} {es : List Event} {p q c i j i' j' : Nat}
  {va : Vaddr} {pg : Nat → Word}

/-- The entry of a process for a pair of table indices. -/
def Sys.pte (s : Sys) (p i j : Nat) : Word := s.mach.entry (s.pt p) i j

/-- The page behind that entry. -/
def Sys.page (s : Sys) (p i j : Nat) : Option (Nat → Word) := s.mach.view (s.pt p) i j

theorem page_some (h : s.page p i j = some pg) : isValid (s.pte p i j) = true ∧
    s.mach.mem (s.mach.coremap.frameIndex (ppage (s.pte p i j))) = pg := by
  unfold Sys.page Machine.view at h
  split at h
  · rename_i hv
    exact ⟨hv, Option.some.inj h⟩
  · cases h

theorem page_of_valid (h : isValid (s.pte p i j) = true) :
    s.page p i j = some (s.mach.mem (s.mach.coremap.frameIndex (ppage (s.pte p i j)))) := if_pos h

theorem pt_setMode (mode : Mode) : (s.setMode p mode).pt = s.pt := by
  rw [Sys.setMode, pt_put]
  exact Function.update_eq_self ..

section
variable (hi : Inv own s) (hlt : i < 1024 ∧ j < 1024)
include hi hlt

/-- A page stays what it is while its process, or another, maps some page. -/
theorem Inv.page_remap {m' : Machine} {pt' : Nat → Vaddr} (hq : q ∈ s.live)
    (hr : Remap p s.live s.pt pt' own own' s.mach m' i' j') (hm : t.mach = m') (hpt : t.pt = pt')
    (hv : s.page q i j = some pg) : t.page q i j = some pg := by
  rw [Sys.page, hm, hpt]
  by_cases hself : q = p ∧ i = i' ∧ j = j'
  · obtain ⟨rfl, rfl, rfl⟩ := hself
    exact hr.view pg hv
  · have he := hr.entries q hq i j hlt.1 hself
    rw [hi.owned.view_congr hq hlt.1 hlt.2 hr.keeps he]
    exact hv

theorem Inv.page_settle {o : Outcome} (hq : q ∈ s.live) (hp : p ∈ s.live)
    (ho : Settles p s.live s.pt own (s.ctx p) va o) (hv : s.page q i j = some pg) :
    (s.settle p o).page q i j = some pg := by
  cases o with
  | done c' =>
    obtain ⟨⟨own', hr⟩, _⟩ := ho
    exact hi.page_remap hlt hq hr rfl pt_put hv
  | failed e c' =>
    obtain ⟨_, own', hr⟩ := ho
    exact hi.page_remap hlt hq (hr.remap hi.owned hp (index1_lt va) (index2_lt va)) rfl pt_put hv
  | loading l c' =>
    obtain ⟨_, _, own', hr, _⟩ := ho
    exact hi.page_remap hlt hq (hr.remap hi.owned hp (index1_lt va) (index2_lt va)) rfl pt_put hv

/-- `sys_fork` leaves every page as it is and gives the child its parent's. -/
theorem Inv.page_fork (pg : Nat → Word) {heapbase breakaddr : Vaddr}
    (h : Step s (.fork p c heapbase breakaddr) t) :
    (∀ q, q ∈ s.live → s.page q i j = some pg → t.page q i j = some pg) ∧
      (s.page p i j = some pg → t.page c i j = some pg) := by
  cases h with
  | @fork _ m table _ _ hr hz hcard hm =>
  have hp := hr.2.1
  rw [makeReadonly_false]
  obtain ⟨own', _, hkeep, hent, _, hchild⟩ := hi.owned.fork hp hz hi.next_notMem hcard hm
  generalize m.makeReadonly table true = m₂ at hkeep hent hchild ⊢
  refine ⟨?_, ?_⟩
  · intro q hq hv
    have hview : m₂.view (s.pt q) i j = s.mach.view (s.pt q) i j :=
      hi.owned.view_congr hq hlt.1 hlt.2 hkeep (hent q hq i j hlt.1)
    unfold Sys.page Sys.pt
    simp only [Function.update_of_ne (hi.ne_next hq)]
    exact hview.trans hv
  · intro hv
    obtain ⟨hval, rfl⟩ := page_some hv
    obtain ⟨f, hflt, hf, hfo, _⟩ := hi.owned.view_eq hp hlt.1 hlt.2 hval
    have he := hchild i j hlt.1 hlt.2
    have hval' : isValid (s.mach.entry (s.pt p) i j) = true := hval
    have hf' : ppage (s.pte p i j) = s.mach.coremap.frameAddr f := hf
    rw [hf', Coremap.frameIndex_frameAddr hflt]
    unfold Sys.page Sys.pt
    simp only [Function.update_self, Sys.child]
    simp [Machine.view, he, hval', hf, hkeep.frames.frameIndex, Coremap.frameIndex_frameAddr hflt,
      hkeep.mem f (by simp [hfo, Owner.Kept])]

omit hlt in
theorem Inv.view_exit (hp : p ∈ s.live) (ptp : Vaddr) (i j : Nat) :
    (if s.pt p = 0#32 then s.mach else s.mach.ptDeepDestroy (s.pt p)).view ptp i j
      = s.mach.view ptp i j := by
  by_cases hz : s.pt p = 0#32
  · rw [if_pos hz]
  rw [if_neg hz]
  have hd := hi.owned.destroyed hp hz
  generalize s.mach.ptDeepDestroy (s.pt p) = m at hd ⊢
  simp only [Machine.view, hd.entry, hd.mem, hd.frames.frameIndex]

/-- Only a store changes a page that is mapped. -/
theorem Inv.page_step (h : Step s a t) (hfit : CowFits s a) (hns : ∀ p va w, a ≠ .store p va w)
    (hq : q ∈ s.live) (hv : s.page q i j = some pg) : t.page q i j = some pg := by
  have hstep := h
  cases h with
  | switch | load => exact hv
  | @store p va w e hr hva he => exact (hns _ _ _ rfl).elim
  | @trap p va store ft hr hva he | @copyfail p hc hl hm =>
    unfold Sys.page
    rw [pt_setMode]
    exact hv
  | @fault p rand va ft o hc hl hm ho =>
    exact hi.page_settle hlt hq hl (hi.fault_settles hc hfit hm ho) hv
  | @loaded p rand l r hc hl hm =>
    exact hi.page_settle hlt hq hl (hi.loaded_settles hc hm r rand) hv
  | @fork p m table heapbase breakaddr hr hpt hcard hm =>
    exact (hi.page_fork hlt pg hstep).1 q hq hv
  | @forkFailed p m table hr hpt hm =>
    obtain ⟨own', _, hext, _⟩ := hi.owned.ptCopy hr.2.1 hpt hi.next_notMem hm
    have hview : m.view (s.pt q) i j = s.mach.view (s.pt q) i j :=
      hi.owned.view_congr hq hlt.1 hlt.2 (hext.keeps s.live p)
        (hext.sameEntries hi.owned.tables q hq i j hlt.1)
    exact hview.trans hv
  | @sbrk p amount hr hpt =>
    obtain ⟨own', hrm, _⟩ := hi.sbrk_remap hr.1 hpt amount
    exact hi.page_remap hlt hq hrm rfl pt_put hv
  | @exit p hc hl hm =>
    have hview := hi.view_exit hl (s.pt q) i j
    exact hview.trans hv
  | @start as args has hcard =>
    have hpt : (Function.update s.proc s.next ⟨as, args, .user⟩ q).as.pageTable = s.pt q := by
      rw [Function.update_of_ne (hi.ne_next hq)]
      rfl
    exact (congrArg (fun x => s.mach.view x i j) hpt).trans hv

omit hlt in
theorem Inv.translate_frame {store : Bool} {e : Word} (hr : s.Runs p)
    (he : s.tlb.translate va store = .ok e) :
    isValid (s.pte p (index1 va) (index2 va)) = true ∧
      ppage e = ppage (s.pte p (index1 va) (index2 va)) := by
  obtain ⟨k, hhi, rfl, hv, _⟩ := Tlb.translate_ok he
  obtain ⟨_, hval, hfr, _⟩ := (hi.tlb p hr.1).1.backs k hv
  rw [hhi, index1_pageOf, index2_pageOf] at hval hfr
  exact ⟨hval, hfr⟩

theorem Inv.valid_step (h : Step s a t) (hfit : CowFits s a) (hq : q ∈ s.live)
    (hv : isValid (s.pte q i j) = true) : isValid (t.pte q i j) = true := by
  by_cases hs : ∃ p va w, a = .store p va w
  · obtain ⟨p, va, w, rfl⟩ := hs
    cases h with
    | @store _ _ e _ hr hva he =>
      obtain ⟨hpv, hef⟩ := hi.translate_frame hr he
      obtain ⟨g, hg, hgo⟩ := hi.owned.mapped p hr.2.1 _ _ (index1_lt va) (index2_lt va) hpv
      have hent : (s.mach.setUserWord e va w).entry (s.pt q) i j = s.mach.entry (s.pt q) i j :=
        hi.setUserWord_entry (hi.owned.inside g (by simp [hgo])) hgo (hef.trans hg) hq hlt.1
      show isValid ((s.mach.setUserWord e va w).entry (s.pt q) i j) = true
      rw [hent]
      exact hv
  · have hns : ∀ p va w, a ≠ .store p va w := fun p va w h => hs ⟨p, va, w, h⟩
    exact (page_some (hi.page_step hlt h hfit hns hq (page_of_valid hv))).1

end

/-- A process that is gone does not come back. -/
theorem Step.live_next (h : Step s a t) :
    s.next ≤ t.next ∧ ∀ q, q < s.next → q ∈ t.live → q ∈ s.live := by
  have hsame : ∀ t : Sys, t.live = s.live → t.next = s.next →
      s.next ≤ t.next ∧ ∀ q, q < s.next → q ∈ t.live → q ∈ s.live := by
    intro t hl hn
    rw [hl, hn]
    exact ⟨Nat.le_refl _, fun _ _ hq => hq⟩
  have hinsert : ∀ t : Sys, t.live = insert s.next s.live → t.next = s.next + 1 →
      s.next ≤ t.next ∧ ∀ q, q < s.next → q ∈ t.live → q ∈ s.live := by
    intro t hl hn
    rw [hl, hn]
    refine ⟨Nat.le_succ _, ?_⟩
    intro q hlt hq
    rcases Finset.mem_insert.mp hq with rfl | hq
    · exact (Nat.lt_irrefl _ hlt).elim
    · exact hq
  cases h with
  | switch | load | store | trap | copyfail | forkFailed | sbrk => exact hsame _ rfl rfl
  | fault | loaded => exact hsame _ (settle_live ..) (settle_next ..)
  | fork | start => exact hinsert _ rfl rfl
  | exit _ _ _ => exact ⟨Nat.le_refl _, fun _ _ hq => Finset.mem_of_mem_erase hq⟩

theorem run_live {ok : Sys → Event → Prop} (h : Lts.Run (Lts.Restrict Step ok) s es t)
    (hlt : q < s.next) (hq : q ∈ t.live) : q ∈ s.live := by
  induction h with
  | refl => exact hq
  | head hs _ ih =>
    obtain ⟨hle, hlive⟩ := hs.1.live_next
    exact hlive q hlt (ih (Nat.lt_of_lt_of_le hlt hle) hq)

end OS161
