import OS161.Vm.Pages

/-! A page becomes mapped only by a fault at it, by `sys_sbrk` at address 0, or by a fork. -/
namespace OS161

open Machine

variable {own : Nat → Owner} {s t : Sys} {a : Event} {p q i j : Nat}

/-- The call by which a process may map the page `(i, j)`. -/
def MapCall (s : Sys) (a : Event) (q i j : Nat) : Prop :=
  (∃ rand ft va, a = .fault q rand ∧ (s.proc q).mode = .trapped ft va ∧ i = index1 va ∧
    j = index2 va) ∨
  (∃ r rand l, a = .loaded q r rand ∧ (s.proc q).mode = .loading l ∧ i = index1 l.va ∧
    j = index2 l.va) ∨
  ∃ amount, a = .sbrk q amount ∧ i = index1 0#32 ∧ j = index2 0#32

structure Evolves (s : Sys) (a : Event) (t : Sys) : Prop where
  kept : ∀ q, q ∈ s.live → ∀ i j, i < 1024 → j < 1024 →
    isValid (s.pte q i j) = true → isValid (t.pte q i j) = true
  mapped : ∀ q, q ∈ s.live → ∀ i j, i < 1024 → j < 1024 →
    isValid (t.pte q i j) = true → isValid (s.pte q i j) = true ∨ MapCall s a q i j
  child : ∀ p c heapbase breakaddr, a = .fork p c heapbase breakaddr →
    ∀ i j, i < 1024 → j < 1024 → isValid (t.pte c i j) = isValid (s.pte p i j)
  done : ∀ q rand ft va c, a = .fault q rand → (s.proc q).mode = .trapped ft va →
    (s.ctx q).vmFault ft va rand = .ok (.done c) →
    isValid (t.pte q (index1 va) (index2 va)) = true

/-- A fault leaves every entry alone but the one of the page at fault. -/
theorem Settles.pte {o : Outcome} {va : Vaddr} (hq : q ∈ s.live)
    (ho : Settles p s.live s.pt own (s.ctx p) va o) (hlt : i < 1024)
    (hne : ¬ (q = p ∧ i = index1 va ∧ j = index2 va)) : (s.settle p o).pte q i j = s.pte q i j := by
  cases o with
  | done c' =>
    obtain ⟨⟨own', hr⟩, _⟩ := ho
    show c'.mach.entry ((s.put p c' _).pt q) i j = _
    rw [pt_put]
    exact hr.entries q hq i j hlt hne
  | failed e c' =>
    obtain ⟨_, own', hr⟩ := ho
    show c'.mach.entry ((s.put p c' _).pt q) i j = _
    rw [pt_put]
    exact hr.entries q hq i j hlt
  | loading l c' =>
    obtain ⟨_, _, own', hr, _⟩ := ho
    show c'.mach.entry ((s.put p c' _).pt q) i j = _
    rw [pt_put]
    exact hr.entries q hq i j hlt

section
variable (hi : Inv own s)
include hi

theorem Inv.evolves_settle {o : Outcome} {va : Vaddr} {ft : FaultType} (hp : p ∈ s.live)
    (hm : (s.proc p).mode = .trapped ft va) (ho : Settles p s.live s.pt own (s.ctx p) va o)
    (rand : Nat) :
    (∀ q, q ∈ s.live → ∀ i j, i < 1024 → j < 1024 → isValid (s.pte q i j) = true →
      isValid ((s.settle p o).pte q i j) = true) ∧
    (∀ q, q ∈ s.live → ∀ i j, i < 1024 → j < 1024 → isValid ((s.settle p o).pte q i j) = true →
      isValid (s.pte q i j) = true ∨ MapCall s (.fault p rand) q i j) ∧
    ((∃ c, o = .done c) → isValid ((s.settle p o).pte p (index1 va) (index2 va)) = true) := by
  refine ⟨?_, ?_, ?_⟩
  · intro q hq i j hi' hj' hv
    exact (page_some (hi.page_settle ⟨hi', hj'⟩ hq hp ho (page_of_valid hv))).1
  · intro q hq i j hi' _ hv
    by_cases hself : q = p ∧ i = index1 va ∧ j = index2 va
    · obtain ⟨rfl, rfl, rfl⟩ := hself
      exact .inr (.inl ⟨rand, ft, va, rfl, hm, rfl, rfl⟩)
    · rw [Settles.pte hq ho hi' hself] at hv
      exact .inl hv
  · rintro ⟨c, rfl⟩
    show isValid (c.mach.entry ((s.put p c _).pt p) _ _) = true
    rw [pt_put, Function.update_self]
    exact ho.2.2

theorem Inv.mapped_step (h : Step s a t) (hfit : CowFits s a) (hq : q ∈ s.live) (hlt : i < 1024)
    (hlt' : j < 1024) (hv : isValid (t.pte q i j) = true) :
    isValid (s.pte q i j) = true ∨ MapCall s a q i j := by
  have hsame : t.pte q i j = s.pte q i j →
      isValid (s.pte q i j) = true ∨ MapCall s a q i j := fun he => .inl (he ▸ hv)
  have hold := hi.ne_next hq
  cases h with
  | switch | load => exact hsame rfl
  | @store p va w e hr hva he =>
    obtain ⟨hpv, hef⟩ := hi.translate_frame hr he
    obtain ⟨g, hg, hgo⟩ := hi.owned.mapped p hr.2.1 _ _ (index1_lt va) (index2_lt va) hpv
    exact hsame (hi.setUserWord_entry (hi.owned.inside g (by simp [hgo])) hgo (hef.trans hg) hq hlt)
  | @trap p va store ft hr hva he | @copyfail p hc hl hm =>
    refine hsame ?_
    unfold Sys.pte
    rw [pt_setMode]
    rfl
  | @fault p rand va ft o hc hl hm ho =>
    exact (hi.evolves_settle hl hm (hi.fault_settles hc hfit hm ho) rand).2.1 q hq i j hlt hlt' hv
  | @loaded p rand l r hc hl hm =>
    by_cases hself : q = p ∧ i = index1 l.va ∧ j = index2 l.va
    · obtain ⟨rfl, rfl, rfl⟩ := hself
      exact .inr (.inr (.inl ⟨r, rand, l, rfl, hm, rfl, rfl⟩))
    · exact hsame (Settles.pte hq (hi.loaded_settles hc hm r rand) hlt hself)
  | @fork p m table heapbase breakaddr hr hpt hcard hm =>
    obtain ⟨own', _, _, hent, _⟩ := hi.owned.fork hr.2.1 hpt hi.next_notMem hcard hm
    refine hsame ?_
    rw [makeReadonly_false]
    simp only [Sys.pte, Sys.pt, Function.update_of_ne hold]
    exact hent q hq i j hlt
  | @forkFailed p m table hr hpt hm =>
    obtain ⟨own', _, hext, _⟩ := hi.owned.ptCopy hr.2.1 hpt hi.next_notMem hm
    exact hsame (hext.sameEntries hi.owned.tables q hq i j hlt)
  | @sbrk p amount hr hpt =>
    by_cases hself : q = p ∧ i = index1 0#32 ∧ j = index2 0#32
    · obtain ⟨rfl, rfl, rfl⟩ := hself
      exact .inr (.inr (.inr ⟨amount, rfl, rfl, rfl⟩))
    obtain ⟨own', hrm, _⟩ := hi.sbrk_remap hr.1 hpt amount
    refine hsame ?_
    show ((s.ctx p).sysSbrk amount).2.mach.entry ((s.put p _ _).pt q) i j = _
    rw [pt_put]
    exact hrm.entries q hq i j hlt hself
  | @exit p hc hl hm =>
    have hent : (if s.pt p = 0#32 then s.mach else s.mach.ptDeepDestroy (s.pt p)).entry (s.pt q) i j
        = s.mach.entry (s.pt q) i j := by
      split
      · rfl
      · rename_i hz
        exact (hi.owned.destroyed hl hz).entry _ _ _
    exact hsame hent
  | @start as args has hcard =>
    refine hsame ?_
    simp only [Sys.pte, Sys.pt, Function.update_of_ne hold]

theorem Inv.child_step {c : Nat} {heapbase breakaddr : Vaddr}
    (h : Step s (.fork p c heapbase breakaddr) t) (hlt : i < 1024) (hlt' : j < 1024) :
    isValid (t.pte c i j) = isValid (s.pte p i j) := by
  cases h with
  | @fork _ m table _ _ hr hz hcard hm =>
  obtain ⟨own', _, _, _, _, hchild⟩ := hi.owned.fork hr.2.1 hz hi.next_notMem hcard hm
  rw [makeReadonly_false]
  simp only [Sys.pte, Sys.pt, Function.update_self, Sys.child]
  rw [hchild i j hlt hlt']
  split
  · simp [Sys.pt]
  · rfl

theorem Inv.evolves (h : Step s a t) (hfit : CowFits s a) : Evolves s a t := by
  refine ⟨?_, ?_, ?_, ?_⟩
  · intro q hq i j hi' hj' hv
    exact hi.valid_step ⟨hi', hj'⟩ h hfit hq hv
  · intro q hq i j hi' hj' hv
    exact hi.mapped_step h hfit hq hi' hj' hv
  · rintro p c heapbase breakaddr rfl i j hi' hj'
    exact hi.child_step h hi' hj'
  rintro q rand ft va c rfl hm ho
  cases h with
  | @fault _ _ va' ft' o hc hl hm' ho' =>
    rw [hm] at hm'
    cases hm'
    rw [ho] at ho'
    cases ho'
    exact (hi.evolves_settle hl hm (hi.fault_settles hc hfit hm ho) rand).2.2 ⟨c, rfl⟩

end

end OS161
