import OS161.Vm.FaultSpec

/-! The invariant of the paging system, and that every step keeps it. -/
namespace OS161

open Machine
open Function (update_self update_of_ne update)
open Finset (mem_insert mem_of_mem_erase)

variable {live : Finset Nat} {pt pt' : Nat → Vaddr} {own own' : Nat → Owner} {m m' : Machine}
  {p q f i j : Nat} {va ptp : Vaddr} {s t : Sys} {a : Event} {c : Ctx} {mode : Mode}

/-- What the page table of a process in the middle of a fault looks like. -/
def ModeOK (own : Nat → Owner) (m : Machine) (p : Nat) (ptp : Vaddr) : Mode → Prop
  | .trapped ft va => va.toNat < 2147483648 ∧
    (ft = .readonly → isValid (m.entry ptp (index1 va) (index2 va)) = true)
  | .loading l => l.va.toNat < 2147483648 ∧ Awaits own m p ptp l
  | _ => True

/-- The page that is about to be entered in the TLB is not there yet. -/
def Missed (t : Tlb) : Mode → Prop
  | .trapped ft va => ft ≠ .readonly → ∀ i, (t i).hi ≠ pageOf va
  | .loading l => ∀ i, (t i).hi ≠ pageOf l.va
  | _ => True

structure Inv (own : Nat → Owner) (s : Sys) : Prop where
  owned : Owned s.live s.pt own s.mach
  fresh : ∀ p, p ∈ s.live → p < s.next
  cur : ∀ p, s.cur = some p → p ∈ s.live
  mode : ∀ p, p ∈ s.live → ModeOK own s.mach p (s.pt p) (s.proc p).mode
  tlb : ∀ p, s.cur = some p → TlbFor s.mach (s.pt p) s.tlb ∧ Missed s.tlb (s.proc p).mode

section
variable (hi : Inv own s)
include hi

theorem Inv.ne_next (hq : q ∈ s.live) : q ≠ s.next := (hi.fresh q hq).ne

theorem Inv.next_notMem : s.next ∉ s.live := fun hl => hi.ne_next hl rfl

theorem Inv.fresh_insert (hq : q ∈ insert s.next s.live) : q < s.next + 1 := by
  rcases mem_insert.mp hq with rfl | hq
  · exact Nat.lt_succ_self _
  · exact Nat.lt_succ_of_lt (hi.fresh q hq)

end

theorem Keeps.word (hk : Keeps live p own own' m m') (ht : OwnsTable own m q ptp) (hq : q ∈ live)
    (hqp : q ≠ p) (hz : ptp ≠ 0#32) : m'.word ptp i = m.word ptp i := by
  obtain ⟨d, hd, rfl, hdo, _⟩ := ht hz
  rw [word, word, hk.frames.frameOf, frameOf_kva hd, hk.mem d (by simp [hdo, Owner.Kept, hq, hqp])]

theorem ModeOK.congr (hs : SameFrames m m') (hpend : ∀ f, own f = .pending q → own' f = .pending q)
    (hword : ptp ≠ 0#32 → ∀ i, m'.word ptp i = m.word ptp i)
    (he : ∀ i j, i < 1024 → m'.entry ptp i j = m.entry ptp i j)
    (h : ModeOK own m q ptp mode) : ModeOK own' m' q ptp mode := by
  cases mode with
  | user | faulted => trivial
  | trapped ft va =>
    obtain ⟨hva, hv⟩ := h
    exact ⟨hva, by rw [he _ _ (index1_lt va)]; exact hv⟩
  | loading l =>
    obtain ⟨hva, ⟨f, hlt, hfr, hfo⟩, hz, hw, habs⟩ := h
    refine ⟨hva, ⟨f, ?_, ?_, hpend f hfo⟩, hz, ?_, ?_⟩
    · rw [hs.size]
      exact hlt
    · rw [hs.kva]
      exact hfr
    · rw [hword hz]
      exact hw
    · rw [he _ _ (index1_lt l.va)]
      exact habs

theorem ModeOK.keep (hk : Keeps live p own own' m m') (ht : OwnsTable own m q ptp) (hq : q ∈ live)
    (hqp : q ≠ p) (he : ∀ i j, i < 1024 → m'.entry ptp i j = m.entry ptp i j)
    (h : ModeOK own m q ptp mode) : ModeOK own' m' q ptp mode := by
  refine h.congr hk.frames ?_ (fun hz _ => hk.word ht hq hqp hz) he
  intro f hf
  rw [hk.label f (by simp [hf, Owner.Kept, hqp]), hf]

theorem pt_put : (s.put p c mode).pt = update s.pt p c.as.pageTable := by
  funext q
  by_cases hqp : q = p
  · subst q
    simp [Sys.pt, Sys.put]
  · simp [Sys.pt, Sys.put, hqp]

theorem proc_put (hqp : q ≠ p) : (s.put p c mode).proc q = s.proc q := by
  simp [Sys.put, hqp]

theorem Inv.put (hi : Inv own s) (hc : s.cur = some p)
    (ho : Owned s.live (update s.pt p c.as.pageTable) own' c.mach)
    (hk : Keeps s.live p own own' s.mach c.mach)
    (he : ∀ q, q ∈ s.live → q ≠ p → ∀ i j, i < 1024 →
      c.mach.entry (s.pt q) i j = s.mach.entry (s.pt q) i j)
    (hm : ModeOK own' c.mach p c.as.pageTable mode)
    (ht : TlbFor c.mach c.as.pageTable c.tlb) (hmiss : Missed c.tlb mode) :
    Inv own' (s.put p c mode) := by
  have hpt : (s.put p c mode).pt p = c.as.pageTable := by rw [pt_put, update_self]
  have hmode : ((s.put p c mode).proc p).mode = mode := by simp [Sys.put]
  refine ⟨by rw [pt_put]; exact ho, hi.fresh, hi.cur, ?_, ?_⟩
  · intro q hq
    by_cases hqp : q = p
    · subst q
      rw [hpt, hmode]
      exact hm
    · rw [pt_put, update_of_ne hqp, proc_put hqp]
      exact (hi.mode q hq).keep hk (hi.owned.tables q hq) hq hqp (he q hq hqp)
  · intro q hq
    obtain rfl : p = q := by
      have : s.cur = some q := hq
      rw [hc] at this
      exact Option.some.inj this
    rw [hpt, hmode]
    exact ⟨ht, hmiss⟩

/-- The outcomes of a fault keep the invariant. -/
theorem Inv.settle {o : Outcome} (hi : Inv own s) (hc : s.cur = some p)
    (hva : va.toNat < 2147483648) (hmiss : ∀ l c, o = .loading l c → ∀ i, (s.tlb i).hi ≠ pageOf va)
    (ho : Settles p s.live s.pt own (s.ctx p) va o) : ∃ own', Inv own' (s.settle p o) := by
  have hp := hi.cur p hc
  have hquiet : ∀ (c' : Ctx) (own' : Nat → Owner) (mode : Mode), c'.tlb = s.tlb →
      Quiet p s.live s.pt (update s.pt p c'.as.pageTable) own own' s.mach c'.mach →
      ModeOK own' c'.mach p c'.as.pageTable mode → Missed c'.tlb mode →
      Inv own' (s.put p c' mode) := by
    intro c' own' mode htlb hq hm hms
    refine hi.put hc hq.owned hq.keeps ?_ hm ?_ hms
    · intro q hql hqp i j hi'
      have := hq.entries q hql i j hi'
      rwa [update_of_ne hqp] at this
    rw [htlb]
    refine (hi.tlb p hc).1.congr ?_
    intro i j hi' _
    have := hq.entries p hp i j hi'
    rwa [update_self] at this
  cases o with
  | done c' =>
    obtain ⟨⟨own', hr⟩, ht, _⟩ := ho
    refine ⟨own', hi.put hc hr.owned hr.keeps ?_ trivial ht trivial⟩
    intro q hql hqp i j hi'
    have := hr.entries q hql i j hi' (by tauto)
    rwa [update_of_ne hqp] at this
  | failed e c' =>
    obtain ⟨htlb, own', hq⟩ := ho
    exact ⟨own', hquiet c' own' .faulted htlb hq trivial trivial⟩
  | loading l c' =>
    obtain ⟨htlb, hl, own', hq, ha⟩ := ho
    refine ⟨own', hquiet c' own' (.loading l) htlb hq ⟨by rw [hl]; exact hva, ha⟩ ?_⟩
    intro i
    rw [htlb, hl]
    exact hmiss l c' rfl i

theorem Inv.setMode (hi : Inv own s) (hc : s.cur = some p)
    (hm : ModeOK own s.mach p (s.pt p) mode) (hmiss : Missed s.tlb mode) :
    Inv own (s.setMode p mode) := by
  have ho : Owned s.live (update s.pt p (s.ctx p).as.pageTable) own s.mach := by
    show Owned s.live (update s.pt p (s.pt p)) own s.mach
    rw [Function.update_eq_self]
    exact hi.owned
  exact hi.put hc ho (.refl _ _ _ _) (fun _ _ _ _ _ _ => rfl) hm (hi.tlb p hc).1 hmiss

theorem missed_asActivate (h : ModeOK own m p ptp mode) : Missed asActivate mode := by
  cases mode with
  | user | faulted => trivial
  | trapped ft va =>
    intro _ i
    exact Tlb.tlbhiInvalid_ne_pageOf h.1
  | loading l =>
    intro i
    exact Tlb.tlbhiInvalid_ne_pageOf h.1

section
variable {e w : Word} {g : Nat}

theorem Machine.setUserWord_mem (hg : g < m.coremap.size) (he : ppage e = m.coremap.frameAddr g)
    (hfg : f ≠ g) : (m.setUserWord e va w).mem f = m.mem f := by
  simp only [Machine.setUserWord, he, Coremap.frameIndex_frameAddr hg]
  rw [update_of_ne hfg]

variable (hi : Inv own s) (hg : g < s.mach.coremap.size) (hgo : own g = .user i j)
  (he : ppage e = s.mach.coremap.frameAddr g)
include hi hg hgo he

theorem Inv.setUserWord_entry (hq : q ∈ s.live) {i j : Nat} (hlt : i < 1024) :
    (s.mach.setUserWord e va w).entry (s.pt q) i j = s.mach.entry (s.pt q) i j := by
  refine entry_outside hi.owned.tables ⟨rfl, rfl⟩ ?_ hq hlt
  intro r _ f hf
  apply setUserWord_mem hg he
  rintro rfl
  simp [hgo] at hf

/-- A user store lands in a frame that holds no table. -/
theorem Inv.setUserWord : Inv own { s with mach := s.mach.setUserWord e va w } := by
  have htab : ∀ q, q ∈ s.live → ∀ f, (own f = .dir q ∨ ∃ i, own f = .table q i) →
      (s.mach.setUserWord e va w).mem f = s.mach.mem f := by
    intro q _ f hf
    apply setUserWord_mem hg he
    rintro rfl
    simp [hgo] at hf
  have hent : ∀ q, q ∈ s.live → ∀ i j, i < 1024 →
      (s.mach.setUserWord e va w).entry (s.pt q) i j = s.mach.entry (s.pt q) i j :=
    fun q hq i j hlt => hi.setUserWord_entry hg hgo he hq hlt
  have hs : SameFrames s.mach (s.mach.setUserWord e va w) := ⟨rfl, rfl⟩
  refine ⟨hi.owned.setMem rfl htab, hi.fresh, hi.cur, ?_, ?_⟩
  · intro q hq
    refine (hi.mode q hq).congr hs (fun _ hf => hf) ?_ (hent q hq)
    intro hz k
    obtain ⟨d, hd, hpd, hdo, _⟩ := hi.owned.tables q hq hz
    show (s.mach.setUserWord e va w).word (s.pt q) k = s.mach.word (s.pt q) k
    rw [hpd, word, word, hs.frameOf, frameOf_kva hd, htab q hq d (.inl hdo)]
  · intro q hq
    obtain ⟨ht, hm⟩ := hi.tlb q hq
    exact ⟨ht.congr fun i j hi' _ => hent q (hi.cur q hq) i j hi', hm⟩

end

theorem Owned.insert_null (h : Owned live pt own m) (hc : p ∉ live) (hz : pt' p = 0#32)
    (hpt : ∀ q, q ∈ live → pt' q = pt q) : Owned (insert p live) pt' own m := by
  have hentry : ∀ i j, m.entry (pt' p) i j = 0#32 := by
    intro i j
    rw [hz, entry_null]
  have hrefs : ∀ i j f, m.refs (insert p live) pt' i j f = m.refs live pt i j f := by
    intro i j f
    rw [refs_split (Finset.mem_insert_self p live), otherRefs, Finset.erase_insert hc,
      if_neg (by simp [hentry]), Nat.add_zero]
    exact refs_congr (.refl m) fun q hq => by rw [hpt q hq]
  refine ⟨h.inside, ?_, ?_, ?_⟩
  · intro f hf
    refine (h.frames f hf).congr ?_
    intro i j _
    exact hrefs i j f
  · intro q hq
    rcases mem_insert.mp hq with rfl | hq
    · intro hne
      exact (hne hz).elim
    · rw [hpt q hq]
      exact h.tables q hq
  · intro q hq i j hi hj hv
    rcases mem_insert.mp hq with rfl | hq
    · simp [hentry] at hv
    · rw [hpt q hq] at hv ⊢
      exact h.mapped q hq i j hi hj hv

theorem Owned.erase_null (h : Owned live pt own m) (hp : p ∈ live) (hz : pt p = 0#32) :
    Owned (live.erase p) pt own m := by
  refine ⟨h.inside, ?_, fun q hq => h.tables q (mem_of_mem_erase hq),
    fun q hq => h.mapped q (mem_of_mem_erase hq)⟩
  intro f hf
  refine (h.frames f hf).congr ?_
  intro i j _
  rw [refs_split hp, hz, entry_null, if_neg (by simp), Nat.add_zero]
  rfl

section
variable (hi : Inv own s) (hc : s.cur = some p)
include hi hc

theorem Inv.fork {table heapbase breakaddr : Vaddr} (hm : (s.proc p).mode = .user)
    (hz : s.pt p ≠ 0#32) (hcard : s.live.card < 200)
    (hk : s.mach.ptCopy (s.pt p) = .ok (some table, m)) :
    ∃ own', Inv own' { s with
      mach := (m.makeReadonly (s.pt p) false).makeReadonly table true
      tlb := s.tlb.makeReadonly
      live := insert s.next s.live
      proc := update s.proc s.next (s.child p table heapbase breakaddr)
      next := s.next + 1 } := by
  have hp := hi.cur p hc
  rw [makeReadonly_false]
  obtain ⟨own', ho, hkeep, hent, _, _⟩ := hi.owned.fork hp hz hi.next_notMem hcard hk
  generalize m.makeReadonly table true = m₂ at ho hkeep hent ⊢
  have hpt : ∀ q, q ∈ s.live → update s.proc s.next (s.child p table heapbase breakaddr) q
      = s.proc q := fun q hq => update_of_ne (hi.ne_next hq) _ _
  refine ⟨own', ?_, fun _ => hi.fresh_insert, fun q hq => Finset.mem_insert_of_mem (hi.cur q hq),
    ?_, ?_⟩
  · have hptf : update s.pt s.next table = fun q =>
        (update s.proc s.next (s.child p table heapbase breakaddr) q).as.pageTable := by
      funext q
      by_cases hq : q = s.next
      · subst hq
        simp [Sys.child]
      · simp [hq, Sys.pt]
    rw [hptf] at ho
    exact ho
  · intro q hq
    rcases mem_insert.mp hq with rfl | hq
    · simp [Sys.child, ModeOK]
    simp only [Sys.pt, hpt q hq]
    by_cases hqp : q = p
    · subst q
      rw [hm]
      trivial
    · exact (hi.mode q hq).keep hkeep (hi.owned.tables q hq) hq hqp fun i j hi' =>
        hent q hq i j hi'
  · intro q hq
    obtain rfl : p = q := Option.some.inj (hc.symm.trans hq)
    simp only [Sys.pt, hpt p hp, hm]
    refine ⟨?_, trivial⟩
    exact ((hi.tlb p hc).1.congr fun i j hi' _ => hent p hp i j hi').makeReadonly

theorem Inv.forkFailed {table : Vaddr} (hm : (s.proc p).mode = .user) (hz : s.pt p ≠ 0#32)
    (hk : s.mach.ptCopy (s.pt p) = .ok (some table, m)) :
    ∃ own', Inv own' { s with mach := m } := by
  have hp := hi.cur p hc
  obtain ⟨own', ho, hext, _⟩ := hi.owned.ptCopy hp hz hi.next_notMem hk
  have hent := hext.sameEntries hi.owned.tables
  refine ⟨own', ho, hi.fresh, hi.cur, ?_, ?_⟩
  · intro q hq
    by_cases hqp : q = p
    · subst q
      rw [hm]
      trivial
    · exact (hi.mode q hq).keep (hext.keeps s.live p) (hi.owned.tables q hq) hq hqp (hent q hq)
  · intro q hq
    obtain ⟨ht, hms⟩ := hi.tlb q hq
    exact ⟨ht.congr fun i j hi' _ => hent q (hi.cur q hq) i j hi', hms⟩

theorem Inv.exit_null (hz : s.pt p = 0#32) :
    Inv own { s with live := s.live.erase p, cur := none } :=
  ⟨hi.owned.erase_null (hi.cur p hc) hz, fun q hq => hi.fresh q (mem_of_mem_erase hq),
    by simp, fun q hq => hi.mode q (mem_of_mem_erase hq), by simp⟩

theorem Inv.exit_destroyed (hd : Destroyed own p (s.pt p) s.mach m) :
    Inv (leftover own m) { s with mach := m, live := s.live.erase p, cur := none } := by
  refine ⟨hi.owned.destroy (hi.cur p hc) hd,
    fun q hq => hi.fresh q (mem_of_mem_erase hq), by simp, ?_, by simp⟩
  intro q hq
  refine (hi.mode q (mem_of_mem_erase hq)).congr hd.frames ?_
    (fun _ _ => word_congr hd.frames hd.mem) fun i j _ => hd.entry _ i j
  intro f hf
  rw [hi.owned.leftover_of_eq (hd.same f (by simp [hf]) (by simp [hf]) (by simp [hf]))
    (hi.owned.inside f (by simp [hf])), hf]

theorem Inv.exit : ∃ own', Inv own' { s with
    mach := if s.pt p = 0#32 then s.mach else s.mach.ptDeepDestroy (s.pt p)
    live := s.live.erase p
    cur := none } := by
  by_cases hz : s.pt p = 0#32
  · rw [if_pos hz]
    exact ⟨own, hi.exit_null hc hz⟩
  · rw [if_neg hz]
    exact ⟨_, hi.exit_destroyed hc (hi.owned.destroyed (hi.cur p hc) hz)⟩

end

theorem Inv.start {as : AddrSpace} {args : Option Args} (hi : Inv own s)
    (has : as.pageTable = 0#32) : Inv own { s with
      live := insert s.next s.live
      proc := update s.proc s.next ⟨as, args, .user⟩
      next := s.next + 1 } := by
  have hproc : ∀ q, q ∈ s.live → update s.proc s.next ⟨as, args, .user⟩ q = s.proc q :=
    fun q hq => update_of_ne (hi.ne_next hq) _ _
  refine ⟨hi.owned.insert_null hi.next_notMem ?_ ?_, fun _ => hi.fresh_insert,
    fun q hq => Finset.mem_insert_of_mem (hi.cur q hq), ?_, ?_⟩
  · simp [Sys.pt, has]
  · intro q hq
    simp only [Sys.pt, hproc q hq]
  · intro q hq
    rcases mem_insert.mp hq with rfl | hq
    · simp [ModeOK]
    · simp only [Sys.pt, hproc q hq]
      exact hi.mode q hq
  · intro q hq
    simp only [Sys.pt, hproc q (hi.cur q hq)]
    exact hi.tlb q hq

theorem Machine.ptCopyOnWrite_ne_error (hv : isValid (m.entry ptp (index1 va) (index2 va)) = true)
    (hfit : m.coremap.isShared (ppage (m.entry ptp (index1 va) (index2 va))) = true →
      m.coremap.HasFrame) (e : Errno) (m' : Machine) : m.ptCopyOnWrite ptp va ≠ (.error e, m') := by
  obtain ⟨hz, hw⟩ := word_ne_zero_of_valid hv
  rw [entry_eq_word hz hw] at hfit
  unfold ptCopyOnWrite
  dsimp only
  split
  · rename_i hsh
    obtain ⟨pa, c', hc⟩ := (Coremap.hasFrame_decrefcount.mpr (hfit hsh)).allocateFrame
    have hpage : (m.decrefcount (ppage (m.word (paddrToKvaddr (m.word ptp (index1 va)))
        (index2 va)))).coremap.allocateFrame 1 = (some pa, c') := hc
    rw [kmallocPage, hpage]
    simp
  · simp

section
variable (hi : Inv own s) (hc : s.cur = some p)
include hi hc

theorem Inv.fault_settles {rand : Nat} {ft : FaultType} {o : Outcome}
    (hok : CowFits s (.fault p rand))
    (hm : (s.proc p).mode = .trapped ft va) (ho : (s.ctx p).vmFault ft va rand = .ok o) :
    Settles p s.live s.pt own (s.ctx p) va o := by
  have hp := hi.cur p hc
  have hmode := hi.mode p hp
  obtain ⟨ht, hms⟩ := hi.tlb p hc
  rw [hm] at hmode hms
  refine Ctx.vmFault_settles hi.owned hp rfl ht hmode.1 hms ?_ ho
  rintro rfl
  exact ⟨hmode.2 rfl, ptCopyOnWrite_ne_error (hmode.2 rfl) (hok p rand va rfl hm)⟩

theorem Inv.loaded_settles {l : Load} (hm : (s.proc p).mode = .loading l) (r : ReadResult)
    (rand : Nat) : Settles p s.live s.pt own (s.ctx p) l.va ((s.ctx p).vmFaultLoaded l r rand) := by
  have hp := hi.cur p hc
  have hmode := hi.mode p hp
  obtain ⟨ht, hms⟩ := hi.tlb p hc
  rw [hm] at hmode hms
  obtain ⟨hva, ha⟩ := hmode
  exact (s.ctx p).vmFaultLoaded_settles hi.owned hp rfl ha.table ht hva rfl ha hms rand

theorem Inv.sbrk_remap (hz : s.pt p ≠ 0#32) (amount : Word) :
    ∃ own', Remap p s.live s.pt
        (update s.pt p ((s.ctx p).sysSbrk amount).2.as.pageTable) own own' s.mach
        ((s.ctx p).sysSbrk amount).2.mach (index1 0#32) (index2 0#32) ∧
      TlbFor ((s.ctx p).sysSbrk amount).2.mach ((s.ctx p).sysSbrk amount).2.as.pageTable
        ((s.ctx p).sysSbrk amount).2.tlb :=
  Ctx.sysSbrk_remap hi.owned (hi.cur p hc) rfl hz (hi.tlb p hc).1 amount

end

theorem Ctx.vmFault_readonly_ne_loading {rand : Nat} {l : Load} {c' : Ctx} :
    c.vmFault .readonly va rand ≠ .ok (.loading l c') := by
  intro ho
  cases Ctx.vmFault_cases ho with
  | modify _ _ _ hm =>
    unfold Ctx.modify at hm
    split at hm
    · split at hm <;> cases hm
    · cases hm
  | access _ _ hft _ => exact hft rfl

theorem inv_step (h : Step s a t) (hok : CowFits s a) (hi : Inv own s) : ∃ own', Inv own' t := by
  cases h with
  | @switch q hq =>
    refine ⟨own, hi.owned, hi.fresh, ?_, hi.mode, ?_⟩
    · intro p hp
      exact hq p hp
    · rintro p rfl
      exact ⟨tlbFor_asActivate, missed_asActivate (hi.mode p (hq p rfl))⟩
  | load hr hva he => exact ⟨own, hi⟩
  | @store p va e w hr hva he =>
    obtain ⟨hc, hp, _⟩ := hr
    obtain ⟨k, hhi, rfl, hv, _⟩ := Tlb.translate_ok he
    obtain ⟨_, hval, hfr, _⟩ := (hi.tlb p hc).1.backs k hv
    obtain ⟨g, hg, hgo⟩ := hi.owned.mapped p hp _ _ (index1_lt _) (index2_lt _) hval
    exact ⟨own, hi.setUserWord (hi.owned.inside g (by simp [hgo])) hgo (hfr.trans hg)⟩
  | @trap p va store ft hr hva he =>
    obtain ⟨hc, hp, _⟩ := hr
    obtain ⟨ht, _⟩ := hi.tlb p hc
    refine ⟨own, hi.setMode hc ⟨hva, ?_⟩ ?_⟩
    · rintro rfl
      obtain ⟨k, hhi, hv⟩ := Tlb.translate_modify he
      have hb := ht.backs k hv
      have hval := hb.valid
      rw [hhi, index1_pageOf, index2_pageOf] at hval
      exact hval
    · intro hft
      exact ht.hi_ne hva fun k => Tlb.translate_miss he hft k ht.inj
  | @fault p rand va ft o hc hl hm ho =>
    have hmode := hi.mode p hl
    have hms := (hi.tlb p hc).2
    rw [hm] at hmode hms
    refine hi.settle hc hmode.1 ?_ (hi.fault_settles hc hok hm ho)
    rintro l c rfl
    apply hms
    rintro rfl
    exact Ctx.vmFault_readonly_ne_loading ho
  | @loaded p rand l r hc hl hm =>
    have hmode := hi.mode p hl
    have hms := (hi.tlb p hc).2
    rw [hm] at hmode hms
    exact hi.settle hc hmode.1 (fun _ _ _ => hms) (hi.loaded_settles hc hm r rand)
  | @copyfail p hc hl hm => exact ⟨own, hi.setMode hc trivial trivial⟩
  | @fork p m table heapbase breakaddr hr hpt hcard hm => exact hi.fork hr.1 hr.2.2 hpt hcard hm
  | @forkFailed p m table hr hpt hm => exact hi.forkFailed hr.1 hr.2.2 hpt hm
  | @sbrk p amount hr hpt =>
    obtain ⟨own', hrm, ht⟩ := hi.sbrk_remap hr.1 hpt amount
    refine ⟨own', hi.put hr.1 hrm.owned hrm.keeps ?_ trivial ht trivial⟩
    intro q hql hqp i j hi'
    have := hrm.entries q hql i j hi' (by tauto)
    rwa [update_of_ne hqp] at this
  | @exit p hc hl hm => exact hi.exit hc
  | @start as args has hcard => exact ⟨own, hi.start has⟩

theorem inv_initial (h : Init s) : ∃ own, Inv own s := by
  refine ⟨fun f => if f < s.mach.coremap.size ∧ (s.mach.coremap.entries f).status ≠ .unallocated
    then .held else .free, ⟨?_, ?_, ?_, ?_⟩, ?_, ?_, ?_, ?_⟩
  · intro f hf
    by_contra hlt
    simp [hlt] at hf
  · intro f hf
    by_cases hst : (s.mach.coremap.entries f).status = .unallocated
    · simp only [hst, ne_eq, not_true_eq_false, and_false, if_false]
      exact ⟨hst, h.frames f hf hst⟩
    · simp only [hf, hst, ne_eq, not_false_eq_true, and_self, if_true]
      exact hst
  · simp [h.live]
  · simp [h.live]
  · simp [h.live]
  · simp [h.cur]
  · simp [h.live]
  · simp [h.cur]

/-- Every state a run reaches satisfies the invariant, as long as no copy-on-write runs out of
memory. -/
theorem inv_reachable (h : Reachable s) : ∃ own, Inv own s := by
  refine Lts.Reachable.invariant (fun s => ∃ own, Inv own s) (fun s hs => inv_initial hs) ?_ h
  rintro s a t ⟨hs, hok⟩ ⟨own, hi⟩
  exact inv_step hs hok hi

end OS161
