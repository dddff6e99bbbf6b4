import OS161.Vm.Evolve
import OS161.Vm.Heap

/-! The stack of a process, which is mapped from its base to its top. -/
namespace OS161

variable {own : Nat → Owner} {s t : Sys} {a : Event} {p q : Nat} {va : Vaddr}

/-- The stack is mapped from its base to its top. -/
structure Sys.StackMapped (s : Sys) (p : Nat) : Prop where
  aligned : (s.proc p).as.asStackvbase.toNat % 4096 = 0
  le : (s.proc p).as.asStackvbase.toNat ≤ 2147483648
  mapped : ∀ n, (s.proc p).as.asStackvbase.toNat / 4096 ≤ n → n < 524288 →
    isValid (s.pte p (n / 1024) (n % 1024)) = true

/-- The stack never gets down to address 0: it would take more frames than there are. -/
theorem Inv.stackvbase_pos (hi : Inv own s) (hp : p ∈ s.live) (h : s.StackMapped p) :
    0 < (s.proc p).as.asStackvbase.toNat := by
  by_contra hz
  have hmap : ∀ n, n < 524288 →
      ∃ f, f < s.mach.coremap.size ∧ own f = .user (n / 1024) (n % 1024) := by
    intro n hn
    have hv := h.mapped n (by omega) hn
    obtain ⟨f, _, hf⟩ := hi.owned.mapped p hp _ _ (by omega) (by omega) hv
    exact ⟨f, hi.owned.inside f (by simp [hf]), hf⟩
  choose! g hg using hmap
  have hcard : (Finset.range 524288).card ≤ (Finset.range s.mach.coremap.size).card := by
    refine Finset.card_le_card_of_injOn g ?_ ?_
    · intro n hn
      exact Finset.mem_coe.mpr (Finset.mem_range.mpr (hg n (Finset.mem_range.mp hn)).1)
    intro n hn n' hn' heq
    have ho := (hg n (Finset.mem_range.mp hn)).2
    have ho' := (hg n' (Finset.mem_range.mp hn')).2
    rw [heq, ho'] at ho
    injection ho with h₁ h₂
    omega
  have hsize := s.mach.coremap.frames_in_kseg0
  simp only [Finset.card_range] at hcard
  omega

/-- With the stack mapped and above address 0, a fault that makes it grow is in the page below its
base or in one that is mapped. -/
theorem Sys.StackMapped.grown {as' : AddrSpace} (hm : s.StackMapped q)
    (hpos : 0 < (s.proc q).as.asStackvbase.toNat) (hg : StackGrown (s.proc q).as as' va) :
    as'.asStackvbase.toNat = va.toNat / 4096 * 4096 ∧ va.toNat < 2147483648 ∧
      (s.proc q).as.asStackvbase.toNat ≤ as'.asStackvbase.toNat + 4096 := by
  have hal := hm.aligned
  obtain ⟨hlow, hhigh⟩ := AddrSpace.mappedRegion_stack _ hg.test
  have hle : pageSizeW.toNat ≤ (s.proc q).as.asStackvbase.toNat := by
    rw [toNat_pageSizeW]
    omega
  rw [BitVec.toNat_sub_of_le (BitVec.le_def.mpr hle), toNat_pageSizeW] at hlow
  have hbase : as'.asStackvbase.toNat = va.toNat / 4096 * 4096 := by
    rw [hg.layout.stackvbase]
    exact toNat_pageOf va
  exact ⟨hbase, hhigh, by omega⟩

section
variable (he : Evolves s a t) (hm : s.StackMapped q)
include he hm

theorem Evolves.stackMapped_same (hq : q ∈ s.live)
    (hb : (t.proc q).as.asStackvbase = (s.proc q).as.asStackvbase) : t.StackMapped q := by
  refine ⟨by rw [hb]; exact hm.aligned, by rw [hb]; exact hm.le, ?_⟩
  intro n hn hlt
  rw [hb] at hn
  exact he.kept q hq _ _ (by omega) (by omega) (hm.mapped n hn hlt)

theorem Evolves.stackMapped_grown (hq : q ∈ s.live) (hpos : 0 < (s.proc q).as.asStackvbase.toNat)
    (hg : StackGrown (s.proc q).as (t.proc q).as va)
    (hv : isValid (t.pte q (index1 va) (index2 va)) = true) : t.StackMapped q := by
  obtain ⟨hbase, hhigh, hlow⟩ := hm.grown hpos hg
  refine ⟨by omega, by omega, ?_⟩
  intro n hn hlt
  by_cases hold : (s.proc q).as.asStackvbase.toNat / 4096 ≤ n
  · exact he.kept q hq _ _ (by omega) (by omega) (hm.mapped n hold hlt)
  have hn' : n = va.toNat / 4096 := by omega
  rw [index1_eq, index2_eq] at hv
  rw [hn', Nat.div_div_eq_div_mul]
  exact hv

end

variable {c : Nat} {breakaddr heapbase : Vaddr}

theorem Evolves.stackMapped_child
    (he : Evolves s (.fork p c heapbase breakaddr) t) (hm : s.StackMapped p)
    (hb : (t.proc c).as.asStackvbase = (s.proc p).as.asStackvbase) : t.StackMapped c := by
  refine ⟨by rw [hb]; exact hm.aligned, by rw [hb]; exact hm.le, ?_⟩
  intro n hn hlt
  rw [hb] at hn
  rw [he.child p c heapbase breakaddr rfl _ _ (by omega) (by omega)]
  exact hm.mapped n hn hlt

theorem stackMapped_empty (h : (s.proc p).as.asStackvbase = userstack) : s.StackMapped p := by
  have hbase : (s.proc p).as.asStackvbase.toNat = 2147483648 := by
    rw [h]
    exact toNat_userstack
  refine ⟨by omega, by omega, ?_⟩
  omega

/-- A process that a step adds is the child of a fork or has just been started. -/
theorem Step.added (h : Step s a t) (hq : q ∈ t.live) (hnew : q ∉ s.live) :
    (∃ p heapbase breakaddr, a = .fork p q heapbase breakaddr) ∨
      ∃ as args, a = .start q as args := by
  have hsame : t.live = s.live → (∃ p heapbase breakaddr, a = .fork p q heapbase breakaddr) ∨
      ∃ as args, a = .start q as args := fun hl => (hnew (hl ▸ hq)).elim
  cases h with
  | switch | load | store | trap | copyfail | forkFailed | sbrk => exact hsame rfl
  | fault | loaded => exact hsame (settle_live ..)
  | @fork p _ _ heapbase breakaddr _ _ _ _ =>
    rcases Finset.mem_insert.mp hq with rfl | hold
    · exact .inl ⟨p, heapbase, breakaddr, rfl⟩
    · exact (hnew hold).elim
  | exit _ _ _ => exact (hnew (Finset.mem_of_mem_erase hq)).elim
  | @start as args _ _ =>
    rcases Finset.mem_insert.mp hq with rfl | hold
    · exact .inr ⟨as, args, rfl⟩
    · exact (hnew hold).elim

theorem Step.forked
    (h : Step s (.fork p c heapbase breakaddr) t) :
    p ∈ s.live ∧ ∃ table, t.proc c = s.child p table heapbase breakaddr := by
  cases h with
  | fork hr _ _ _ => exact ⟨hr.2.1, _, Function.update_self ..⟩

theorem Step.started {as : AddrSpace} {args : Option Args} (h : Step s (.start q as args) t) :
    t.proc q = ⟨as, args, .user⟩ := by
  cases h
  simp

theorem Step.fault_outcome {rand : Nat} {ft : FaultType} (h : Step s (.fault q rand) t)
    (hm : (s.proc q).mode = .trapped ft va) :
    ∃ o, (s.ctx q).vmFault ft va rand = .ok o ∧ t = s.settle q o := by
  cases h with
  | @fault _ _ va' ft' o _ _ hm' ho =>
    cases hm.symm.trans hm'
    exact ⟨o, ho, rfl⟩

end OS161
