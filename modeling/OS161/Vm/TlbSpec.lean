import OS161.Vm.Ownership
import OS161.Vm.Tlb

/-! When the TLB agrees with a page table, and that the routines which write it keep it so. -/
namespace OS161

variable {m m' : Machine} {ptp ptp' : Vaddr} {t : Tlb} {va : Vaddr} {lo : Word} {slot : Fin 64}

/-- A TLB entry for a user page carries the frame of the page's table entry, and write permission
only where the table grants it without a pending copy. -/
structure Backs (m : Machine) (ptp : Vaddr) (x : TlbEntry) : Prop where
  user : x.hi.toNat < 2147483648
  valid : isValid (m.entry ptp (index1 x.hi) (index2 x.hi)) = true
  frame : ppage x.lo = ppage (m.entry ptp (index1 x.hi) (index2 x.hi))
  dirty : isDirty x.lo = true → isDirty (m.entry ptp (index1 x.hi) (index2 x.hi)) = true ∧
    isReadonly (m.entry ptp (index1 x.hi) (index2 x.hi)) = false

structure TlbFor (m : Machine) (ptp : Vaddr) (t : Tlb) : Prop where
  aligned : ∀ i, pageOf (t i).hi = (t i).hi
  inj : Function.Injective fun i => (t i).hi
  backs : ∀ i, isValid (t i).lo = true → Backs m ptp (t i)
  unused : ∀ i, isValid (t i).lo = false →
    2147483648 ≤ (t i).hi.toNat ∧ isDirty (t i).lo = false

theorem tlbFor_asActivate : TlbFor m ptp asActivate := by
  refine ⟨Tlb.pageOf_tlbhiInvalid, Tlb.tlbhiInvalid_injective, ?_, ?_⟩
  · intro i hv
    simp [asActivate] at hv
  intro i _
  have := Tlb.toNat_tlbhiInvalid i
  refine ⟨?_, by simp [asActivate, isDirty]⟩
  simp only [asActivate]
  omega

theorem Backs.congr {x : TlbEntry} (h : Backs m ptp x)
    (he : m'.entry ptp' (index1 x.hi) (index2 x.hi) = m.entry ptp (index1 x.hi) (index2 x.hi)) :
    Backs m' ptp' x := by
  obtain ⟨hu, hv, hf, hd⟩ := h
  exact ⟨hu, by rw [he]; exact hv, by rw [he]; exact hf, by rw [he]; exact hd⟩

theorem TlbFor.congr (h : TlbFor m ptp t)
    (he : ∀ i j, i < 1024 → j < 1024 → m'.entry ptp' i j = m.entry ptp i j) : TlbFor m' ptp' t := by
  refine ⟨h.aligned, h.inj, ?_, h.unused⟩
  intro i hv
  exact (h.backs i hv).congr (he _ _ (index1_lt _) (index2_lt _))

/-- A user page is in no slot that does not translate it. -/
theorem TlbFor.hi_ne (h : TlbFor m ptp t) (hva : va.toNat < 2147483648)
    (hmiss : ∀ i, (t i).hi = pageOf va → isValid (t i).lo = false) (i : Fin 64) :
    (t i).hi ≠ pageOf va := by
  intro hi
  have hun := (h.unused i (hmiss i hi)).1
  rw [hi, toNat_pageOf] at hun
  omega

section
variable (h : TlbFor m ptp t) (hva : va.toNat < 2147483648)
  (he : ∀ i j, i < 1024 → j < 1024 → ¬ (i = index1 va ∧ j = index2 va) →
    m'.entry ptp' i j = m.entry ptp i j)
  (hv : isValid (m'.entry ptp' (index1 va) (index2 va)) = true)
  (hlo : isValid lo = true) (hf : ppage lo = ppage (m'.entry ptp' (index1 va) (index2 va)))
  (hd : isDirty lo = true → isDirty (m'.entry ptp' (index1 va) (index2 va)) = true ∧
    isReadonly (m'.entry ptp' (index1 va) (index2 va)) = false)
include h hva he hv hlo hf hd

theorem TlbFor.write (hother : ∀ k, k ≠ slot → (t k).hi ≠ pageOf va) :
    TlbFor m' ptp' (t.write (pageOf va) lo slot) := by
  have hsame : ∀ k, k ≠ slot → t.write (pageOf va) lo slot k = t k :=
    fun k hk => Function.update_of_ne hk _ _
  have hself : t.write (pageOf va) lo slot slot = ⟨pageOf va, lo⟩ := Function.update_self ..
  refine ⟨?_, ?_, ?_, ?_⟩
  · intro k
    by_cases hk : k = slot
    · rw [hk, hself]
      exact pageOf_pageOf va
    · rw [hsame k hk]
      exact h.aligned k
  · intro a b hab
    by_cases ha : a = slot
    · by_cases hb : b = slot
      · rw [ha, hb]
      · simp only [ha, hself, hsame b hb] at hab
        exact (hother b hb hab.symm).elim
    · by_cases hb : b = slot
      · simp only [hb, hself, hsame a ha] at hab
        exact (hother a ha hab).elim
      · simp only [hsame a ha, hsame b hb] at hab
        exact h.inj hab
  · intro k hk
    by_cases hks : k = slot
    · subst k
      rw [hself]
      refine ⟨?_, by simpa using hv, by simpa using hf, by simpa using hd⟩
      simp only [toNat_pageOf]
      omega
    · rw [hsame k hks] at hk ⊢
      have hb := h.backs k hk
      refine hb.congr (he _ _ (index1_lt _) (index2_lt _) ?_)
      rintro ⟨h1, h2⟩
      apply hother k hks
      rw [← h.aligned k]
      exact pageOf_eq_iff.mpr ⟨h1, h2⟩
  · intro k hk
    by_cases hks : k = slot
    · subst k
      rw [hself] at hk
      simp [hlo] at hk
    · rw [hsame k hks] at hk ⊢
      exact h.unused k hk

theorem TlbFor.refill (hmiss : ∀ i, (t i).hi ≠ pageOf va) (rand : Nat) :
    TlbFor m' ptp' (t.refill va lo rand) :=
  h.write hva he hv hlo hf hd fun k _ => hmiss k

/-- After a modify trap the entry is written back to the slot that holds the page, or to slot 63
if the TLB was flushed meanwhile. -/
theorem TlbFor.write_probe : TlbFor m' ptp' (t.write (pageOf va) lo (t.probeSlot (pageOf va))) := by
  apply h.write hva he hv hlo hf hd
  intro k hk hhi
  cases hp : t.probe (pageOf va) with
  | none => exact Tlb.probe_none hp k hhi
  | some i =>
    apply hk
    rw [Tlb.probeSlot, hp]
    exact h.inj (hhi.trans (Tlb.probe_some hp).symm)

end

theorem TlbFor.makeReadonly (h : TlbFor m ptp t) : TlbFor m ptp t.makeReadonly := by
  have hhi : ∀ i, (t.makeReadonly i).hi = (t i).hi := by
    intro i
    unfold Tlb.makeReadonly
    split <;> rfl
  have hv : ∀ i, isValid (t.makeReadonly i).lo = isValid (t i).lo := by
    intro i
    unfold Tlb.makeReadonly
    split <;> simp
  refine ⟨by simpa only [hhi] using h.aligned, ?_, ?_, ?_⟩
  · intro a b hab
    simp only [hhi] at hab
    exact h.inj hab
  · intro i hi
    rw [hv] at hi
    obtain ⟨hu, hv', hf, _⟩ := h.backs i hi
    have hlo : (t.makeReadonly i).lo = (t i).lo &&& ~~~tlbloDirty := by
      simp [Tlb.makeReadonly, hi]
    refine ⟨by rw [hhi]; exact hu, by rw [hhi]; exact hv', ?_, ?_⟩
    · rw [hlo, hhi, ppage_clear_dirty, hf]
    · simp [hlo]
  · intro i hi
    rw [hv] at hi
    have hsame : t.makeReadonly i = t i := by simp [Tlb.makeReadonly, hi]
    rw [hsame]
    exact h.unused i hi

end OS161
