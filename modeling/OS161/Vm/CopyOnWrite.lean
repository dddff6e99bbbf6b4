import OS161.Vm.Refcount

/-! `pt_copy_on_write`: what it leaves when it returns 0, and what when memory runs out. -/
namespace OS161

open Machine

variable {live : Finset Nat} {pt : Nat → Vaddr} {own own' : Nat → Owner} {m m' : Machine}
  {p q f g i j i' j' : Nat} {e : Word} {va : Vaddr} {x : Errno}

/-- The 8-bit count of the frame behind an entry. -/
def Machine.sharedOf (m : Machine) (e : Word) : BitVec 8 :=
  (m.coremap.entries (m.coremap.frameIndex (ppage e))).shared

/-- The page `(i, j)` of `p` is mapped by `e` to a frame of its own, with the contents it had. -/
structure MadePrivate (live : Finset Nat) (pt : Nat → Vaddr) (m : Machine) (p i j : Nat) (e : Word)
    (m' : Machine) : Prop where
  entry : m'.entry (pt p) i j = e
  valid : isValid e = true
  dirty : isDirty e = true
  writable : isReadonly e = false
  sole : ∀ q ∈ live, ∀ i' j', i' < 1024 → j' < 1024 → isValid (m'.entry (pt q) i' j') = true →
    ppage (m'.entry (pt q) i' j') = ppage e → q = p ∧ i' = i ∧ j' = j
  contents : m'.mem (m'.coremap.frameIndex (ppage e)) =
    m.mem (m.coremap.frameIndex (ppage (m.entry (pt p) i j)))
  others : ∀ q ∈ live, ∀ i' j', i' < 1024 → ¬ (q = p ∧ i' = i ∧ j' = j) →
    m'.entry (pt q) i' j' = m.entry (pt q) i' j'

/-- What happens to the reference counts: the old frame loses one exactly if the page moves to a new
frame, and no other count changes. -/
structure CountsMoved (m : Machine) (old e : Word) (m' : Machine) : Prop where
  shared : m.coremap.isShared (ppage old) = true →
    ppage e ≠ ppage old ∧ (m'.sharedOf old).toNat + 1 = (m.sharedOf old).toNat ∧
      m'.sharedOf e = 0
  sole : m.coremap.isShared (ppage old) = false →
    ppage e = ppage old ∧ m'.coremap = m.coremap
  others : ∀ f, f < m.coremap.size → f ≠ m.coremap.frameIndex (ppage old) →
    f ≠ m.coremap.frameIndex (ppage e) → m'.coremap.entries f = m.coremap.entries f

/-- A frame with a count of 0 has one mapping. -/
theorem Owned.sole_mapping (h : Owned live pt own m) (hp : p ∈ live) (hfo : own f = .user i j)
    (h0 : (m.coremap.entries f).shared = 0) (hv : isValid (m.entry (pt p) i j) = true)
    (hf : ppage (m.entry (pt p) i j) = m.coremap.frameAddr f) (hq : q ∈ live) (hi' : i' < 1024)
    (hj' : j' < 1024) (hv' : isValid (m.entry (pt q) i' j') = true)
    (hf' : ppage (m.entry (pt q) i' j') = m.coremap.frameAddr f) : q = p ∧ i' = i ∧ j' = j := by
  have hflt := h.inside f (by simp [hfo])
  obtain ⟨g, hg, hgo⟩ := h.mapped q hq i' j' hi' hj' hv'
  have hgf : g = f :=
    (Coremap.frameAddr_inj (h.inside g (by simp [hgo])) hflt).mp (hg.symm.trans hf')
  subst hgf
  obtain ⟨rfl, rfl⟩ : i = i' ∧ j = j' := by simpa [hfo] using hgo
  have hrefs := (h.user_refs hfo).2
  rw [h0, refs_split hp, if_pos ⟨hv, hf⟩] at hrefs
  have hzero : m.otherRefs live pt p i j g = 0 := by
    have hone : (0 : BitVec 8).toNat = 0 := rfl
    omega
  rw [otherRefs, Machine.refs, Finset.card_eq_zero, Finset.filter_eq_empty_iff] at hzero
  refine ⟨?_, rfl, rfl⟩
  by_contra hne
  exact hzero (Finset.mem_erase.mpr ⟨hne, hq⟩) ⟨hv', hf'⟩

theorem CopiedOnWrite.madePrivate (h : CopiedOnWrite live pt own m p i j e m' own')
    (ho : Owned live pt own m) (hp : p ∈ live) (hi : i < 1024)
    (hd : isDirty (m.entry (pt p) i j) = true) : MadePrivate live pt m p i j e m' := by
  obtain ⟨f, g, hf, hfo, hg, hgo, hmem⟩ := h.content
  have hs := h.keeps.frames
  have hentry : m'.entry (pt p) i j = e := by
    rw [h.stores p hp i j hi, if_pos ⟨rfl, rfl, rfl⟩]
  have hflt := h.owned.inside f (by simp [hfo])
  have hfaddr : ppage e = m'.coremap.frameAddr f := hf.trans (hs.frameAddr f).symm
  have h0 : (m'.coremap.entries f).shared = 0 := by
    have hsole := h.sole
    rw [hf, Coremap.frameIndex_frameAddr (hs.size ▸ hflt)] at hsole
    exact hsole
  refine ⟨hentry, h.valid, h.dirty hd, h.writable, ?_, ?_, ?_⟩
  · intro q hq i' j' hi' hj' hv' hf'
    exact h.owned.sole_mapping hp hfo h0 (hentry ▸ h.valid) (hentry ▸ hfaddr) hq hi' hj' hv'
      (hf'.trans hfaddr)
  · have hglt := ho.inside g (by simp [hgo])
    rw [hfaddr, Coremap.frameIndex_frameAddr hflt, hg, Coremap.frameIndex_frameAddr hglt, hmem]
  · intro q hq i' j' hi' hne
    rw [h.stores q hq i' j' hi', if_neg hne]

section
variable (h : Owned live pt own m) (hp : p ∈ live)
  (hv : isValid (m.entry (pt p) (index1 va) (index2 va)) = true)
include h hp hv

theorem Owned.cow_countsMoved (hk : m.ptCopyOnWrite (pt p) va = (.ok e, m')) :
    CountsMoved m (m.entry (pt p) (index1 va) (index2 va)) e m' := by
  obtain ⟨g, t, hat⟩ := h.entryAt hp (index1_lt va) (index2_lt va) hv
  have hglt : g < m.coremap.size := h.inside g (by simp [hat.user])
  have hgi := Coremap.frameIndex_frameAddr hglt
  by_cases hsh : m.coremap.isShared (m.coremap.frameAddr g) = true
  · have hshared : (m.coremap.entries g).shared ≠ 0 := by
      simpa [Coremap.isShared, hgi] using hsh
    obtain ⟨f, hf, hfo, hf0, rfl, hc⟩ := h.ptCopyOnWrite_shared hat hshared hk
    have hpage : ppage (m.coremap.frameAddr f ||| tlbloDirty ||| tlbloValid)
        = m.coremap.frameAddr f := by
      simp [Coremap.ppage_frameAddr hf]
    have hfg : f ≠ g := by
      rintro rfl
      exact Owner.noConfusion (hat.user.symm.trans hfo)
    have hfi := Coremap.frameIndex_frameAddr hf
    refine ⟨?_, ?_, ?_⟩
    · rw [hpage, hat.maps]
      intro _
      refine ⟨fun heq => hfg ((Coremap.frameAddr_inj hf hglt).mp heq), ?_, ?_⟩
      · simp only [sharedOf, hat.maps, hc.frames.frameIndex, hgi, hc.source]
        have hone : BitVec.toNat (1 : BitVec 8) = 1 := rfl
        have hpos : (m.coremap.entries g).shared.toNat ≠ 0 := fun hz =>
          hshared (BitVec.eq_of_toNat_eq hz)
        simp only [BitVec.toNat_sub, hone]
        omega
      · simp only [sharedOf, hpage, hc.frames.frameIndex, hfi, hc.copy, hf0]
    · rw [hat.maps, hsh]
      intro hno
      cases hno
    · intro k _ hkg hkf
      rw [hat.maps, hgi] at hkg
      rw [hpage, hfi] at hkf
      exact hc.rest k hkf hkg
  · rw [Bool.not_eq_true] at hsh
    simp only [ptCopyOnWrite, ← entry_eq_word hat.ptr hat.slot, hat.maps, hsh, Bool.false_eq_true,
      if_false, Prod.mk.injEq, Except.ok.injEq] at hk
    obtain ⟨rfl, rfl⟩ := hk
    refine ⟨?_, ?_, fun _ _ _ _ => rfl⟩
    · rw [hat.maps, hsh]
      intro hno
      cases hno
    · intro _
      exact ⟨by simp, rfl⟩

omit h hp in
/-- Without memory the tables are kept, and the count of the frame is one too low. -/
theorem Machine.ptCopyOnWrite_error (hk : m.ptCopyOnWrite (pt p) va = (.error x, m')) :
    x = .enomem ∧ m'.mem = m.mem ∧
      m.coremap.isShared (ppage (m.entry (pt p) (index1 va) (index2 va))) = true ∧
      m'.coremap = m.coremap.decrefcount (ppage (m.entry (pt p) (index1 va) (index2 va))) := by
  obtain ⟨hz, hw⟩ := word_ne_zero_of_valid hv
  rw [entry_eq_word hz hw]
  unfold ptCopyOnWrite at hk
  dsimp only at hk
  split at hk
  · rename_i hsh
    split at hk
    · rename_i m₂ hk₂
      cases hk
      unfold kmallocPage at hk₂
      split at hk₂
      · cases hk₂
      rename_i c hc
      cases hk₂
      exact ⟨rfl, rfl, hsh, Coremap.allocateFrame_none hc⟩
    · cases hk
  · cases hk

omit h hp in
/-- It takes a frame for the copy of a shared page only. -/
theorem Machine.hasFrame_of_ptCopyOnWrite (hk : m.ptCopyOnWrite (pt p) va = (.ok e, m'))
    (hsh : m.coremap.isShared (ppage (m.entry (pt p) (index1 va) (index2 va))) = true) :
    m.coremap.HasFrame := by
  obtain ⟨hz, hw⟩ := word_ne_zero_of_valid hv
  rw [entry_eq_word hz hw] at hsh
  unfold ptCopyOnWrite at hk
  simp only [hsh, if_true] at hk
  split at hk
  · cases hk
  rename_i hk₂
  unfold kmallocPage at hk₂
  split at hk₂
  · rename_i hc
    exact Coremap.hasFrame_decrefcount.mp (Coremap.hasFrame_of_allocateFrame hc)
  · cases hk₂

end

/-- `pt_copy_on_write` on a page with a valid entry that permits writing. Whenever it returns 0 the
page is private, writable and has its contents, and the old frame's count drops by one exactly if a
new frame was taken. It returns 0 exactly if the page is not shared or a frame is left; otherwise it
returns ENOMEM, with the page tables as they were and the count of the frame one lower. -/
theorem copy_on_write_correct (h : Owned live pt own m) (hp : p ∈ live)
    (hv : isValid (m.entry (pt p) (index1 va) (index2 va)) = true)
    (hd : isDirty (m.entry (pt p) (index1 va) (index2 va)) = true) :
    (∀ e m', m.ptCopyOnWrite (pt p) va = (.ok e, m') →
      MadePrivate live pt m p (index1 va) (index2 va) e m' ∧
        CountsMoved m (m.entry (pt p) (index1 va) (index2 va)) e m') ∧
    ((∃ e m', m.ptCopyOnWrite (pt p) va = (.ok e, m')) ↔
      (m.coremap.isShared (ppage (m.entry (pt p) (index1 va) (index2 va))) = true →
        m.coremap.HasFrame)) ∧
    ∀ x m', m.ptCopyOnWrite (pt p) va = (.error x, m') →
      x = .enomem ∧ m'.mem = m.mem ∧
        (m'.sharedOf (m.entry (pt p) (index1 va) (index2 va))).toNat + 1
          = (m.sharedOf (m.entry (pt p) (index1 va) (index2 va))).toNat := by
  refine ⟨?_, ⟨?_, ?_⟩, ?_⟩
  · intro e m' hk
    obtain ⟨own', hc⟩ := h.copyOnWrite hp hv hk
    exact ⟨hc.madePrivate h hp (index1_lt va) hd, h.cow_countsMoved hp hv hk⟩
  · rintro ⟨e, m', hk⟩
    exact hasFrame_of_ptCopyOnWrite hv hk
  · intro hfit
    cases hk : m.ptCopyOnWrite (pt p) va with
    | mk r m' =>
      cases r with
      | ok e => exact ⟨e, m', rfl⟩
      | error x => exact absurd hk (ptCopyOnWrite_ne_error hv hfit x m')
  · intro x m' hk
    obtain ⟨hx, hmem, hsh, hc⟩ := ptCopyOnWrite_error hv hk
    refine ⟨hx, hmem, ?_⟩
    simp only [Coremap.isShared, bne_iff_ne, ne_eq] at hsh
    have hpos : (m.sharedOf (m.entry (pt p) (index1 va) (index2 va))).toNat ≠ 0 := fun hz =>
      hsh (BitVec.eq_of_toNat_eq hz)
    have hone : BitVec.toNat (1 : BitVec 8) = 1 := rfl
    have hdec : m'.sharedOf (m.entry (pt p) (index1 va) (index2 va))
        = m.sharedOf (m.entry (pt p) (index1 va) (index2 va)) - 1 := by
      simp only [sharedOf, hc, Coremap.decrefcount, Coremap.setShared, Coremap.frameIndex,
        Function.update_self]
    rw [hdec]
    simp only [BitVec.toNat_sub, hone]
    omega

namespace OnePage

/-- The child's first store to the page it shares with its parent. -/
theorem copy_on_write_correct_child : ∃ e m',
    forked.mach.ptCopyOnWrite (forked.pt 1) stackVa = (.ok e, m') ∧
      MadePrivate forked.live forked.pt forked.mach 1 511 1023 e m' := by
  obtain ⟨own, hi⟩ := inv_reachable reachable_forked
  have hv : isValid (forked.mach.entry (forked.pt 1) (index1 stackVa) (index2 stackVa)) = true := by
    decide +kernel
  have hd : isDirty (forked.mach.entry (forked.pt 1) (index1 stackVa) (index2 stackVa)) = true := by
    decide +kernel
  have hcow := copy_on_write_correct hi.owned (by decide : 1 ∈ forked.live) hv hd
  obtain ⟨e, m', hk⟩ := hcow.2.1.mpr fun _ =>
    ⟨by decide +kernel, 5, by decide +kernel, by decide +kernel⟩
  exact ⟨e, m', hk, (hcow.1 e m' hk).1⟩

/-- The same machine with its last frame taken. -/
def lastTaken : Machine := forked.mach.kmallocPage.2

/-- The store fails for want of memory, and the parent's page is counted as nobody else's. -/
theorem cow_failure_drops_count :
    isValid (lastTaken.entry (forked.pt 1) (index1 stackVa) (index2 stackVa)) = true ∧
      isDirty (lastTaken.entry (forked.pt 1) (index1 stackVa) (index2 stackVa)) = true ∧
      (lastTaken.ptCopyOnWrite (forked.pt 1) stackVa).1 = .error .enomem ∧
      (lastTaken.coremap.entries 2).shared = 1 ∧
      ((lastTaken.ptCopyOnWrite (forked.pt 1) stackVa).2.coremap.entries 2).shared = 0 := by
  refine ⟨?_, ?_, ?_, ?_, ?_⟩ <;> decide +kernel

end OnePage

end OS161
