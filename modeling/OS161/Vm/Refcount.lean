import Mathlib.Data.Finset.Prod
import OS161.Vm.Pages

/-! Reference counts are exact, and a frame is freed with its last mapping. -/
namespace OS161

open Machine Sys
open Function (update)

variable {s : Sys} {own : Nat → Owner} {p q f i j : Nat} {pa : Paddr}

namespace Sys

/-- The valid entries of all live page tables that point to a physical page. -/
def ptes (s : Sys) (pa : Paddr) : Finset (Nat × Nat × Nat) :=
  (s.live ×ˢ Finset.range 1024 ×ˢ Finset.range 1024).filter fun x =>
    isValid (s.pte x.1 x.2.1 x.2.2) = true ∧ ppage (s.pte x.1 x.2.1 x.2.2) = pa

/-- The coremap's entry for a physical page. -/
def info (s : Sys) (pa : Paddr) : FrameInfo :=
  s.mach.coremap.entries (s.mach.coremap.frameIndex pa)

theorem mem_ptes : (p, i, j) ∈ s.ptes pa ↔ p ∈ s.live ∧ i < 1024 ∧ j < 1024 ∧
    isValid (s.pte p i j) = true ∧ ppage (s.pte p i j) = pa := by
  simp [ptes, and_assoc]

end Sys

section
variable (hi : Inv own s)
include hi

/-- All entries that point to one frame stand at the same place of their tables. -/
theorem Inv.ptes_eq (hfo : own f = .user i j) :
    s.ptes (s.mach.coremap.frameAddr f) = (s.live.filter fun p => isValid (s.pte p i j) = true ∧
      ppage (s.pte p i j) = s.mach.coremap.frameAddr f).image fun p => (p, i, j) := by
  have hij := hi.owned.user_lt hfo
  have hflt := hi.owned.inside f (by simp [hfo])
  ext ⟨p, i', j'⟩
  simp only [mem_ptes, Finset.mem_image, Finset.mem_filter, Prod.mk.injEq]
  constructor
  · rintro ⟨hp, hi', hj', hv, hpp⟩
    obtain ⟨g, hg, hgo⟩ := hi.owned.mapped p hp i' j' hi' hj' hv
    have hgf : g = f := by
      refine (Coremap.frameAddr_inj (hi.owned.inside g (by simp [hgo])) hflt).mp ?_
      exact hg.symm.trans hpp
    subst g
    obtain ⟨rfl, rfl⟩ : i = i' ∧ j = j' := by simpa [hfo] using hgo
    exact ⟨p, ⟨hp, hv, hpp⟩, rfl, rfl, rfl⟩
  · rintro ⟨p, ⟨hp, hv, hpp⟩, rfl, rfl, rfl⟩
    exact ⟨hp, hij.1, hij.2, hv, hpp⟩

theorem Inv.card_ptes (hfo : own f = .user i j) :
    (s.ptes (s.mach.coremap.frameAddr f)).card = s.mach.refs s.live s.pt i j f := by
  rw [hi.ptes_eq hfo, Finset.card_image_of_injective]
  · rfl
  · intro p q hpq
    exact congrArg Prod.fst hpq

theorem Inv.frame_of_pte (hx : (p, i, j) ∈ s.ptes pa) :
    ∃ f, own f = .user i j ∧ pa = s.mach.coremap.frameAddr f ∧
      s.info pa = s.mach.coremap.entries f := by
  obtain ⟨hp, hi', hj', hv, rfl⟩ := mem_ptes.mp hx
  obtain ⟨f, hf, hfo⟩ := hi.owned.mapped p hp i j hi' hj' hv
  have hf' : ppage (s.pte p i j) = s.mach.coremap.frameAddr f := hf
  refine ⟨f, hfo, hf', ?_⟩
  rw [Sys.info, hf', Coremap.frameIndex_frameAddr (hi.owned.inside f (by simp [hfo]))]

/-- Destroying the table of `p` frees a mapped page exactly when all its entries are `p`'s. -/
theorem Inv.destroy_frees (hp : p ∈ s.live) (hz : s.pt p ≠ 0#32) (hne : (s.ptes pa).Nonempty) :
    ((s.mach.ptDeepDestroy (s.pt p)).coremap.entries
        (s.mach.coremap.frameIndex pa)).status = .unallocated ↔ ∀ x ∈ s.ptes pa, x.1 = p := by
  obtain ⟨⟨q, i, j⟩, hx⟩ := hne
  obtain ⟨f, hfo, rfl, _⟩ := hi.frame_of_pte hx
  have hd := hi.owned.destroyed hp hz
  rw [Coremap.frameIndex_frameAddr (hi.owned.inside f (by simp [hfo]))]
  have hothers : s.mach.otherRefs s.live s.pt p i j f = 0 ↔
      ∀ x ∈ s.ptes (s.mach.coremap.frameAddr f), x.1 = p := by
    rw [hi.ptes_eq hfo, otherRefs, Machine.refs, Finset.card_eq_zero, Finset.filter_eq_empty_iff]
    simp only [Finset.mem_image, Finset.mem_filter, Finset.mem_erase]
    constructor
    · rintro h x ⟨r, ⟨hr, hmaps⟩, rfl⟩
      by_contra hrp
      exact h ⟨hrp, hr⟩ hmaps
    · intro h r hr hmaps
      exact hr.1 (h (r, i, j) ⟨r, ⟨hr.2, hmaps⟩, rfl⟩)
  by_cases hmaps : isValid (s.mach.entry (s.pt p) i j) = true ∧
      ppage (s.mach.entry (s.pt p) i j) = s.mach.coremap.frameAddr f
  · rw [hi.owned.freed_iff hp hd hfo hmaps.1 hmaps.2, hothers]
  rw [hd.user f i j hfo, if_neg hmaps]
  refine iff_of_false (hi.owned.user_refs hfo).1 ?_
  intro hall
  obtain rfl : q = p := hall _ hx
  obtain ⟨_, _, _, hv, hpp⟩ := mem_ptes.mp hx
  exact hmaps ⟨hv, hpp⟩

end

/-- Frame reference counts are exact in every run in which no copy-on-write runs out of memory:
a page some table maps is allocated, and its 8-bit count is one less than the number of entries
that map it. Destroying a table frees a mapped page exactly when it holds the last of its
entries, and no call of `kfree` on the way meets a page that is not allocated. -/
theorem shared_counts_exact (h : Reachable s) :
    (∀ pa, (s.ptes pa).Nonempty →
      (s.info pa).status ≠ .unallocated ∧ (s.info pa).shared.toNat + 1 = (s.ptes pa).card) ∧
    ∀ p, p ∈ s.live → s.pt p ≠ 0#32 →
      (∀ pa, (s.ptes pa).Nonempty →
        (((s.mach.ptDeepDestroy (s.pt p)).coremap.entries
          (s.mach.coremap.frameIndex pa)).status = .unallocated ↔ ∀ x ∈ s.ptes pa, x.1 = p)) ∧
      s.mach.ptDeepDestroyChecked (s.pt p) = some (s.mach.ptDeepDestroy (s.pt p)) := by
  obtain ⟨own, hi⟩ := inv_reachable h
  refine ⟨?_, ?_⟩
  · rintro pa ⟨⟨q, i, j⟩, hx⟩
    obtain ⟨f, hfo, rfl, hinfo⟩ := hi.frame_of_pte hx
    obtain ⟨hst, hn⟩ := hi.owned.user_refs hfo
    rw [hinfo, hi.card_ptes hfo]
    exact ⟨hst, hn⟩
  · intro p hp hz
    obtain ⟨_, _, hchk, _⟩ := hi.owned.ptDeepDestroy_walk hp hz
    exact ⟨fun pa hne => hi.destroy_frees hp hz hne, hchk⟩

namespace OnePage

def written : Sys := { mapped with mach := mapped.mach.setUserWord 0x3600#32 stackVa 1#32 }

/-- The child's first-level table, in frame 3; its second-level table is in frame 4. -/
def table : Vaddr := 0x80004000#32

def copying : Machine := written.mach.kmallocPage.2.setPage table zeroPage

def copied : Machine := (ptCopyEntry (written.pt 0) table 511 copying).getD copying

def marked : Machine := makeReadonlyEntry 0x80005000#32 true 1023 copied

def forked : Sys :=
  { written with
    mach := marked, tlb := written.tlb.makeReadonly, live := {1, 0}
    proc := update written.proc 1 (written.child 0 table 0#32 0#32), next := 2 }

theorem word_of_update {m : Machine} {va : Vaddr} {i k : Nat} {w : Word}
    (h : m.word va = update zeroPage i w) (hk : k ≠ i) : m.word va k = 0#32 := by
  rw [h, Function.update_of_ne hk]
  rfl

/-- A copy of page tables of which the first level has one entry. -/
theorem ptCopy_single {m m' : Machine} {pt new : Vaddr} {i : Nat} {w : Word} (hi : i < 1024)
    (halloc : m.kmallocPage.1 = some new)
    (hword : (m.kmallocPage.2.setPage new zeroPage).word pt = update zeroPage i w)
    (hentry : ptCopyEntry pt new i (m.kmallocPage.2.setPage new zeroPage) = some m')
    (hword' : m'.word pt = update zeroPage i w) : m.ptCopy pt = .ok (some new, m') := by
  have hloop : Loop.tryUpTo (ptCopyEntry pt new) 1024 (m.kmallocPage.2.setPage new zeroPage)
      = some m' := by
    refine Loop.tryUpTo_single hi ?_ hentry ?_
    · intro k _ hk
      rw [ptCopyEntry, if_pos (word_of_update hword hk)]
    · intro k _ hk
      rw [ptCopyEntry, if_pos (word_of_update hword' hk)]
  rw [ptCopy, ← Prod.mk.eta (p := m.kmallocPage), halloc]
  dsimp only
  rw [hloop]

theorem ptCopy_written : written.mach.ptCopy (written.pt 0) = .ok (some table, copied) :=
  ptCopy_single (by decide : 511 < 1024) rfl rfl rfl rfl

theorem makeReadonly_copied : copied.makeReadonly table true = marked := by
  have hdir : copied.word table = update zeroPage 511 0x5000#32 := rfl
  have hdir' : marked.word table = update zeroPage 511 0x5000#32 := rfl
  have hsecond : copied.word 0x80005000#32 = update zeroPage 1023 0x3600#32 := rfl
  have hsecond' : marked.word 0x80005000#32 = update zeroPage 1023 0x3601#32 := by
    have h : marked.word 0x80005000#32
        = update (update zeroPage 1023 0x3600#32) 1023 0x3601#32 := rfl
    rw [h, Function.update_idem]
  have hin : Loop.upTo (makeReadonlyEntry 0x80005000#32 true) 1024 copied = marked := by
    refine Loop.upTo_single (by decide : 1023 < 1024) ?_ ?_
    · intro k _ hk
      simp [makeReadonlyEntry, word_of_update hsecond hk]
    · intro k _ hk
      rw [makeReadonlyEntry, ← marked, word_of_update hsecond' hk]
      simp
  have hbody : (if copied.word table 511 ≠ 0#32 then
      Loop.upTo (makeReadonlyEntry (paddrToKvaddr (copied.word table 511)) true) 1024 copied
      else copied) = marked := by
    rw [hdir, Function.update_self, if_pos (by decide)]
    exact hin
  rw [Machine.makeReadonly, Loop.upTo_single (by decide : 511 < 1024) ?_ ?_]
  · exact hbody
  · intro k _ hk
    rw [word_of_update hdir hk]
    simp
  · intro k _ hk
    rw [hbody, word_of_update hdir' hk]
    simp

theorem reachable_written : Reachable written := by
  have hrun := running_reachable (cowFits_of_ne (by simp)) fun _ => cowFits_of_ne (by simp)
  have h := mapped_reachable hrun (cowFits_of_ne (by simp)) (cowFits_miss (by simp))
  exact h.next ⟨.store ⟨rfl, by decide, rfl⟩ (by decide) rfl, cowFits_of_ne (by simp)⟩

theorem step_fork : Step written (.fork 0 1 0#32 0#32) forked := by
  have h : Step written (.fork 0 1 0#32 0#32) _ :=
    .fork ⟨rfl, by decide, rfl⟩ (by decide) (by decide) ptCopy_written
  rw [makeReadonly_false, makeReadonly_copied] at h
  exact h

theorem reachable_forked : Reachable forked :=
  reachable_written.next ⟨step_fork, cowFits_of_ne (by simp)⟩

end OnePage

/-- The page two processes share has a count of one. -/
theorem shared_counts_exact_forked : (OnePage.forked.ptes 0x3000#32).Nonempty ∧
    (OnePage.forked.info 0x3000#32).shared.toNat + 1 = (OnePage.forked.ptes 0x3000#32).card := by
  have hne : (OnePage.forked.ptes 0x3000#32).Nonempty := by
    refine ⟨(0, 511, 1023), ?_⟩
    rw [mem_ptes]
    refine ⟨by decide, by decide, by decide, ?_, ?_⟩
    · decide +kernel
    · decide +kernel
  have hcount := (shared_counts_exact OnePage.reachable_forked).1 0x3000#32 hne
  exact ⟨hne, hcount.2⟩

end OS161
