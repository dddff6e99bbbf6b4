import Mathlib.Data.Finset.Card
import OS161.Vm.PageTable

/-! Who owns each frame: a ghost label, tied to the coremap, the tables and the counts. -/
namespace OS161

open Function (update update_of_ne update_self)

/-- The use a frame is in. `held` frames belong to the rest of the kernel or were lost by an
error path; a `pending` frame is filled by a fault that has not mapped it yet. -/
inductive Owner where
  | free | held | pending (p : Nat) | dir (p : Nat) | table (p i : Nat) | user (i j : Nat)
  deriving DecidableEq

namespace Machine
variable {m m' : Machine} {own : Nat → Owner} {p : Nat} {ptp : Vaddr} {f i j : Nat}

/-- The kernel address of a frame. -/
def kva (m : Machine) (f : Nat) : Vaddr := paddrToKvaddr (m.coremap.frameAddr f)

/-- The machines manage the same frames. -/
structure SameFrames (m m' : Machine) : Prop where
  size : m'.coremap.size = m.coremap.size
  frame0 : m'.coremap.frame0 = m.coremap.frame0

theorem SameFrames.refl (m : Machine) : SameFrames m m := ⟨rfl, rfl⟩

section
variable (h : SameFrames m m')
include h

theorem SameFrames.trans {m'' : Machine} (h' : SameFrames m' m'') :
    SameFrames m m'' := ⟨h'.size.trans h.size, h'.frame0.trans h.frame0⟩

theorem SameFrames.frameAddr (f : Nat) : m'.coremap.frameAddr f = m.coremap.frameAddr f := by
  simp [Coremap.frameAddr, h.frame0]

theorem SameFrames.kva (f : Nat) : m'.kva f = m.kva f := by
  simp [Machine.kva, h.frameAddr]

theorem SameFrames.frameIndex (pa : Paddr) :
    m'.coremap.frameIndex pa = m.coremap.frameIndex pa := by
  simp [Coremap.frameIndex, h.frame0]

theorem SameFrames.frameOf (va : Vaddr) : m'.frameOf va = m.frameOf va := by
  simp [Machine.frameOf, h.frameIndex]

end

section
variable (hf : f < m.coremap.size)
include hf

@[simp] theorem frameOf_kva : m.frameOf (m.kva f) = f := by
  simp [frameOf, kva, Coremap.frameIndex_frameAddr hf]

theorem kva_inj {g : Nat} (hg : g < m.coremap.size) (h : m.kva f = m.kva g) : f = g := by
  rw [← frameOf_kva hf, h, frameOf_kva hg]

theorem kva_ne_zero : m.kva f ≠ 0#32 := Coremap.kvaddr_ne_zero hf

omit hf in
@[simp] theorem kvaddrToPaddr_kva : kvaddrToPaddr (m.kva f) = m.coremap.frameAddr f := by
  simp [kva]

theorem word_kva : m.word (m.kva f) i = m.mem f i := by
  simp [word, hf]

theorem word_kva_congr {ptp : Vaddr} (hptp : ptp = m.kva f)
    (hs : SameFrames m m') (hm : m'.mem f = m.mem f) : m'.word ptp i = m.word ptp i := by
  rw [hptp, word_kva hf, ← hs.kva, word_kva (by rw [hs.size]; exact hf), hm]

end

/-- A first-level table in a frame of its own, with its second-level tables in theirs. -/
def OwnsTable (own : Nat → Owner) (m : Machine) (p : Nat) (ptp : Vaddr) : Prop :=
  ptp ≠ 0#32 → ∃ d, d < m.coremap.size ∧ ptp = m.kva d ∧ own d = .dir p ∧
    ∀ i, i < 1024 → m.mem d i ≠ 0#32 →
      ∃ g, g < m.coremap.size ∧ m.mem d i = m.coremap.frameAddr g ∧ own g = .table p i

theorem entry_null (i j : Nat) : m.entry 0#32 i j = 0#32 := by simp [entry]

theorem entry_absent {d : Nat} (hd : d < m.coremap.size) (h : m.mem d i = 0#32) :
    m.entry (m.kva d) i j = 0#32 := by
  simp [entry, word_kva hd, h]

theorem entry_table {d g : Nat} (hd : d < m.coremap.size) (hg : g < m.coremap.size)
    (h : m.mem d i = m.coremap.frameAddr g) : m.entry (m.kva d) i j = m.mem g j := by
  have hne := Coremap.frameAddr_ne_zero hg
  have hk := word_kva (m := m) (i := j) hg
  simp only [kva] at hk
  simp [entry, word_kva hd, h, hne, kva_ne_zero hd, hk]

/-- A page table means the same on every machine that agrees on the frames it occupies. -/
theorem entry_congr (h : OwnsTable own m p ptp) (hs : SameFrames m m') (hi : i < 1024)
    (hd : ∀ f, own f = .dir p → m'.mem f = m.mem f)
    (ht : ∀ f i, own f = .table p i → m'.mem f = m.mem f) : m'.entry ptp i j = m.entry ptp i j := by
  by_cases hz : ptp = 0#32
  · subst hz
    simp [entry_null]
  obtain ⟨d, hlt, rfl, hod, htab⟩ := h hz
  have hlt' : d < m'.coremap.size := by rw [hs.size]; exact hlt
  have hmd := hd d hod
  rw [← hs.kva d]
  by_cases hzero : m.mem d i = 0#32
  · rw [entry_absent hlt' (by rw [hmd, hzero]), hs.kva, entry_absent hlt hzero]
  obtain ⟨g, hg, hge, hgo⟩ := htab i hi hzero
  rw [entry_table hlt' (by rw [hs.size]; exact hg) (by rw [hmd, hge, hs.frameAddr]),
    hs.kva, entry_table hlt hg hge, ht g i hgo]

theorem OwnsTable.congr (h : OwnsTable own m p ptp) (hs : SameFrames m m')
    (hd : ∀ f, own f = .dir p → m'.mem f = m.mem f) : OwnsTable own m' p ptp := by
  intro hz
  obtain ⟨d, hlt, hp, hod, htab⟩ := h hz
  refine ⟨d, by rw [hs.size]; exact hlt, by rw [hs.kva]; exact hp, hod, ?_⟩
  intro i hi hne
  rw [hd d hod] at hne ⊢
  obtain ⟨g, hg, hge, hgo⟩ := htab i hi hne
  exact ⟨g, by rw [hs.size]; exact hg, by rw [hs.frameAddr]; exact hge, hgo⟩

theorem OwnsTable.relabel {own' : Nat → Owner} (h : OwnsTable own m p ptp)
    (hd : ∀ f, own f = .dir p → own' f = .dir p)
    (ht : ∀ f i, own f = .table p i → own' f = .table p i) : OwnsTable own' m p ptp := by
  intro hz
  obtain ⟨d, hlt, hp, hod, htab⟩ := h hz
  refine ⟨d, hlt, hp, hd d hod, ?_⟩
  intro i hi hne
  obtain ⟨g, hg, hge, hgo⟩ := htab i hi hne
  exact ⟨g, hg, hge, ht g i hgo⟩

end Machine

open Machine

section
variable (live : Finset Nat) (pt : Nat → Vaddr)

/-- How many live tables map the page `(i, j)` to the frame. -/
def Machine.refs (m : Machine) (i j f : Nat) : Nat :=
  (live.filter fun p => isValid (m.entry (pt p) i j) = true ∧
    ppage (m.entry (pt p) i j) = m.coremap.frameAddr f).card

/-- What the coremap must say of a frame in a given use, the mappings of the frame being
counted by `refs`. -/
def FrameOK (info : FrameInfo) (refs : Nat → Nat → Nat) : Owner → Prop
  | .free => info.status = .unallocated ∧ info.shared = 0
  | .held => info.status ≠ .unallocated
  | .pending _ | .dir _ | .table _ _ =>
    info.status ≠ .unallocated ∧ info.allocSize = 1 ∧ info.shared = 0
  | .user i j =>
    info.status ≠ .unallocated ∧ info.allocSize = 1 ∧ i < 1024 ∧ j < 1024 ∧
      info.shared.toNat + 1 = refs i j

/-- The ownership invariant over the live address spaces. -/
structure Owned (own : Nat → Owner) (m : Machine) : Prop where
  inside : ∀ f, own f ≠ .free → f < m.coremap.size
  frames : ∀ f, f < m.coremap.size →
    FrameOK (m.coremap.entries f) (fun i j => m.refs live pt i j f) (own f)
  tables : ∀ p, p ∈ live → OwnsTable own m p (pt p)
  mapped : ∀ p, p ∈ live → ∀ i j, i < 1024 → j < 1024 → isValid (m.entry (pt p) i j) = true →
    ∃ f, ppage (m.entry (pt p) i j) = m.coremap.frameAddr f ∧ own f = .user i j

end

section
variable {live : Finset Nat} {pt : Nat → Vaddr} {own : Nat → Owner} {m m' : Machine}
  {p f i j : Nat} {e : Word} {info : FrameInfo} {n n' : Nat → Nat → Nat} {l l' : Owner}

theorem FrameOK.congr (h : FrameOK info n l) (hn : ∀ i j, i < 1024 → n' i j = n i j) :
    FrameOK info n' l := by
  cases l with
  | user i j =>
    obtain ⟨hs, ha, hi, hj, hc⟩ := h
    exact ⟨hs, ha, hi, hj, by rw [hn i j hi]; exact hc⟩
  | free | held | pending | dir | table => exact h

/-- Uses of single frames other than mappings are alike to the coremap. -/
theorem FrameOK.relabel (h : FrameOK info n l) (hf : l ≠ .free) (hh : l ≠ .held)
    (hu : ∀ i j, l ≠ .user i j) (hf' : l' ≠ .free) (hu' : ∀ i j, l' ≠ .user i j) :
    FrameOK info n' l' := by
  have hs : info.status ≠ .unallocated ∧ info.allocSize = 1 ∧ info.shared = 0 := by
    cases l with
    | free => exact (hf rfl).elim
    | held => exact (hh rfl).elim
    | user i j => exact (hu i j rfl).elim
    | pending | dir | table => exact h
  cases l' with
  | free => exact (hf' rfl).elim
  | user i j => exact (hu' i j rfl).elim
  | held => exact hs.1
  | pending | dir | table => exact hs

theorem Machine.refs_congr {pt' : Nat → Vaddr} (hs : SameFrames m m')
    (he : ∀ p, p ∈ live → m'.entry (pt' p) i j = m.entry (pt p) i j) :
    m'.refs live pt' i j f = m.refs live pt i j f := by
  unfold refs
  congr 1
  apply Finset.filter_congr
  intro p hp
  rw [he p hp, hs.frameAddr]

section
variable (h : Owned live pt own m)
include h

/-- When every entry keeps its value, what is left to check is the tables themselves and each
frame that changed its use. -/
theorem Owned.of_entries {pt' : Nat → Vaddr} {own' : Nat → Owner} (hs : SameFrames m m')
    (he : ∀ p, p ∈ live → ∀ i j, i < 1024 → m'.entry (pt' p) i j = m.entry (pt p) i j)
    (htab : ∀ p, p ∈ live → OwnsTable own' m' p (pt' p))
    (hin : ∀ k, own' k ≠ .free → k < m.coremap.size)
    (huser : ∀ k i j, own k = .user i j → own' k = .user i j)
    (hframe : ∀ k, k < m.coremap.size →
      (own' k = own k ∧ m'.coremap.entries k = m.coremap.entries k) ∨
        ∀ n, FrameOK (m'.coremap.entries k) n (own' k)) : Owned live pt' own' m' := by
  constructor
  · intro k hk
    rw [hs.size]
    exact hin k hk
  · intro k hk
    rw [hs.size] at hk
    obtain ⟨hl, hc⟩ | hok := hframe k hk
    · rw [hl, hc]
      apply (h.frames k hk).congr
      intro i j hi
      exact refs_congr hs fun p hp => he p hp i j hi
    · exact hok _
  · exact htab
  intro p hp i j hi hj hv
  rw [he p hp i j hi] at hv ⊢
  obtain ⟨k, hk, hko⟩ := h.mapped p hp i j hi hj hv
  exact ⟨k, by rw [hs.frameAddr]; exact hk, huser k i j hko⟩

omit h in
theorem Machine.entry_outside (ht : ∀ p, p ∈ live → OwnsTable own m p (pt p)) (hs : SameFrames m m')
    (hm : ∀ p, p ∈ live → ∀ f, (own f = .dir p ∨ ∃ i, own f = .table p i) → m'.mem f = m.mem f)
    (hp : p ∈ live) (hi : i < 1024) : m'.entry (pt p) i j = m.entry (pt p) i j :=
  entry_congr (ht p hp) hs hi (fun f hf => hm p hp f (.inl hf))
    (fun f k hf => hm p hp f (.inr ⟨k, hf⟩))

/-- A frame that holds no table or mapping may change its use, its coremap entry and its
contents; everything else keeps its meaning. -/
theorem Owned.reuse (hs : SameFrames m m') (hf : f < m.coremap.size)
    (hother : ∀ k, k ≠ f → m'.coremap.entries k = m.coremap.entries k)
    (hmem : ∀ k, k ≠ f → m'.mem k = m.mem k) (hu : ∀ i j, own f ≠ .user i j)
    (hd : ∀ p, p ∈ live → own f ≠ .dir p) (ht : ∀ p, p ∈ live → ∀ i, own f ≠ .table p i)
    (hok : ∀ n, FrameOK (m'.coremap.entries f) n l) : Owned live pt (update own f l) m' := by
  have hout : ∀ p, p ∈ live → ∀ k, (own k = .dir p ∨ ∃ i, own k = .table p i) → k ≠ f := by
    rintro p hp k (hk | ⟨i, hk⟩) rfl
    · exact hd p hp hk
    · exact ht p hp i hk
  apply h.of_entries hs
  · intro p hp i j hi
    exact entry_outside h.tables hs (fun p hp k hk => hmem k (hout p hp k hk)) hp hi
  · intro p hp
    refine ((h.tables p hp).congr hs fun k hk => hmem k (hout p hp k (.inl hk))).relabel ?_ ?_
    · intro k hk
      rw [update_of_ne (hout p hp k (.inl hk))]
      exact hk
    · intro k i hk
      rw [update_of_ne (hout p hp k (.inr ⟨i, hk⟩))]
      exact hk
  · intro k hk
    by_cases hkf : k = f
    · subst k
      exact hf
    · rw [update_of_ne hkf] at hk
      exact h.inside k hk
  · intro k i j hk
    rw [update_of_ne (by rintro rfl; exact hu i j hk)]
    exact hk
  intro k _
  by_cases hkf : k = f
  · subst k
    right
    rw [update_self]
    exact hok
  · left
    exact ⟨update_of_ne hkf l own, hother k hkf⟩

theorem Owned.setMem (hc : m'.coremap = m.coremap)
    (hm : ∀ p, p ∈ live → ∀ f, (own f = .dir p ∨ ∃ i, own f = .table p i) →
      m'.mem f = m.mem f) : Owned live pt own m' := by
  have hs : SameFrames m m' := ⟨by rw [hc], by rw [hc]⟩
  apply h.of_entries hs
  · intro p hp i j hi
    exact entry_outside h.tables hs hm hp hi
  · intro p hp
    exact (h.tables p hp).congr hs fun f hf => hm p hp f (.inl hf)
  · exact h.inside
  · exact fun _ _ _ hk => hk
  · exact fun k _ => .inl ⟨rfl, by rw [hc]⟩

omit h in
theorem Machine.kmallocPage_some {va : Vaddr} (hk : m.kmallocPage = (some va, m')) :
    ∃ f, f < m.coremap.size ∧ (m.coremap.entries f).status = .unallocated ∧ va = m.kva f ∧
      m'.mem = m.mem ∧ SameFrames m m' ∧
      m'.coremap.entries = update m.coremap.entries f
        { m.coremap.entries f with status := .kernelAllocated, allocSize := 1 } := by
  simp only [Machine.kmallocPage] at hk
  split at hk
  · rename_i pa c hc
    obtain ⟨f, hf, hfree, rfl, hsize, hbase, hent⟩ := Coremap.allocateFrame_one hc
    simp only [Prod.mk.injEq, Option.some.injEq] at hk
    obtain ⟨rfl, rfl⟩ := hk
    exact ⟨f, hf, hfree, rfl, rfl, ⟨hsize, hbase⟩, hent⟩
  · simp at hk

theorem Owned.eq_free (hf : f < m.coremap.size)
    (hfree : (m.coremap.entries f).status = .unallocated) :
    own f = .free ∧ (m.coremap.entries f).shared = 0 := by
  have hok := h.frames f hf
  cases ho : own f with
  | free =>
    rw [ho] at hok
    exact ⟨rfl, hok.2⟩
  | held =>
    rw [ho] at hok
    exact (hok hfree).elim
  | _ =>
    rw [ho] at hok
    exact (hok.1 hfree).elim

/-- A page the allocator hands out was nobody's, and may be put to any use but a mapping. -/
theorem Owned.kmallocPage {va : Vaddr} (hk : m.kmallocPage = (some va, m')) :
    ∃ f, f < m.coremap.size ∧ va = m.kva f ∧ own f = .free ∧ m'.mem = m.mem ∧ SameFrames m m' ∧
      ∀ l, l ≠ .free → (∀ i j, l ≠ .user i j) → Owned live pt (update own f l) m' := by
  obtain ⟨f, hf, hfree, rfl, hmem, hs, hent⟩ := kmallocPage_some hk
  obtain ⟨hown, hshared⟩ := h.eq_free hf hfree
  refine ⟨f, hf, rfl, hown, hmem, hs, ?_⟩
  intro l hl hu
  apply h.reuse hs hf ?_ (fun _ _ => by rw [hmem]) (by simp [hown]) (by simp [hown])
    (by simp [hown])
  · intro n
    have hentry : FrameOK (m'.coremap.entries f) n (.pending 0) := by
      rw [hent, update_self]
      exact ⟨by simp, rfl, hshared⟩
    exact hentry.relabel (by simp) (by simp) (by simp) hl hu
  · intro k hkf
    rw [hent, update_of_ne hkf]

end

end

end OS161
