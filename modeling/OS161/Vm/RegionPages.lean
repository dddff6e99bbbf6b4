import OS161.Vm.StackGrowth

/-! `vm_fault` maps only pages of the regions it knows; `sys_sbrk` maps page 0 in any case. -/
namespace OS161

open Machine

variable {as as' : AddrSpace} {s t : Sys} {a : Event} {p q i j rand : Nat} {va : Vaddr}
  {exits sbrks : Bool}

/-- One of the regions of `vm_fault` has the address. -/
def AddrSpace.Has (as : AddrSpace) (va : Vaddr) : Prop :=
  ∃ region, as.mappedRegion va = .ok (some region)

theorem AddrSpace.has_iff : as.Has va ↔ ∃ r₀ r₁ rest, as.asRegion = r₀ :: r₁ :: rest ∧
    (r₀.pVaddr ≤ va ∧ va < r₀.pVaddr + r₀.pMemsz ∨ r₁.pVaddr ≤ va ∧ va < r₁.pVaddr + r₁.pMemsz ∨
      as.asHeapbase ≤ va ∧ va < as.asHeapvtop ∨
      as.asStackvbase - pageSizeW ≤ va ∧ va < userstack) := by
  unfold AddrSpace.Has AddrSpace.mappedRegion
  split
  · rename_i r₀ r₁ rest hr
    rw [hr]
    simp only [Except.ok.injEq, List.cons.injEq]
    constructor
    · rintro ⟨region, h⟩
      refine ⟨r₀, r₁, rest, ⟨rfl, rfl, rfl⟩, ?_⟩
      by_contra hno
      simp only [not_or] at hno
      obtain ⟨h₀, h₁, h₂, h₃⟩ := hno
      rw [if_neg h₀, if_neg h₁, if_neg h₂, if_neg h₃] at h
      cases h
    · rintro ⟨_, _, _, ⟨rfl, rfl, rfl⟩, h⟩
      split_ifs with h₀ h₁ h₂ h₃
      · exact ⟨_, rfl⟩
      · exact ⟨_, rfl⟩
      · exact ⟨_, rfl⟩
      · exact ⟨_, rfl⟩
      · tauto
  · rename_i hno
    constructor
    · rintro ⟨_, h⟩
      cases h
    · rintro ⟨r₀, r₁, rest, hr, -⟩
      exact (hno r₀ r₁ rest hr).elim

/-- No region has shrunk. -/
structure AddrSpace.Widened (as as' : AddrSpace) : Prop where
  region : as'.asRegion = as.asRegion
  heapbase : as'.asHeapbase ≤ as.asHeapbase
  heapvtop : as.asHeapvtop ≤ as'.asHeapvtop
  stack : as'.asStackvbase - pageSizeW ≤ as.asStackvbase - pageSizeW

open BitVec (le_trans le_refl le_def)

theorem AddrSpace.Widened.has (h : as.Widened as') (hc : as.Has va) : as'.Has va := by
  obtain ⟨r₀, r₁, rest, hr, hin⟩ := AddrSpace.has_iff.mp hc
  refine AddrSpace.has_iff.mpr ⟨r₀, r₁, rest, h.region.trans hr, ?_⟩
  rcases hin with h₀ | h₁ | ⟨hlow, hhigh⟩ | ⟨hlow, hhigh⟩
  · exact .inl h₀
  · exact .inr (.inl h₁)
  · exact .inr (.inr (.inl
      ⟨le_trans h.heapbase hlow,
        BitVec.lt_def.mpr
          (Nat.lt_of_lt_of_le (BitVec.lt_def.mp hhigh) (BitVec.le_def.mp h.heapvtop))⟩))
  · exact .inr (.inr (.inr ⟨le_trans h.stack hlow, hhigh⟩))

theorem SameLayout.widened (h : SameLayout as as') : as.Widened as' :=
  ⟨h.region, by rw [h.heapbase]; exact le_refl _, by rw [h.heapvtop]; exact le_refl _,
    by rw [h.stackvbase]; exact le_refl _⟩

variable {c : Ctx} {ft : FaultType} {l : Load}

/-- A fault outside the regions does nothing. -/
theorem Ctx.vmFault_has {o : Outcome}
    (h : c.vmFault ft va rand = .ok o) : (∃ e, o = .failed e c) ∨ c.as.Has va := by
  cases vmFault_cases h with
  | noRegion | noTable => exact .inl ⟨_, rfl⟩
  | modify hreg _ _ _ | access hreg _ _ _ => exact .inr ⟨_, hreg⟩

theorem Ctx.vmFault_loading {c' : Ctx}
    (h : c.vmFault ft va rand = .ok (.loading l c')) : l.va = va := by
  cases vmFault_cases h with
  | modify _ _ hft _ =>
    subst hft
    exact (Ctx.vmFault_readonly_ne_loading h).elim
  | @access region c₁ _ _ _ _ ho =>
    unfold Ctx.access at ho
    split at ho
    · cases ho
    unfold Ctx.mapMissing at ho
    split at ho
    · cases ho
    cases region with
    | code | data =>
      unfold Ctx.startLoad at ho
      dsimp only at ho
      split at ho <;> cases ho
      rfl
    | heap =>
      unfold Ctx.growHeap at ho
      dsimp only at ho
      split at ho <;> cases ho
    | stack =>
      unfold Ctx.growStack at ho
      dsimp only at ho
      split at ho <;> cases ho

theorem mode_put {mode mode' : Mode} (hm : ((s.put p c mode).proc q).mode = mode') :
    q = p ∧ mode = mode' ∨ (s.proc q).mode = mode' := by
  by_cases hq : q = p
  · subst hq
    simp only [Sys.put, Function.update_self] at hm
    exact .inl ⟨rfl, hm⟩
  · simp only [Sys.put, Function.update_of_ne hq] at hm
    exact .inr hm

theorem Step.loading (h : Step s a t) (hq : q < s.next) (hm : (t.proc q).mode = .loading l) :
    (s.proc q).mode = .loading l ∨
      ∃ rand ft va c, a = .fault q rand ∧ (s.proc q).mode = .trapped ft va ∧
        (s.ctx q).vmFault ft va rand = .ok (.loading l c) := by
  have hnew : ∀ x : Proc, Function.update s.proc s.next x q = s.proc q :=
    fun x => Function.update_of_ne (Nat.ne_of_lt hq) x s.proc
  have hput : ∀ (p : Nat) (c : Ctx) (mode : Mode), mode ≠ .loading l →
      ((s.put p c mode).proc q).mode = .loading l → (s.proc q).mode = .loading l :=
    fun p c mode hne hm => (mode_put hm).resolve_left fun hself => hne hself.2
  cases h with
  | switch | load | store | forkFailed | exit => exact .inl hm
  | trap | copyfail | sbrk => exact .inl (hput _ _ _ (by simp) hm)
  | @fault p rand va ft o _ _ hmode ho =>
    cases o with
    | done | failed => exact .inl (hput _ _ _ (by simp) hm)
    | loading l' c =>
      rcases mode_put hm with ⟨rfl, hl⟩ | hold
      · cases hl
        exact .inr ⟨rand, ft, va, c, rfl, hmode, ho⟩
      · exact .inl hold
  | @loaded p rand l' r _ _ _ =>
    left
    unfold Ctx.vmFaultLoaded at hm
    dsimp only at hm
    split at hm
    · exact hput _ _ _ (by simp) hm
    split at hm
    · exact hput _ _ _ (by simp) hm
    · exact hput _ _ _ (by simp) hm
  | fork | start => exact .inl (hnew _ ▸ hm)

/-- The steps that let no region shrink: a child finds its parent's heap start or a lower address in
its record, and no heap top goes around the end of the address space. -/
def Widening (sbrks : Bool) (s : Sys) (a : Event) : Prop :=
  (∀ p c heapbase breakaddr, a = .fork p c heapbase breakaddr →
    heapbase ≤ (s.proc p).as.asHeapbase) ∧
  ∀ p amount, a = .sbrk p amount → sbrks = true ∧
    ∀ old as, (s.proc p).as.moveBreak amount = .ok (old, as) →
      (s.proc p).as.asHeapvtop ≤ as.asHeapvtop

/-- The mapped pages are in the regions, with or without the page at address 0. -/
structure Sys.Covered (sbrks : Bool) (s : Sys) (p : Nat) : Prop where
  pages : ∀ i j, i < 1024 → j < 1024 → isValid (s.pte p i j) = true →
    sbrks = true ∧ i = index1 0#32 ∧ j = index2 0#32 ∨
      ∃ va, i = index1 va ∧ j = index2 va ∧ (s.proc p).as.Has va
  loading : ∀ l, (s.proc p).mode = .loading l → (s.proc p).as.Has l.va

section
variable (hi : SteadyInv exits s) (h : Step s a t) (hok : Steady exits s a)
  (hw : Widening sbrks s a)
include hi h hok hw

theorem SteadyInv.widened (hq : q ∈ s.live) (hm : s.StackMapped q) :
    (s.proc q).as.Widened (t.proc q).as := by
  obtain ⟨call, hcall, hstep⟩ := step_projects h (hi.fresh hq)
  generalize hc' : t.ctx q = c' at hstep
  have has : (t.proc q).as = c'.as := by rw [← hc']; rfl
  rw [has]
  cases hstep with
  | @sbrk amount =>
    rcases (s.ctx q).sysSbrk_cases amount with ⟨_, -, -, hsb⟩ | ⟨-, old, as, hmb, -, hsb⟩
    · exact (SameLayout.of_eq hsb).widened
    have htop := (hw.2 q amount hcall).2 old as hmb
    obtain ⟨_, _, heq⟩ := moveBreak_ok hmb
    rw [hsb]
    refine ⟨by rw [heq]; rfl, by rw [heq]; exact le_refl _, htop, ?_⟩
    rw [heq]
    exact le_refl _
  | @fault ft va rand o ho =>
    obtain ⟨rfl, hmode⟩ := hcall
    rcases Ctx.vmFault_stack ho with ⟨hl, -⟩ | ⟨c₁, rfl, hg, -, hmiss⟩
    · exact hl.widened
    have hdown := hm.down (hi.stackvbase_pos hq hm) hg hmiss
    obtain ⟨-, hm'⟩ := hi.stackStep h hok hq hm
    have hlive : q ∈ t.live := by
      obtain ⟨o, -, rfl⟩ := h.fault_outcome hmode
      rw [settle_live]
      exact hq
    have hpos := (hi.step h hok).1.stackvbase_pos hlive hm'
    have hal := hm'.aligned
    rw [has] at hpos hal
    have hl := hg.layout
    dsimp only [Outcome.ctx] at hpos hal ⊢
    refine ⟨hl.region, by rw [hl.heapbase]; exact le_refl _,
      by rw [hl.heapvtop]; exact le_refl _, ?_⟩
    rw [le_def,
      BitVec.toNat_sub_of_le (BitVec.le_def.mpr (by rw [toNat_pageSizeW]; omega)),
      BitVec.toNat_sub_of_le (BitVec.le_def.mpr (by rw [toNat_pageSizeW]; omega))]
    omega
  | @loaded l r rand => exact (SameLayout.of_eq (Ctx.vmFaultLoaded_same (c := s.ctx q)).1).widened
  | others => exact (SameLayout.refl _).widened

/-- A page that a step maps is in a region, unless `sys_sbrk` maps it. -/
theorem SteadyInv.covered_old (hq : q ∈ s.live) (hm : s.StackMapped q)
    (hc : s.Covered sbrks q) : t.Covered sbrks q := by
  have hwide := hi.widened h hok hw hq hm
  refine ⟨?_, ?_⟩
  · intro i j hi' hj' hv
    have hold : isValid (s.pte q i j) = true →
        sbrks = true ∧ i = index1 0#32 ∧ j = index2 0#32 ∨
          ∃ va, i = index1 va ∧ j = index2 va ∧ (t.proc q).as.Has va := by
      intro hv
      refine (hc.pages i j hi' hj' hv).imp id ?_
      rintro ⟨va, h₁, h₂, hcov⟩
      exact ⟨va, h₁, h₂, hwide.has hcov⟩
    rcases (hi.step h hok).2.mapped q hq i j hi' hj' hv with hs | hcall
    · exact hold hs
    rcases hcall with ⟨rand, ft, va, rfl, hmode, rfl, rfl⟩ | ⟨r, rand, l, rfl, hmode, rfl, rfl⟩ |
      ⟨amount, rfl, rfl, rfl⟩
    · obtain ⟨o, ho, rfl⟩ := h.fault_outcome hmode
      rcases Ctx.vmFault_has ho with ⟨e, rfl⟩ | hcov
      · refine hold ?_
        have hsame : (s.setMode q .faulted).pte q (index1 va) (index2 va)
            = s.pte q (index1 va) (index2 va) := by
          unfold Sys.pte
          rw [pt_setMode]
          rfl
        exact hsame ▸ hv
      · exact .inr ⟨va, rfl, rfl, hwide.has hcov⟩
    · exact .inr ⟨l.va, rfl, rfl, hwide.has (hc.loading l hmode)⟩
    · exact .inl ⟨(hw.2 q amount rfl).1, rfl, rfl⟩
  · intro l hmode
    rcases h.loading (hi.fresh hq) hmode with hold | ⟨rand, ft, va, c, rfl, hm', ho⟩
    · exact hwide.has (hc.loading l hold)
    rcases Ctx.vmFault_has ho with ⟨e, hne⟩ | hcov
    · cases hne
    · rw [← Ctx.vmFault_loading ho] at hcov
      exact hwide.has hcov

end

/-- The steps of the runs below. -/
def RegionStep (exits sbrks : Bool) (s : Sys) (a : Event) : Prop :=
  SteadyStart exits s a ∧ Widening sbrks s a

theorem SteadyInv.covered_step (hi : SteadyInv exits s)
    (hs : ∀ p, p ∈ s.live → s.StackReady p ∧ s.Covered sbrks p) (h : Step s a t)
    (hok : RegionStep exits sbrks s a) : ∀ q, q ∈ t.live → t.Covered sbrks q := by
  intro q hq
  by_cases hold : q ∈ s.live
  · obtain ⟨hr, hc⟩ := hs q hold
    exact hi.covered_old h hok.1.1 hok.2 hold hr.mapped hc
  rcases h.added hq hold with ⟨p, heapbase, breakaddr, rfl⟩ | ⟨as, args, rfl⟩
  · obtain ⟨hp, table, hchild⟩ := h.forked
    have hwide : (s.proc p).as.Widened (t.proc q).as := by
      rw [hchild]
      exact ⟨rfl, hok.2.1 p q heapbase breakaddr rfl, le_refl _, le_refl _⟩
    refine ⟨?_, ?_⟩
    · intro i j hi' hj' hv
      rw [(hi.step h hok.1.1).2.child p q heapbase breakaddr rfl i j hi' hj'] at hv
      refine ((hs p hp).2.pages i j hi' hj' hv).imp id ?_
      rintro ⟨va, h₁, h₂, hcov⟩
      exact ⟨va, h₁, h₂, hwide.has hcov⟩
    · intro l hmode
      rw [hchild] at hmode
      cases hmode
  · have hproc := h.started
    have htable : t.pt q = 0#32 := by
      cases h with
      | start has _ => simpa [Sys.pt] using has
    refine ⟨?_, ?_⟩
    · intro i j hi' hj' hv
      exact ((word_ne_zero_of_valid hv).1 htable).elim
    · intro l hmode
      rw [hproc] at hmode
      cases hmode

/-- In a run that keeps the regions from shrinking every mapped page is in a region of `vm_fault`,
except the page at address 0 if the run has a call of `sys_sbrk`. -/
theorem mapped_page_in_region
    (h : Lts.Reachable Init (Lts.Restrict Step (RegionStep exits sbrks)) s) (hp : p ∈ s.live)
    (hlt : i < 1024) (hlt' : j < 1024) (hv : isValid (s.pte p i j) = true) :
    sbrks = true ∧ i = index1 0#32 ∧ j = index2 0#32 ∨
      ∃ va region, i = index1 va ∧ j = index2 va ∧
        (s.proc p).as.mappedRegion va = .ok (some region) := by
  have hinv : SteadyInv exits s ∧ ∀ p, p ∈ s.live → s.StackReady p ∧ s.Covered sbrks p := by
    refine Lts.Reachable.invariant
      (fun s => SteadyInv exits s ∧ ∀ p, p ∈ s.live → s.StackReady p ∧ s.Covered sbrks p) ?_ ?_ h
    · intro s hs
      exact ⟨steadyInv_initial exits hs, hs.forall_live⟩
    rintro s a t ⟨hst, hok⟩ ⟨hi, hs⟩
    have hready := hi.stackReady_step (fun p hp => (hs p hp).1) hst hok.1
    have hcov := hi.covered_step hs hst hok
    exact ⟨(hi.step hst hok.1.1).1, fun p hp => ⟨hready p hp, hcov p hp⟩⟩
  refine ((hinv.2 p hp).2.pages i j hlt hlt' hv).imp id ?_
  rintro ⟨va, h₁, h₂, region, hr⟩
  exact ⟨va, region, h₁, h₂, hr⟩

namespace OnePage

theorem regionReachable_mapped (sbrks : Bool) :
    Lts.Reachable Init (Lts.Restrict Step (RegionStep false sbrks)) mapped := by
  have hstart : RegionStep false sbrks boot (.start 0 program none) :=
    ⟨⟨by simp [Steady], startsEmpty_runprogram runprogram_image none⟩, by simp [Widening]⟩
  refine mapped_reachable (running_reachable hstart ?_) ?_ ?_ <;>
    simp [RegionStep, SteadyStart, Steady, StartsEmpty, Widening]

theorem mapped_page_in_region_stack : isValid (mapped.pte 0 511 1023) = true ∧
    ∃ va region, 511 = index1 va ∧ 1023 = index2 va ∧
      (mapped.proc 0).as.mappedRegion va = .ok (some region) := by
  have hv : isValid (mapped.pte 0 511 1023) = true := rfl
  refine ⟨hv, ?_⟩
  have h := mapped_page_in_region (regionReachable_mapped false) (by decide) (by decide)
    (by decide) hv
  exact h.resolve_left (by simp)

/-- The first `sys_sbrk` of a program maps the page at address 0, which is in none of its
regions. -/
theorem sbrk_maps_page_zero :
    image.runprogram program ⟨0, 0, 0, 0, 0⟩ 1 = .ok program ∧
    Lts.Run Step boot
      [.start 0 program none, .switch (some 0), .trap 0 .write stackVa, .fault 0 0, .sbrk 0 0#32]
      (mapped.put 0 ((mapped.ctx 0).sysSbrk 0#32).2 .user) ∧
    isValid ((mapped.put 0 ((mapped.ctx 0).sysSbrk 0#32).2 .user).pte 0 0 0) = true ∧
    ∀ va, va.toNat < 4096 →
      ((mapped.put 0 ((mapped.ctx 0).sysSbrk 0#32).2 .user).proc 0).as.mappedRegion va
        = .ok none := by
  have hfault := step_afterFault running 0 .write stackVa true ⟨rfl, by decide, rfl⟩ (by decide)
    rfl rfl
  have hsbrk : Step mapped (.sbrk 0 0#32) _ := .sbrk ⟨rfl, by decide, rfl⟩ (by decide)
  refine ⟨runprogram_image, ?_, rfl, ?_⟩
  · exact .head (@Step.start boot program none rfl (by decide)) <|
      .head (Step.switch (q := some 0) (by simp [boot])) <| .head hfault.1 <| .head hfault.2 <|
      .single hsbrk
  intro va hva
  have hlow : ∀ x : Word, 4096 ≤ x.toNat → ¬ x ≤ va := by
    intro x hx hle
    rw [le_def] at hle
    omega
  generalize has : ((mapped.put 0 ((mapped.ctx 0).sysSbrk 0#32).2 .user).proc 0).as = as
  have hreg : as.asRegion = program.asRegion := by rw [← has]; rfl
  have hheap : as.asHeapbase = 0x10001000#32 := by rw [← has]; rfl
  have hstack : as.asStackvbase - pageSizeW = 0x7fffe000#32 := by rw [← has]; rfl
  obtain ⟨r, hr⟩ := AddrSpace.mappedRegion_ok.mpr
    (show 2 ≤ as.asRegion.length by rw [hreg]; decide)
  cases r with
  | none => exact hr
  | some region =>
    obtain ⟨r₀, r₁, rest, heq, hin⟩ := AddrSpace.has_iff.mp ⟨region, hr⟩
    rw [hreg] at heq
    cases heq
    rw [hheap, hstack] at hin
    rcases hin with h | h | h | h <;> exact (hlow _ (by decide) h.1).elim

end OnePage

end OS161
