import OS161.Vm.Refcount

/-! The TLB agrees with the page table of the process that runs. -/
namespace OS161

open Machine
open Function (update)

variable {s : Sys} {p : Nat}

/-- The entry of the running process for the page of a TLB slot. -/
def Sys.slotPte (s : Sys) (p : Nat) (i : Fin 64) : Word :=
  s.pte p (index1 (s.tlb i).hi) (index2 (s.tlb i).hi)

/-- What the TLB must be like for `p` to run. -/
structure TlbConsistent (s : Sys) (p : Nat) : Prop where
  frame : ∀ i, isValid (s.tlb i).lo = true → (s.tlb i).hi.toNat < 2147483648 →
    isValid (s.slotPte p i) = true ∧ ppage (s.tlb i).lo = ppage (s.slotPte p i)
  unique : ∀ i j, (s.tlb i).hi = (s.tlb j).hi → i = j
  dirty : ∀ i, isDirty (s.tlb i).lo = true → isValid (s.slotPte p i) = true ∧
    isDirty (s.slotPte p i) = true ∧ isReadonly (s.slotPte p i) = false

/-- Whenever a process can execute in user mode, the TLB is consistent with its page table, in
every run in which a frame is left for each copy-on-write. -/
theorem tlb_consistent (h : Reachable s) (hr : s.Runs p) : TlbConsistent s p := by
  obtain ⟨own, hi⟩ := inv_reachable h
  obtain ⟨_, hinj, hbacks, hunused⟩ := (hi.tlb p hr.1).1
  refine ⟨?_, fun i j hij => hinj hij, ?_⟩
  · intro i hv _
    exact ⟨(hbacks i hv).valid, (hbacks i hv).frame⟩
  intro i hd
  cases hv : isValid (s.tlb i).lo with
  | true => exact ⟨(hbacks i hv).valid, (hbacks i hv).dirty hd⟩
  | false =>
    rw [(hunused i hv).2] at hd
    cases hd

namespace OnePage

theorem tlb_consistent_forked : TlbConsistent forked 0 :=
  tlb_consistent reachable_forked ⟨rfl, by decide, rfl⟩

def heapVa : Vaddr := 0x10001000#32

def grown : Sys := afterFault forked 0 .write 0x7fffeffc#32

def childMapped : Sys := afterFault (switched grown 1) 1 .write stackVa

def childDenied : Sys := afterFault childMapped 1 .readonly stackVa

def released : Machine := releaseEntry 0x80005000#32 1023 childDenied.mach

def destroyed : Machine := (released.kfreePage 0x80005000#32).kfreePage table

def childGone : Sys := { childDenied with mach := destroyed, live := {0}, cur := none }

def heapMapped : Sys := afterFault (switched childGone 0) 0 .read heapVa

def stackAgain : Sys := afterFault heapMapped 0 .write stackVa

def clobbered : Sys :=
  { stackAgain with mach := stackAgain.mach.setUserWord 0x3600#32 stackVa 0#32 }

theorem ptDeepDestroy_child : childDenied.mach.ptDeepDestroy table = destroyed := by
  have hdir : childDenied.mach.word table = update zeroPage 511 0x5000#32 := rfl
  have hdir' : (released.kfreePage 0x80005000#32).word table
      = update zeroPage 511 0x5000#32 := rfl
  have hsecond : ∀ k, k ≠ 1023 → childDenied.mach.word 0x80005000#32 k = 0#32 ∧
      released.word 0x80005000#32 k = 0#32 := by
    intro k hk
    have h : childDenied.mach.word 0x80005000#32
        = update (update zeroPage 1023 0x3600#32) 1023 0x3601#32 := rfl
    have h' : released.word 0x80005000#32
        = update (update zeroPage 1023 0x3600#32) 1023 0x3601#32 := rfl
    rw [Function.update_idem] at h h'
    exact ⟨word_of_update h hk, word_of_update h' hk⟩
  have hin : Loop.upTo (releaseEntry 0x80005000#32) 1024 childDenied.mach = released := by
    refine Loop.upTo_single (by decide : 1023 < 1024) ?_ ?_
    · intro k _ hk
      simp [releaseEntry, (hsecond k hk).1]
    · intro k _ hk
      rw [releaseEntry, ← released, (hsecond k hk).2]
      simp
  have hbody : (if childDenied.mach.word table 511 ≠ 0#32 then
      (Loop.upTo (releaseEntry (paddrToKvaddr (childDenied.mach.word table 511))) 1024
        childDenied.mach).kfreePage (paddrToKvaddr (childDenied.mach.word table 511))
      else childDenied.mach) = released.kfreePage 0x80005000#32 := by
    exact congrArg (fun m : Machine => m.kfreePage 0x80005000#32) hin
  unfold ptDeepDestroy
  rw [Loop.upTo_single (by decide : 511 < 1024) ?_ ?_]
  · rw [hbody, destroyed]
  · intro k _ hk
    rw [word_of_update hdir hk]
    simp
  · intro k _ hk
    rw [hbody, word_of_update hdir' hk]
    simp

theorem step_exit_child : Step childDenied (.exit 1) childGone := by
  have h : Step childDenied (.exit 1) _ := .exit rfl (by decide) (.inr rfl)
  have hpt : childDenied.pt 1 = table := rfl
  have hlive : childDenied.live.erase 1 = {0} := by decide
  rw [hpt, if_neg (by decide), ptDeepDestroy_child, hlive] at h
  exact h

theorem run_clobbered : Lts.Reachable Init Step clobbered := by
  obtain ⟨s₀, es, h₀, hrun⟩ := reachable_forked
  have h : Lts.Reachable Init Step forked := ⟨s₀, es, h₀, hrun.mono fun _ _ _ h => h.1⟩
  obtain ⟨h₁, h₂⟩ := step_afterFault forked 0 .write 0x7fffeffc#32 true ⟨rfl, by decide, rfl⟩
    (by decide) rfl rfl
  have h := ((h.next h₁).next h₂).next (Step.switch (q := some 1) (by decide))
  obtain ⟨h₁, h₂⟩ := step_afterFault (switched grown 1) 1 .write stackVa true
    ⟨rfl, by decide, rfl⟩ (by decide) rfl rfl
  have h := (h.next h₁).next h₂
  obtain ⟨h₁, h₂⟩ := step_afterFault childMapped 1 .readonly stackVa true
    ⟨rfl, by decide, rfl⟩ (by decide) rfl rfl
  have h := (((h.next h₁).next h₂).next step_exit_child).next
    (Step.switch (q := some 0) (by decide))
  obtain ⟨h₁, h₂⟩ := step_afterFault (switched childGone 0) 0 .read heapVa false
    ⟨rfl, by decide, rfl⟩ (by decide) rfl rfl
  have h := (h.next h₁).next h₂
  obtain ⟨h₁, h₂⟩ := step_afterFault heapMapped 0 .write stackVa true
    ⟨rfl, by decide, rfl⟩ (by decide) rfl rfl
  exact ((h.next h₁).next h₂).next (Step.store ⟨rfl, by decide, rfl⟩ (by decide) rfl)

/-- After a copy-on-write has run out of memory, the parent runs with a TLB entry for a page it no
longer maps. -/
theorem tlb_inconsistent_without_memory : Lts.Reachable Init Step clobbered ∧
    clobbered.Runs 0 ∧ ¬ TlbConsistent clobbered 0 := by
  refine ⟨run_clobbered, ⟨rfl, by decide, rfl⟩, ?_⟩
  intro h
  have hv : isValid (clobbered.slotPte 0 0) = true :=
    (h.frame 0 (by decide +kernel) (by decide +kernel)).1
  revert hv
  decide +kernel

end OnePage

end OS161
