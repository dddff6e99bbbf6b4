import OS161.Vm.CopyOnWrite
import OS161.Vm.Evolve
import OS161.Vm.Layout

/-! A copy-on-write that finds no memory drops a count; a count matters again at an exit. -/
namespace OS161

open Machine
open Function (update_self update_of_ne)

/-- A change of the counts, frame by frame. -/
abbrev Recount := Nat → BitVec 8 → BitVec 8

/-- It goes on counting from wherever it started. -/
def Recount.Shifts (u : Recount) : Prop := ∀ f n, u f (n + 1) = u f n + 1

/-- The coremap with the count of every frame `f` changed by `u f`. -/
def Coremap.recount (c : Coremap) (u : Recount) : Coremap :=
  { c with
    entries := fun f => { c.entries f with shared := u f (c.entries f).shared } }

def Machine.recount (m : Machine) (u : Recount) : Machine :=
  { m with coremap := m.coremap.recount u }

def Ctx.recount (c : Ctx) (u : Recount) : Ctx := { c with mach := c.mach.recount u }

def Outcome.recount (u : Recount) : Outcome → Outcome
  | .done c => .done (c.recount u)
  | .failed e c => .failed e (c.recount u)
  | .loading l c => .loading l (c.recount u)

def Sys.recount (s : Sys) (u : Recount) : Sys :=
  { s with mach := s.mach.recount u }

variable {c : Coremap} {m : Machine} {k : Ctx} {s t : Sys} (u : Recount)

namespace Coremap

theorem freeRun_recount (i n : Nat) : (c.recount u).freeRun i n = c.freeRun i n := by
  induction n generalizing i with
  | zero => rfl
  | succ n ih =>
    rw [freeRun, freeRun, ih]
    rfl

theorem search_recount (n fuel i : Nat) : (c.recount u).search n fuel i = c.search n fuel i := by
  induction fuel generalizing i with
  | zero => rfl
  | succ fuel ih =>
    rw [search, search, freeRun_recount, ih]
    rfl

theorem markBlock_recount (i n : Nat) :
    (c.recount u).markBlock i n = (c.markBlock i n).recount u := by
  simp only [markBlock, recount, Coremap.mk.injEq, and_true]
  funext f
  split <;> rfl

theorem allocateFrame_recount (n : Nat) : (c.recount u).allocateFrame n =
    ((c.allocateFrame n).1, (c.allocateFrame n).2.recount u) := by
  have hun : (c.recount u).unallocatedFrame = c.unallocatedFrame := rfl
  have hsz : (c.recount u).size = c.size := rfl
  simp only [allocateFrame, search_recount, hun, hsz, markBlock_recount]
  by_cases hn : (n : Int) > c.unallocatedFrame
  · rw [if_pos hn, if_pos hn]
  · rw [if_neg hn, if_neg hn]
    cases c.search n (c.size + 1) 0 <;> rfl

theorem setShared_recount (i : Nat) (n : BitVec 8) :
    (c.recount u).setShared i (u i n) = (c.setShared i n).recount u := by
  simp only [setShared, recount, Coremap.mk.injEq, and_true]
  funext f
  by_cases hf : f = i
  · subst hf
    simp
  · simp [update_of_ne hf]

theorem increfcount_recount (hu : u.Shifts) (pa : Paddr) :
    (c.recount u).increfcount pa = (c.increfcount pa).recount u := by
  have h := setShared_recount (c := c) u (c.frameIndex pa)
    ((c.entries (c.frameIndex pa)).shared + 1)
  rw [hu] at h
  exact h

theorem decrefcount_recount (hu : u.Shifts) (pa : Paddr) :
    (c.recount u).decrefcount pa = (c.decrefcount pa).recount u := by
  have hshift : ∀ f n, u f (n - 1) = u f n - 1 := by
    intro f n
    have h := hu f (n - 1)
    rw [BitVec.sub_add_cancel] at h
    rw [h, BitVec.add_sub_cancel]
  have h := setShared_recount (c := c) u (c.frameIndex pa)
    ((c.entries (c.frameIndex pa)).shared - 1)
  rw [hshift] at h
  exact h

end Coremap

namespace Machine

theorem kmallocPage_recount :
    (m.recount u).kmallocPage = (m.kmallocPage.1, m.kmallocPage.2.recount u) := by
  have h := Coremap.allocateFrame_recount (c := m.coremap) u 1
  simp only [kmallocPage, recount, h]
  obtain ⟨r, c⟩ := m.coremap.allocateFrame 1
  cases r <;> rfl

theorem kmallocZeroed_recount :
    (m.recount u).kmallocZeroed = (m.kmallocZeroed.1, m.kmallocZeroed.2.recount u) := by
  simp only [kmallocZeroed, kmallocPage_recount]
  obtain ⟨r, m₁⟩ := m.kmallocPage
  cases r <;> rfl

/-- A copy-on-write that finds the same answer about sharing. -/
theorem ptCopyOnWrite_recount (hu : u.Shifts) {ptp va : Vaddr}
    (hsh : (m.recount u).coremap.isShared
        (ppage (m.word (paddrToKvaddr (m.word ptp (index1 va))) (index2 va)))
      = m.coremap.isShared (ppage (m.word (paddrToKvaddr (m.word ptp (index1 va))) (index2 va)))) :
    (m.recount u).ptCopyOnWrite ptp va =
      ((m.ptCopyOnWrite ptp va).1, (m.ptCopyOnWrite ptp va).2.recount u) := by
  have hw : ∀ pt i, (m.recount u).word pt i = m.word pt i := fun _ _ => rfl
  simp only [ptCopyOnWrite, hw, hsh]
  generalize m.word (paddrToKvaddr (m.word ptp (index1 va))) (index2 va) = e
  split
  · have hdec : (m.recount u).decrefcount (ppage e) = (m.decrefcount (ppage e)).recount u := by
      simp only [decrefcount, recount]
      rw [Coremap.decrefcount_recount u hu]
    rw [hdec, kmallocPage_recount]
    obtain ⟨r, m₁⟩ := (m.decrefcount (ppage e)).kmallocPage
    cases r <;> rfl
  · rfl

theorem ptCopyEntry_recount (oldPt newPt : Vaddr) (i : Nat) (m : Machine) :
    ptCopyEntry oldPt newPt i (m.recount u) = (ptCopyEntry oldPt newPt i m).map (·.recount u) := by
  have hw : (m.recount u).word oldPt i = m.word oldPt i := rfl
  simp only [ptCopyEntry, kmallocPage_recount, hw]
  split
  · rfl
  · obtain ⟨r, m₁⟩ := m.kmallocPage
    cases r <;> rfl

theorem ptCopy_recount (oldPt : Vaddr) : (m.recount u).ptCopy oldPt =
    (m.ptCopy oldPt).map fun r => (r.1, r.2.recount u) := by
  simp only [ptCopy, kmallocPage_recount]
  obtain ⟨r, m₁⟩ := m.kmallocPage
  cases r with
  | none => rfl
  | some newPt =>
    have hloop := Loop.tryUpTo_map (n := 1024) (s := m₁.setPage newPt zeroPage) (·.recount u)
      (ptCopyEntry_recount u oldPt newPt)
    have hset : (m₁.recount u).setPage newPt zeroPage
        = (m₁.setPage newPt zeroPage).recount u := rfl
    simp only [hset, hloop]
    cases Loop.tryUpTo (ptCopyEntry oldPt newPt) 1024 (m₁.setPage newPt zeroPage) <;> rfl

theorem makeReadonlyEntry_recount (hu : u.Shifts) (second : Vaddr) (b : Bool) (j : Nat)
    (m : Machine) :
    makeReadonlyEntry second b j (m.recount u) = (makeReadonlyEntry second b j m).recount u := by
  have hw : (m.recount u).word second j = m.word second j := rfl
  simp only [makeReadonlyEntry, hw]
  split
  · cases b with
    | false => rfl
    | true =>
      simp only [Bool.not_true, Bool.false_eq_true, if_false, if_true, increfcount, recount]
      rw [← Coremap.increfcount_recount u hu]
      rfl
  · rfl

theorem makeReadonly_recount (hu : u.Shifts) (pt : Vaddr) (b : Bool) :
    (m.recount u).makeReadonly pt b = (m.makeReadonly pt b).recount u := by
  rw [makeReadonly, makeReadonly]
  rw [Loop.upTo_map fun m : Machine => m.recount u]
  intro i m
  have hw : (m.recount u).word pt i = m.word pt i := rfl
  rw [hw]
  split
  · rw [Loop.upTo_map fun m : Machine => m.recount u]
    exact makeReadonlyEntry_recount u hu _ b
  · rfl

end Machine

namespace Ctx

theorem ensureTable_recount : (k.recount u).ensureTable = k.ensureTable.map (·.recount u) := by
  simp only [ensureTable, recount, ptCreate, kmallocZeroed_recount]
  split
  · obtain ⟨r, m₁⟩ := k.mach.kmallocZeroed
    cases r <;> rfl
  · rfl

theorem ensureSecond_recount (va : Vaddr) (lookup : Lookup) :
    (k.recount u).ensureSecond va lookup = (k.ensureSecond va lookup).map (·.recount u) := by
  simp only [ensureSecond, recount, kmallocZeroed_recount]
  split
  · obtain ⟨r, m₁⟩ := k.mach.kmallocZeroed
    cases r <;> rfl
  · rfl

theorem startLoad_recount (r : Region) (va : Vaddr) :
    (k.recount u).startLoad r va = (k.startLoad r va).recount u := by
  simp only [startLoad, recount, kmallocZeroed_recount]
  obtain ⟨r, m₁⟩ := k.mach.kmallocZeroed
  cases r <;> rfl

theorem growHeap_recount (va : Vaddr) (rand : Nat) :
    (k.recount u).growHeap va rand = (k.growHeap va rand).recount u := by
  simp only [growHeap, recount, kmallocZeroed_recount]
  obtain ⟨r, m₁⟩ := k.mach.kmallocZeroed
  cases r <;> rfl

theorem growStack_recount (va : Vaddr) (rand : Nat) :
    (k.recount u).growStack va rand = (k.growStack va rand).recount u := by
  simp only [growStack, recount, kmallocZeroed_recount]
  obtain ⟨r, m₁⟩ := k.mach.kmallocZeroed
  cases r with
  | none => rfl
  | some frame => cases k.args <;> rfl

theorem mapMissing_recount (va : Vaddr) (rand : Nat) (region : Mapping) (lookup : Lookup) :
    (k.recount u).mapMissing va rand region lookup =
      (k.mapMissing va rand region lookup).recount u := by
  simp only [mapMissing, ensureSecond_recount]
  cases k.ensureSecond va lookup with
  | none => rfl
  | some k₁ =>
    cases region with
    | code | data => exact startLoad_recount u _ va
    | heap => exact growHeap_recount u va rand
    | stack => exact growStack_recount u va rand

theorem access_recount (va : Vaddr) (ft : FaultType) (rand : Nat) (region : Mapping) :
    (k.recount u).access va ft rand region = (k.access va ft rand region).recount u := by
  have hl : (k.recount u).mach.ptLookup (k.recount u).as.pageTable va ft
      = k.mach.ptLookup k.as.pageTable va ft := rfl
  simp only [access, hl]
  split
  · rfl
  · exact mapMissing_recount u va rand region _

/-- Only a modify trap looks at the counts. -/
theorem vmFault_recount {ft : FaultType} (hft : ft ≠ .readonly) (va : Vaddr) (rand : Nat) :
    (k.recount u).vmFault ft va rand = (k.vmFault ft va rand).map (·.recount u) := by
  have has : (k.recount u).as = k.as := rfl
  simp only [vmFault, has, ensureTable_recount, bind, Except.bind, pure, Except.pure]
  cases k.as.checkSetup with
  | error e => rfl
  | ok _ =>
    cases k.as.mappedRegion va with
    | error e => rfl
    | ok r =>
      cases r with
      | none => rfl
      | some region =>
        cases k.ensureTable with
        | none => rfl
        | some k₁ =>
          cases ft with
          | readonly => exact (hft rfl).elim
          | read => exact congrArg _ (access_recount u va .read rand region)
          | write => exact congrArg _ (access_recount u va .write rand region)

theorem vmFaultLoaded_recount (l : Load) (r : ReadResult) (rand : Nat) :
    (k.recount u).vmFaultLoaded l r rand = (k.vmFaultLoaded l r rand).recount u := by
  simp only [vmFaultLoaded]
  cases r.result with
  | some e => rfl
  | none =>
    dsimp only
    split <;> rfl

theorem mapZeroed_recount (va : Vaddr) (flags : Word) : (k.recount u).mapZeroed va flags =
    ((k.mapZeroed va flags).1, (k.mapZeroed va flags).2.recount u) := by
  simp only [mapZeroed, recount, kmallocZeroed_recount]
  obtain ⟨r, m₁⟩ := k.mach.kmallocZeroed
  cases r <;> rfl

theorem mapZero_recount : (k.recount u).mapZero = (k.mapZero.1, k.mapZero.2.recount u) := by
  have hl : (k.recount u).mach.ptLookup (k.recount u).as.pageTable 0#32 .write
      = k.mach.ptLookup k.as.pageTable 0#32 .write := rfl
  simp only [mapZero, hl, ensureSecond_recount]
  split
  · exact mapZeroed_recount u _ _
  · cases k.ensureSecond 0#32 .noSecondLevelPt with
    | none => rfl
    | some k₁ => exact mapZeroed_recount u _ _
  · rfl

theorem sysSbrk_recount (amount : Word) : (k.recount u).sysSbrk amount =
    ((k.sysSbrk amount).1, (k.sysSbrk amount).2.recount u) := by
  simp only [sysSbrk, mapZero_recount]
  obtain ⟨r, k₁⟩ := k.mapZero
  cases r with
  | error e => rfl
  | ok _ =>
    have has : (k₁.recount u).as = k₁.as := rfl
    simp only [has]
    cases k₁.as.moveBreak amount <;> rfl

end Ctx

theorem Sys.settle_recount (p : Nat) (o : Outcome) :
    (s.settle p o).recount u = (s.recount u).settle p (o.recount u) := by
  cases o <;> rfl

theorem step_recount {a : Event} (h : Step s a t)
    (hu : (∃ p c heapbase breakaddr, a = .fork p c heapbase breakaddr) → u.Shifts)
    (hexit : ∀ p, a ≠ .exit p)
    (hmod : ∀ p rand va, a = .fault p rand → (s.proc p).mode ≠ .trapped .readonly va) :
    Step (s.recount u) a (t.recount u) := by
  cases h with
  | switch hq => exact .switch hq
  | load hr hva he => exact .load hr hva he
  | store hr hva he => exact .store hr hva he
  | trap hr hva he => exact .trap hr hva he
  | @fault p rand va ft o hc hl hm ho =>
    have hft : ft ≠ .readonly := by
      rintro rfl
      exact hmod p rand va rfl hm
    rw [Sys.settle_recount]
    refine .fault hc hl hm ?_
    show ((s.ctx p).recount u).vmFault ft va rand = _
    rw [Ctx.vmFault_recount u hft, ho]
    rfl
  | @loaded p rand l r hc hl hm =>
    rw [Sys.settle_recount, ← Ctx.vmFaultLoaded_recount]
    exact .loaded hc hl hm
  | copyfail hc hl hm => exact .copyfail hc hl hm
  | @fork p m table heapbase breakaddr hr hpt hcard hm =>
    have hcopy : (s.recount u).mach.ptCopy ((s.recount u).pt p)
        = .ok (some table, m.recount u) := by
      show (s.mach.recount u).ptCopy (s.pt p) = _
      rw [ptCopy_recount, hm]
      rfl
    have hstep : Step (s.recount u) _ _ :=
      @Step.fork _ _ _ _ heapbase breakaddr hr hpt hcard hcopy
    have hsame : (s.recount u).pt p = s.pt p := rfl
    have hu := hu ⟨p, s.next, heapbase, breakaddr, rfl⟩
    rw [hsame, makeReadonly_recount u hu, makeReadonly_recount u hu] at hstep
    generalize (m.makeReadonly (s.pt p) false).makeReadonly table true = m₂ at hstep ⊢
    exact hstep
  | @forkFailed p m table hr hpt hm =>
    refine @Step.forkFailed _ _ _ table hr hpt ?_
    show (s.mach.recount u).ptCopy (s.pt p) = _
    rw [ptCopy_recount, hm]
    rfl
  | @sbrk p amount hr hpt =>
    have hstep : Step (s.recount u) _ _ := @Step.sbrk _ _ amount hr hpt
    have hctx : (s.recount u).ctx p = (s.ctx p).recount u := rfl
    rw [hctx, Ctx.sysSbrk_recount] at hstep
    exact hstep
  | exit hc hl hm => exact (hexit _ rfl).elim
  | start has hcard => exact .start has hcard

theorem Step.unique {a : Event} {t' : Sys} (h : Step s a t) (h' : Step s a t') : t = t' := by
  cases h with
  | switch | trap | copyfail | sbrk | exit | start => cases h'; rfl
  | @load p va e _ _ _ =>
    generalize s.mach.userWord e va = w at h'
    cases h'
    rfl
  | store _ _ he =>
    cases h' with
    | store _ _ he' =>
      cases he.symm.trans he'
      rfl
  | fault _ _ hm ho =>
    cases h' with
    | fault _ _ hm' ho' =>
      cases hm.symm.trans hm'
      cases ho.symm.trans ho'
      rfl
  | loaded _ _ hm =>
    cases h' with
    | loaded _ _ hm' =>
      cases hm.symm.trans hm'
      rfl
  | fork _ _ _ hm =>
    cases h' with
    | fork _ _ _ hm' =>
      cases hm.symm.trans hm'
      rfl
  | forkFailed _ _ hm =>
    cases h' with
    | forkFailed _ _ hm' =>
      cases hm.symm.trans hm'
      rfl

theorem Sys.recount_self (s : Sys) : (s.recount fun f _ => (s.mach.coremap.entries f).shared) = s :=
  rfl

/-- Apart from a fork, a copy-on-write and an exit no step touches a count. -/
theorem step_shared {a : Event} (h : Step s a t)
    (hfork : ∀ p c heapbase breakaddr, a ≠ .fork p c heapbase breakaddr) (hexit : ∀ p, a ≠ .exit p)
    (hmod : ∀ p rand va, a = .fault p rand → (s.proc p).mode ≠ .trapped .readonly va) (f : Nat) :
    (t.mach.coremap.entries f).shared = (s.mach.coremap.entries f).shared := by
  have hstep := step_recount (fun f _ => (s.mach.coremap.entries f).shared) h ?_ hexit hmod
  · rw [Sys.recount_self] at hstep
    rw [h.unique hstep]
    rfl
  · rintro ⟨p, c, heapbase, breakaddr, ha⟩
    exact (hfork p c heapbase breakaddr ha).elim

theorem Machine.ptCopy_shared {ptp : Vaddr} {r : Option Vaddr} {m' : Machine}
    (h : m.ptCopy ptp = .ok (r, m')) (f : Nat) :
    (m'.coremap.entries f).shared = (m.coremap.entries f).shared := by
  have hcopy := ptCopy_recount (m := m) (fun f _ => (m.coremap.entries f).shared) ptp
  have hself : (m.recount fun f _ => (m.coremap.entries f).shared) = m := rfl
  rw [hself, h] at hcopy
  have hm' : m' = m'.recount fun f _ => (m.coremap.entries f).shared := by
    injection hcopy with hcopy
    injection hcopy
  rw [hm']
  rfl

/-- A fork counts at most one more reference to a frame, which then had fewer than there are
processes. -/
theorem Owned.fork_shared {live : Finset Nat} {pt : Nat → Vaddr} {own : Nat → Owner}
    {p c f : Nat} {va : Vaddr} {m₁ : Machine} (h : Owned live pt own m) (hp : p ∈ live)
    (hz : pt p ≠ 0#32) (hc : c ∉ live) (hk : m.ptCopy (pt p) = .ok (some va, m₁)) :
    ((m₁.makeReadonly va true).coremap.entries f).shared = (m.coremap.entries f).shared ∨
      ((m₁.makeReadonly va true).coremap.entries f).shared = (m.coremap.entries f).shared + 1 ∧
        (m.coremap.entries f).shared.toNat + 1 ≤ live.card := by
  obtain ⟨own', ho, hext, hva, htab, hent⟩ := h.ptCopy hp hz hc hk
  have hmap := h.mapsOwned_copy hp ho hext hent
  have hM := marked_makeReadonly htab hva hmap ho.inside fun f i j hf => (ho.user_lt hf).2
  generalize m₁.makeReadonly va true = m₂ at hM ⊢
  have hshared := ptCopy_shared hk f
  by_cases hu : ∃ i j, own' f = .user i j
  · obtain ⟨i, j, hu⟩ := hu
    rw [hM.visited.user f i j hu, ← hshared]
    split
    · rename_i hcond
      obtain ⟨-, hv, hpp⟩ := hcond
      obtain ⟨hi, hj⟩ := ho.user_lt hu
      have hf : f < m.coremap.size := hext.frames.size ▸ ho.inside f (by simp [hu])
      rw [hent i j hi] at hv hpp
      rw [hext.frames.frameAddr] at hpp
      obtain ⟨g, hg, hgo⟩ := h.mapped p hp i j hi hj hv
      obtain rfl := (Coremap.frameAddr_inj hf (h.inside g (by simp [hgo]))).mp (hpp.symm.trans hg)
      have hok := h.frames f hf
      rw [hgo] at hok
      obtain ⟨-, -, -, -, hcount⟩ := hok
      refine .inr ⟨rfl, ?_⟩
      rw [hshared, hcount]
      exact Finset.card_filter_le _ _
    · exact .inl rfl
  · have hother := hM.other f fun i j hij => hu ⟨i, j, hij⟩
    rw [hother]
    exact .inl hshared

/-- The counts with what was lost put back. -/
def putBack (lost : Nat → BitVec 8) : Recount := fun f n => n + lost f

theorem putBack_shifts (lost : Nat → BitVec 8) : (putBack lost).Shifts := by
  intro f n
  simp only [putBack]
  rw [BitVec.add_assoc, BitVec.add_comm 1, ← BitVec.add_assoc]

/-- The system with its counts put right keeps the invariant, and no count is so low that putting
it right would overflow it. -/
structure LostInv (lost : Nat → BitVec 8) (own : Nat → Owner) (s : Sys) : Prop where
  inv : Inv own (s.recount (putBack lost))
  fits : ∀ f, (s.mach.coremap.entries f).shared.toNat + (lost f).toNat < 256

section
variable {lost : Nat → BitVec 8} {own : Nat → Owner} {a : Event} {p q : Nat}

theorem Evolves.of_recount {u : Recount} (h : Evolves (s.recount u) a (t.recount u))
    (hmod : ∀ p rand va, a = .fault p rand → (s.proc p).mode ≠ .trapped .readonly va) :
    Evolves s a t := by
  refine ⟨h.kept, h.mapped, h.child, ?_⟩
  intro q rand ft va c ha hm ho
  refine h.done q rand ft va (c.recount u) ha hm ?_
  show ((s.ctx q).recount u).vmFault ft va rand = _
  rw [Ctx.vmFault_recount u ?_, ho]
  · rfl
  · rintro rfl
    exact hmod q rand va ha hm

variable (hi : LostInv lost own s)
include hi

omit hi in
theorem fits_of_shared {n n' l : BitVec 8} {k : Nat} (hfit : n.toNat + l.toNat < 256) (hk : k < 200)
    (h : n' + l = n + l ∨ n' + l = n + l + 1 ∧ (n + l).toNat + 1 ≤ k) :
    n'.toNat + l.toNat < 256 := by
  have h1 : (1 : BitVec 8).toNat = 1 := rfl
  have hlt := n'.isLt
  rcases h with hsame | ⟨hone, hle⟩
  · have hnat := congrArg BitVec.toNat hsame
    simp only [BitVec.toNat_add] at hnat
    omega
  · have hnat := congrArg BitVec.toNat hone
    simp only [BitVec.toNat_add, h1] at hnat hle
    omega

variable {c : Nat} {breakaddr heapbase : Vaddr}

omit hi in
theorem Step.fork_mach
    (h : Step s (.fork p c heapbase breakaddr) t) : p ∈ s.live ∧ s.pt p ≠ 0#32 ∧
      s.live.card < 200 ∧ ∃ table m, s.mach.ptCopy (s.pt p) = .ok (some table, m) ∧
        t.mach = m.makeReadonly table true := by
  cases h with
  | @fork _ m table _ _ hr hz hcard hm =>
    exact ⟨hr.2.1, hz, hcard, table, m, hm, by rw [makeReadonly_false]⟩

theorem LostInv.fits_fork
    (h : Step s (.fork p c heapbase breakaddr) t) (f : Nat) :
    (t.mach.coremap.entries f).shared.toNat + (lost f).toNat < 256 := by
  obtain ⟨hp, hz, hcard, table, m, hm, ht⟩ := h.fork_mach
  have hnew : s.next ∉ s.live := fun hl => Nat.lt_irrefl _ (hi.inv.fresh _ hl)
  have hcopy : (s.recount (putBack lost)).mach.ptCopy ((s.recount (putBack lost)).pt p)
      = .ok (some table, m.recount (putBack lost)) := by
    show (s.mach.recount (putBack lost)).ptCopy (s.pt p) = _
    rw [ptCopy_recount, hm]
    rfl
  have hshared := hi.inv.owned.fork_shared (f := f) hp hz hnew hcopy
  rw [makeReadonly_recount _ (putBack_shifts lost), ← ht] at hshared
  exact fits_of_shared (hi.fits f) hcard hshared

/-- A step that does not look at the counts. -/
theorem LostInv.plain (h : Step s a t) (hexit : ∀ p, a ≠ .exit p)
    (hmod : ∀ p rand va, a = .fault p rand → (s.proc p).mode ≠ .trapped .readonly va) :
    (∃ own', LostInv lost own' t) ∧ Evolves s a t := by
  have hstep := step_recount (putBack lost) h (fun _ => putBack_shifts lost) hexit hmod
  have hfit : CowFits (s.recount (putBack lost)) a := by
    intro p rand va ha hm
    exact (hmod p rand va ha hm).elim
  obtain ⟨own', hi'⟩ := inv_step hstep hfit hi.inv
  refine ⟨⟨own', hi', ?_⟩, (hi.inv.evolves hstep hfit).of_recount hmod⟩
  by_cases hfork : ∃ p c heapbase breakaddr, a = .fork p c heapbase breakaddr
  · obtain ⟨p, c, heapbase, breakaddr, rfl⟩ := hfork
    exact hi.fits_fork h
  · intro f
    rw [step_shared h (fun p c hb br ha => hfork ⟨p, c, hb, br, ha⟩) hexit hmod f]
    exact hi.fits f

end

section
variable {lost : Nat → BitVec 8} {own : Nat → Owner} {a : Event} {p q j rand : Nat}
  {va ptp : Vaddr} {o : Outcome}

theorem Machine.kmallocPage_shared (m : Machine) (f : Nat) :
    (m.kmallocPage.2.coremap.entries f).shared = (m.coremap.entries f).shared := by
  have h := kmallocPage_recount (m := m) fun f _ => (m.coremap.entries f).shared
  have hself : (m.recount fun f _ => (m.coremap.entries f).shared) = m := rfl
  rw [hself] at h
  rw [congrArg Prod.snd h]
  rfl

variable {pa : Paddr}

theorem Machine.decrefcount_shared (h : m.coremap.isShared pa = true) (f : Nat) :
    ((m.decrefcount pa).coremap.entries f).shared.toNat +
      (if f = m.coremap.frameIndex pa then 1 else 0) = (m.coremap.entries f).shared.toNat := by
  simp only [decrefcount, Coremap.decrefcount, Coremap.setShared]
  by_cases hf : f = m.coremap.frameIndex pa
  · subst hf
    rw [update_self, if_pos rfl]
    have hne : (m.coremap.entries (m.coremap.frameIndex pa)).shared ≠ 0 := by
      simpa [Coremap.isShared] using h
    have hpos : (m.coremap.entries (m.coremap.frameIndex pa)).shared.toNat ≠ 0 :=
      fun h0 => hne (BitVec.eq_of_toNat_eq h0)
    have h1 : (1 : BitVec 8).toNat = 1 := rfl
    rw [BitVec.toNat_sub, h1]
    omega
  · rw [update_of_ne hf, if_neg hf]
    rfl

theorem Machine.ptCopyOnWrite_shared_le (m : Machine) (ptp va : Vaddr) (f : Nat) :
    ((m.ptCopyOnWrite ptp va).2.coremap.entries f).shared.toNat
      ≤ (m.coremap.entries f).shared.toNat := by
  simp only [ptCopyOnWrite]
  generalize m.word (paddrToKvaddr (m.word ptp (index1 va))) (index2 va) = e
  split
  · rename_i hsh
    have hdec : ((m.decrefcount (ppage e)).coremap.entries f).shared.toNat
        ≤ (m.coremap.entries f).shared.toNat := Nat.le.intro (decrefcount_shared hsh f)
    rw [← kmallocPage_shared] at hdec
    generalize (m.decrefcount (ppage e)).kmallocPage = r at hdec ⊢
    obtain ⟨r, m₁⟩ := r
    cases r <;> exact hdec
  · exact Nat.le_refl _

/-- What was lost after a copy-on-write that found no memory. -/
def loseAt (lost : Nat → BitVec 8) (g : Nat) : Nat → BitVec 8 :=
  Function.update lost g (lost g + 1)

/-- The count that is dropped goes to what was lost. -/
theorem Machine.decrefcount_putBack (m : Machine) (lost : Nat → BitVec 8) (pa : Paddr) :
    (m.decrefcount pa).recount (putBack (loseAt lost (m.coremap.frameIndex pa)))
      = m.recount (putBack lost) := by
  simp only [decrefcount, recount, Coremap.decrefcount, Coremap.setShared, Coremap.recount,
    Machine.mk.injEq, Coremap.mk.injEq, and_true]
  funext f
  by_cases hf : f = m.coremap.frameIndex pa
  · subst hf
    simp only [update_self, putBack, loseAt]
    rw [BitVec.add_comm (lost _) 1, ← BitVec.add_assoc, BitVec.sub_add_cancel]
  · simp only [update_of_ne hf, putBack, loseAt]

theorem fits_loseAt (hsh : m.coremap.isShared pa = true)
    (hfit : ∀ f, (m.coremap.entries f).shared.toNat + (lost f).toNat < 256) (f : Nat) :
    ((m.decrefcount pa).coremap.entries f).shared.toNat +
      (loseAt lost (m.coremap.frameIndex pa) f).toNat < 256 := by
  have h := hfit f
  have hdec := decrefcount_shared hsh f
  rw [loseAt]
  by_cases hf : f = m.coremap.frameIndex pa
  · subst hf
    have h1 : (1 : BitVec 8).toNat = 1 := rfl
    rw [if_pos rfl] at hdec
    rw [update_self, BitVec.toNat_add, h1]
    omega
  · rw [update_of_ne hf]
    omega

theorem isShared_putBack
    (hfit : ∀ f, (m.coremap.entries f).shared.toNat + (lost f).toNat < 256)
    (hsh : m.coremap.isShared pa = true) :
    (m.recount (putBack lost)).coremap.isShared pa = true := by
  have h := hfit (m.coremap.frameIndex pa)
  have hne : (m.coremap.entries (m.coremap.frameIndex pa)).shared ≠ 0 := by
    simpa [Coremap.isShared] using hsh
  have hsum : (m.coremap.entries (m.coremap.frameIndex pa)).shared
      + lost (m.coremap.frameIndex pa) ≠ 0 := by
    intro h0
    have hnat := congrArg BitVec.toNat h0
    have h00 : (0 : BitVec 8).toNat = 0 := rfl
    rw [BitVec.toNat_add, h00] at hnat
    exact hne (BitVec.eq_of_toNat_eq (by rw [h00]; omega))
  exact bne_iff_ne.mpr hsum

theorem Ctx.modify_cases {c : Ctx} {e : Word} {m' : Machine}
    (hl : (c.mach.ptLookup c.as.pageTable va .readonly).1 = .writePermitted)
    (hk : c.mach.ptCopyOnWrite c.as.pageTable va = (.ok e, m')) :
    c.modify va = .ok (.done { c with
      mach := m', tlb := c.tlb.write (pageOf va) e (c.tlb.probeSlot (pageOf va)) }) := by
  have hl' : c.mach.ptLookup c.as.pageTable va .readonly
      = (.writePermitted, (c.mach.ptLookup c.as.pageTable va .readonly).2) := Prod.ext hl rfl
  rw [Ctx.modify, hl', hk]

/-- What `LostInv` needs of an outcome: some outcome of the system with the counts put right that
differs from it in the counts only. -/
structure Matches (lost : Nat → BitVec 8) (own : Nat → Owner) (s : Sys) (p : Nat) (va : Vaddr)
    (o : Outcome) (lost' : Nat → BitVec 8) (o' : Outcome) : Prop where
  settle : (s.settle p o).recount (putBack lost') = (s.recount (putBack lost)).settle p o'
  settles : Settles p s.live s.pt own ((s.recount (putBack lost)).ctx p) va o'
  fits : ∀ f, ((s.settle p o).mach.coremap.entries f).shared.toNat + (lost' f).toNat < 256
  done : (∃ c, o = .done c) → ∃ c, o' = .done c
  now : ∀ l c, o' ≠ .loading l c

section
variable (hi : LostInv lost own s) (hc : s.cur = some p)
  (hm : (s.proc p).mode = .trapped .readonly va)
include hi hc hm

omit hc hm in
theorem LostInv.match_failed (e : Errno) :
    Matches lost own s p va (.failed e (s.ctx p)) lost
      (.failed e ((s.ctx p).recount (putBack lost))) where
  settle := rfl
  settles := Settles.failed hi.inv.owned rfl
  fits := hi.fits
  done := by
    rintro ⟨c, hc⟩
    cases hc
  now := by simp

omit hc hm in
/-- Without memory the counts put right stay as they were. -/
theorem LostInv.match_noMemory
    (hsh : s.mach.coremap.isShared (ppage (s.pte p (index1 va) (index2 va))) = true) :
    Matches lost own s p va
      (.failed .enomem { s.ctx p with
        mach := s.mach.decrefcount (ppage (s.pte p (index1 va) (index2 va))) })
      (loseAt lost (s.mach.coremap.frameIndex (ppage (s.pte p (index1 va) (index2 va)))))
      (.failed .enomem ((s.ctx p).recount (putBack lost))) where
  settle := by
    simp only [Sys.settle, Sys.put, Sys.recount, decrefcount_putBack]
    rfl
  settles := Settles.failed hi.inv.owned rfl
  fits := fits_loseAt hsh hi.fits
  done := by
    rintro ⟨c, hc⟩
    cases hc
  now := by simp

/-- The page at fault as the trap met it. -/
theorem LostInv.trapped : p ∈ s.live ∧ va.toNat < 2147483648 ∧
    TlbFor (s.mach.recount (putBack lost)) (s.pt p) s.tlb ∧
    isValid (s.mach.entry (s.pt p) (index1 va) (index2 va)) = true := by
  have hp := hi.inv.cur p hc
  have hmode : ModeOK own (s.mach.recount (putBack lost)) p (s.pt p) (s.proc p).mode :=
    hi.inv.mode p hp
  rw [hm] at hmode
  exact ⟨hp, hmode.1, (hi.inv.tlb p hc).1, hmode.2 rfl⟩

variable {e : Word} {m' : Machine}
  (hl : (s.mach.ptLookup (s.pt p) va .readonly).1 = .writePermitted)
  (hk : s.mach.ptCopyOnWrite (s.pt p) va = (.ok e, m'))
include hl hk

theorem LostInv.match_modified :
    Matches lost own s p va (.done { s.ctx p with
        mach := m', tlb := s.tlb.write (pageOf va) e (s.tlb.probeSlot (pageOf va)) }) lost
      (.done { (s.ctx p).recount (putBack lost) with
        mach := m'.recount (putBack lost)
        tlb := s.tlb.write (pageOf va) e (s.tlb.probeSlot (pageOf va)) }) := by
  obtain ⟨hp, hva, htlb, hv⟩ := hi.trapped hc hm
  obtain ⟨hz, hw⟩ := word_ne_zero_of_valid hv
  have hent := entry_eq_word (m := s.mach) (j := index2 va) hz hw
  refine ⟨rfl, ?_, fun f => ?_, fun _ => ⟨_, rfl⟩, by simp⟩
  · cases hsh : s.mach.coremap.isShared (ppage (s.pte p (index1 va) (index2 va))) with
    | true =>
      -- A page that is shared is shared with the counts put right.
      have hcow : (s.mach.recount (putBack lost)).ptCopyOnWrite (s.pt p) va
          = (.ok e, m'.recount (putBack lost)) := by
        rw [ptCopyOnWrite_recount _ (putBack_shifts lost), hk]
        rw [← hent]
        exact (isShared_putBack hi.fits hsh).trans hsh.symm
      refine Ctx.modify_settles hi.inv.owned hp rfl hz htlb hva hv ?_ (Ctx.modify_cases hl hcow)
      intro x m₁ hx
      cases hcow.symm.trans hx
    | false =>
      -- One that nothing is thought to share is made writable in place.
      have hdirty : isDirty (s.mach.entry (s.pt p) (index1 va) (index2 va)) = true := by
        by_contra hd
        simp only [ptLookup, if_neg hw, ← hent, hv, if_true, hd] at hl
        simp at hl
      have hk' : s.mach.ptCopyOnWrite (s.pt p) va = (.ok e, m') := hk
      simp only [Sys.pte] at hsh
      simp only [ptCopyOnWrite, ← hent, hsh, Bool.false_eq_true, if_false, Prod.mk.injEq,
        Except.ok.injEq] at hk'
      obtain ⟨rfl, hm'⟩ := hk'
      have hset : (s.mach.recount (putBack lost)).setEntry (s.pt p) (index1 va) (index2 va)
          (s.mach.entry (s.pt p) (index1 va) (index2 va) &&& ~~~pteReadonly)
          = m'.recount (putBack lost) := by
        rw [← hm']
        rfl
      obtain ⟨g, t, hat⟩ := hi.inv.owned.entryAt hp (index1_lt va) (index2_lt va) hv
      have hrew : Rewritten s.live s.pt own ((s.ctx p).recount (putBack lost)).mach p (index1 va)
          (index2 va) _ (m'.recount (putBack lost)) own :=
        hi.inv.owned.rewritten hp (index1_lt va) (index2_lt va) hv hat hset
      exact hrew.settles hi.inv.owned hp rfl htlb hva hv hdirty
  · have hle := ptCopyOnWrite_shared_le s.mach (s.pt p) va f
    rw [hk] at hle
    exact Nat.lt_of_le_of_lt (Nat.add_le_add_right hle _) (hi.fits f)

omit hl hk in
theorem LostInv.modify (ho : (s.ctx p).modify va = .ok o) :
    ∃ lost' o', Matches lost own s p va o lost' o' := by
  obtain ⟨hp, hva, htlb, hv⟩ := hi.trapped hc hm
  unfold Ctx.modify at ho
  split at ho
  · rename_i entrylo hl
    have hl' : (s.mach.ptLookup (s.pt p) va .readonly).1 = .writePermitted := congrArg Prod.fst hl
    split at ho
    · rename_i e m' hk
      cases ho
      have hk' : s.mach.ptCopyOnWrite (s.pt p) va = (.error e, m') := hk
      obtain ⟨rfl, hmem, hsh, hcore⟩ := ptCopyOnWrite_error hv hk'
      obtain rfl : m' = s.mach.decrefcount (ppage (s.pte p (index1 va) (index2 va))) := by
        obtain ⟨_, _⟩ := m'
        cases hmem
        cases hcore
        rfl
      exact ⟨_, _, hi.match_noMemory hsh⟩
    · rename_i e m' hk
      cases ho
      exact ⟨_, _, hi.match_modified hc hm hl' hk⟩
  · cases ho

omit hl hk in
theorem LostInv.matches (ho : (s.ctx p).vmFault .readonly va rand = .ok o) :
    ∃ lost' o', Matches lost own s p va o lost' o' := by
  obtain ⟨-, -, -, hv⟩ := hi.trapped hc hm
  cases Ctx.vmFault_cases ho with
  | noRegion _ => exact ⟨_, _, hi.match_failed .efault⟩
  | noTable _ => exact ⟨_, _, hi.match_failed .enomem⟩
  | @modify _ c₁ _ _ hc₁ _ hmod =>
    -- The page is mapped, so there was a table already.
    have hz : (s.ctx p).as.pageTable ≠ 0#32 := (word_ne_zero_of_valid hv).1
    obtain rfl : c₁ = s.ctx p := by
      rw [Ctx.ensureTable, if_neg hz] at hc₁
      exact (Option.some.inj hc₁).symm
    exact hi.modify hc hm hmod
  | access _ _ hft _ => exact (hft rfl).elim

end

/-- Every step but an exit keeps the invariant, with something more lost now and then. -/
theorem LostInv.step (hi : LostInv lost own s) (h : Step s a t) (hexit : ∀ p, a ≠ .exit p) :
    (∃ lost' own', LostInv lost' own' t) ∧ Evolves s a t := by
  by_cases hmod : ∀ p rand va, a = .fault p rand → (s.proc p).mode ≠ .trapped .readonly va
  · obtain ⟨⟨own', hi'⟩, he⟩ := hi.plain h hexit hmod
    exact ⟨⟨lost, own', hi'⟩, he⟩
  simp only [not_forall, not_not] at hmod
  obtain ⟨p, rand, va, rfl, hm⟩ := hmod
  cases h with
  | @fault _ _ va' ft o hc hl hm' ho =>
    cases hm.symm.trans hm'
    obtain ⟨lost', o', hmat⟩ := hi.matches hc hm ho
    obtain ⟨-, hva, -⟩ := hi.trapped hc hm
    have hev := hi.inv.evolves_settle hl hm hmat.settles rand
    rw [← hmat.settle] at hev
    obtain ⟨hkept, hmapped, hdone⟩ := hev
    refine ⟨?_, hkept, hmapped, ?_, ?_⟩
    · obtain ⟨own', hi'⟩ := hi.inv.settle hc hva (fun l c h => (hmat.now l c h).elim) hmat.settles
      rw [← hmat.settle] at hi'
      exact ⟨lost', own', hi', hmat.fits⟩
    · rintro _ _ _ _ ⟨⟩
    rintro q rand' ft va' c ⟨⟩ hm₁ ho₁
    cases hm.symm.trans hm₁
    cases ho.symm.trans ho₁
    exact hdone (hmat.done ⟨c, rfl⟩)

theorem recount_putBack_zero (s : Sys) : s.recount (putBack fun _ => 0#8) = s := by
  have hzero : (putBack fun _ => 0#8) = fun _ n => n := by
    funext f n
    exact BitVec.add_zero n
  rw [hzero]
  rfl

/-- With nothing lost the invariant is that of the system. -/
theorem lostInv_zero_iff : LostInv (fun _ => 0#8) own s ↔ Inv own s := by
  constructor
  · intro h
    have hi := h.inv
    rwa [recount_putBack_zero] at hi
  · intro hi
    refine ⟨by rwa [recount_putBack_zero], ?_⟩
    intro f
    exact (s.mach.coremap.entries f).shared.isLt

/-- The steps of a run in which no process exits, or of one that has a frame left for every copy on
write. -/
def Steady (exits : Bool) (s : Sys) (a : Event) : Prop :=
  if exits then CowFits s a else ∀ p, a ≠ .exit p

def SteadyInv (exits : Bool) (s : Sys) : Prop :=
  ∃ lost own, LostInv lost own s ∧ (exits = true → lost = fun _ => 0#8)

theorem steadyInv_initial (exits : Bool) (h : Init s) : SteadyInv exits s := by
  obtain ⟨own, hi⟩ := inv_initial h
  exact ⟨_, own, lostInv_zero_iff.mpr hi, fun _ => rfl⟩

theorem SteadyInv.step {exits : Bool} (hi : SteadyInv exits s) (h : Step s a t)
    (hok : Steady exits s a) : SteadyInv exits t ∧ Evolves s a t := by
  obtain ⟨lost, own, hl, hzero⟩ := hi
  cases exits with
  | false =>
    obtain ⟨⟨lost', own', hl'⟩, he⟩ := hl.step h hok
    exact ⟨⟨lost', own', hl', by simp⟩, he⟩
  | true =>
    rw [hzero rfl] at hl
    have hi := lostInv_zero_iff.mp hl
    obtain ⟨own', hi'⟩ := inv_step h hok hi
    exact ⟨⟨_, own', lostInv_zero_iff.mpr hi', fun _ => rfl⟩, hi.evolves h hok⟩

end

end OS161
