import OS161.Vm.Layout

/-! The break `sys_sbrk` keeps and the heap top `vm_fault` tests against. -/
namespace OS161

open BitVec (ofNat toNat_ofNat le_def toNat_add eq_of_toNat_eq lt_def)

variable {as as' as₀ : AddrSpace} {c c' : Ctx} {amount old : Word} {a : Call} {es : List Call}
  {past : Region}

/-- How far `as_heapvtop` moves when the break goes from `b` to `n`, beyond the end of its page. -/
def topStep (b n : Nat) : Nat := ((n - (b / 4096 * 4096 + 4096)) / 4096 + 2) * 4096

theorem moveBreak_error {e : Errno} (h : as.moveBreak amount = .error e) :
    as.asStackvbase < as.breakaddr + amount := by
  by_contra hle
  rw [BitVec.not_lt] at hle
  simp only [AddrSpace.moveBreak, if_pos hle] at h
  split at h <;> cases h

theorem moveBreak_ok (h : as.moveBreak amount = .ok (old, as')) :
    (as.breakaddr + amount).toNat ≤ as.asStackvbase.toNat ∧ old = as.breakaddr ∧
      as' = { as with breakaddr := as.breakaddr + amount, asHeapvtop := as'.asHeapvtop } := by
  simp only [AddrSpace.moveBreak] at h
  split at h
  · split at h
    · rename_i hs
      cases h
      exact ⟨BitVec.le_def.mp hs, rfl, rfl⟩
    · cases h
  · split at h
    · rename_i hs
      cases h
      exact ⟨BitVec.le_def.mp hs, rfl, rfl⟩
    · cases h

section
variable (hb : as.breakaddr.toNat ≤ 2147483648)
  (hs : (as.breakaddr + amount).toNat ≤ as.asStackvbase.toNat)
include hb

theorem toNat_nextPage : ((as.breakaddr &&& pageFrame) + pageSizeW).toNat
    = as.breakaddr.toNat / 4096 * 4096 + 4096 := by
  have hp := toNat_pageOf as.breakaddr
  rw [pageOf] at hp
  rw [toNat_add, hp, toNat_pageSizeW]
  omega

include hs

theorem moveBreak_page
    (h : (as.breakaddr + amount).toNat ≤ as.breakaddr.toNat / 4096 * 4096 + 4096) :
    as.moveBreak amount
      = .ok (as.breakaddr, { as with breakaddr := as.breakaddr + amount }) := by
  have hend : as.breakaddr + amount ≤ (as.breakaddr &&& pageFrame) + pageSizeW := by
    rw [le_def, toNat_nextPage hb]
    exact h
  simp only [AddrSpace.moveBreak, if_pos hend, if_pos (BitVec.le_def.mpr hs)]

theorem moveBreak_grow
    (h : as.breakaddr.toNat / 4096 * 4096 + 4096 < (as.breakaddr + amount).toNat) :
    as.moveBreak amount = .ok (as.breakaddr,
      { as with
        breakaddr := as.breakaddr + amount
        asHeapvtop := ofNat 32
          (as.asHeapvtop.toNat + topStep as.breakaddr.toNat (as.breakaddr + amount).toNat) }) := by
  have hpe := toNat_nextPage hb
  have hend : ¬ as.breakaddr + amount ≤ (as.breakaddr &&& pageFrame) + pageSizeW := by
    rw [le_def, hpe]
    omega
  have htop : ((as.breakaddr + amount - ((as.breakaddr &&& pageFrame) + pageSizeW)) / pageSizeW
        + 1 + 1) * pageSizeW + as.asHeapvtop = ofNat 32
      (as.asHeapvtop.toNat + topStep as.breakaddr.toNat (as.breakaddr + amount).toNat) := by
    apply eq_of_toNat_eq
    have hone : BitVec.toNat (1 : Word) = 1 := rfl
    rw [toNat_add, BitVec.toNat_mul, toNat_add, toNat_add,
      BitVec.toNat_udiv, BitVec.toNat_sub, hpe, toNat_pageSizeW, toNat_ofNat, topStep, hone]
    omega
  simp only [AddrSpace.moveBreak, if_neg hend, if_pos (BitVec.le_def.mpr hs), htop]

end

/-- The HEAP test of `vm_fault`. -/
def AddrSpace.HeapTest (as : AddrSpace) (x : Vaddr) : Prop :=
  as.asHeapbase ≤ x ∧ x < as.asHeapvtop

/-- The break is no lower than the heap's start, and `vm_fault` accepts all that lies between. -/
structure HeapAgrees (as : AddrSpace) : Prop where
  base : as.asHeapbase ≤ as.breakaddr
  test : ∀ x, as.asHeapbase ≤ x → x < as.breakaddr → as.HeapTest x

/-- A call of `sys_sbrk` returns the old break and moves it by exactly its argument, within a heap
that `vm_fault` agrees on; or it fails and changes nothing. -/
def SbrkExact (c : Ctx) : Call → Prop
  | .sbrk amount =>
    match c.sysSbrk amount with
    | (.ok old, c') => old = c.as.breakaddr ∧
      (c'.as.breakaddr.toNat : Int) = c.as.breakaddr.toNat + amount.toInt ∧ HeapAgrees c'.as
    | (.error _, c') => c'.as = c.as
  | _ => True

/-- What a call that is not refused has to meet: it stays above the heap's start, does not extend a
break that has met the heap top by a page or less, and does not drive the top over the end of
memory. -/
def AddrSpace.Room (as : AddrSpace) (amount : Word) : Prop :=
  (as.asHeapbase.toNat : Int) ≤ as.breakaddr.toNat + amount.toInt ∧
    as.breakaddr.toNat + amount.toInt < 4294967296 ∧
    ¬ (as.breakaddr = as.asHeapvtop ∧ 0 < amount.toInt ∧ amount.toInt ≤ 4096) ∧
    (as.breakaddr.toNat / 4096 * 4096 + 4096 < (as.breakaddr + amount).toNat →
      as.asHeapvtop.toNat + topStep as.breakaddr.toNat (as.breakaddr + amount).toNat < 4294967296)

instance (as : AddrSpace) (amount : Word) : Decidable (as.Room amount) :=
  inferInstanceAs (Decidable (_ ∧ _))

/-- The calls that fail, and those with room for them. -/
def SbrkFits (c : Ctx) : Call → Prop
  | .sbrk amount =>
    (∃ e, c.mapZero.1 = .error e) ∨ c.as.asStackvbase < c.as.breakaddr + amount ∨
      c.as.Room amount
  | _ => True

/-- A heap that starts in the kernel's half of memory never moves; any other has its break between
its start and its top, which is a page boundary. -/
structure HeapInv (as : AddrSpace) : Prop where
  base_pos : 0 < as.asHeapbase.toNat
  base_aligned : as.asHeapbase.toNat % 4096 = 0
  stack : as.asStackvbase.toNat ≤ 2147483648
  high : 2147483648 < as.asHeapbase.toNat → as.breakaddr = as.asHeapbase
  low : as.asHeapbase.toNat ≤ 2147483648 → as.asHeapbase.toNat ≤ as.breakaddr.toNat ∧
    as.breakaddr.toNat ≤ as.asHeapvtop.toNat ∧ as.breakaddr.toNat ≤ 2147483648 ∧
    as.asHeapvtop.toNat % 4096 = 0

theorem HeapInv.agrees (h : HeapInv as) : HeapAgrees as := by
  rcases Nat.lt_or_ge 2147483648 as.asHeapbase.toNat with hlt | hle
  · have hb := h.high hlt
    refine ⟨by rw [hb]; exact BitVec.le_refl _, ?_⟩
    intro x hx hx'
    rw [hb, lt_def] at hx'
    rw [le_def] at hx
    omega
  · obtain ⟨hlo, hhi, _, _⟩ := h.low hle
    refine ⟨BitVec.le_def.mpr hlo, ?_⟩
    intro x hx hx'
    rw [lt_def] at hx'
    exact ⟨hx, BitVec.lt_def.mpr (by omega)⟩

theorem HeapInv.congr (h : HeapInv as) (hl : SameLayout as as') : HeapInv as' := by
  obtain ⟨_, hs, hb, ht, hbr⟩ := hl
  refine ⟨by rw [hb]; exact h.base_pos, by rw [hb]; exact h.base_aligned, by rw [hs]; exact h.stack,
    ?_, ?_⟩
  · rw [hb, hbr]
    exact h.high
  · rw [hb, hbr, ht]
    exact h.low

/-- `runprogram` starts with a page-aligned heap of one page. -/
theorem heapInv_setupHeap (h : as = as₀.setupHeap past) (hpos : as.asHeapbase ≠ 0#32)
    (hs : as.asStackvbase ≤ userstack) : HeapInv as := by
  have hbreak : as.breakaddr = as.asHeapbase := by rw [h]; rfl
  have htop : as.asHeapvtop = as.asHeapbase + pageSizeW := by rw [h]; rfl
  have hal : as.asHeapbase.toNat % 4096 = 0 := by
    rw [h]
    simp only [AddrSpace.setupHeap, AddrSpace.asDefineHeap, Region.heapStart]
    generalize (as₀.asRegion.getD 1 past).pVaddr + (as₀.asRegion.getD 1 past).pMemsz = x
    have hlow : (x &&& ~~~pageFrame).toNat = x.toNat % 4096 :=
    Nat.and_two_pow_sub_one_eq_mod _ 12
    split
    · have hp := toNat_pageOf x
      rw [pageOf] at hp
      rw [toNat_add, hp, toNat_pageSizeW]
      omega
    · rename_i hz
      rw [ne_eq, not_not] at hz
      rw [hz] at hlow
      exact hlow.symm
  have hne : 0 < as.asHeapbase.toNat := by
    refine Nat.pos_of_ne_zero ?_
    intro hz
    exact hpos (eq_of_toNat_eq hz)
  refine ⟨hne, hal, BitVec.le_def.mp hs, fun _ => hbreak, ?_⟩
  rw [hbreak, htop, toNat_add, toNat_pageSizeW]
  omega

theorem moved_exactly_iff (b a : Word) : ((b + a).toNat : Int) = b.toNat + a.toInt ↔
    0 ≤ b.toNat + a.toInt ∧ b.toNat + a.toInt < 4294967296 := by
  rw [BitVec.toInt_eq_toNat_cond, toNat_add]
  split <;> omega

section
variable (h : HeapInv as) (hs : (as.breakaddr + amount).toNat ≤ as.asStackvbase.toNat)
include h hs

theorem HeapInv.moveBreak_of_room (hroom : as.Room amount) :
    ∃ as', as.moveBreak amount = .ok (as.breakaddr, as') ∧
      (as'.breakaddr.toNat : Int) = as.breakaddr.toNat + amount.toInt ∧ HeapInv as' := by
  obtain ⟨hbase, htop, hmeet, hwrap⟩ := hroom
  have hexact := (moved_exactly_iff as.breakaddr amount).mpr ⟨by omega, htop⟩
  have hst := h.stack
  have hlow : as.asHeapbase.toNat ≤ 2147483648 := by omega
  obtain ⟨hlo, hhi, hb, hal⟩ := h.low hlow
  rcases Nat.lt_or_ge (as.breakaddr.toNat / 4096 * 4096 + 4096) (as.breakaddr + amount).toNat
    with hgrow | hpage
  · have hfit := hwrap hgrow
    have hstep : (as.breakaddr + amount).toNat < as.asHeapvtop.toNat +
        topStep as.breakaddr.toNat (as.breakaddr + amount).toNat ∧
        topStep as.breakaddr.toNat (as.breakaddr + amount).toNat % 4096 = 0 := by
      rw [topStep]
      omega
    refine ⟨_, moveBreak_grow hb hs hgrow, hexact, h.base_pos, h.base_aligned, hst, ?_, ?_⟩
    · intro hhigh
      exact absurd hlow (Nat.not_le_of_lt hhigh)
    · dsimp only
      rw [toNat_ofNat, Nat.mod_eq_of_lt hfit]
      omega
  · refine ⟨_, moveBreak_page hb hs hpage, hexact, h.base_pos, h.base_aligned, hst, ?_, ?_⟩
    · intro hhigh
      exact absurd hlow (Nat.not_le_of_lt hhigh)
    -- a break below the page-aligned top has the rest of its page below the top as well
    have hle : (as.breakaddr + amount).toNat ≤ as.asHeapvtop.toNat := by
      by_cases hmet : as.breakaddr = as.asHeapvtop
      · have : ¬ (0 < amount.toInt ∧ amount.toInt ≤ 4096) := fun hr => hmeet ⟨hmet, hr⟩
        omega
      · have hne : as.breakaddr.toNat ≠ as.asHeapvtop.toNat :=
          fun heq => hmet (eq_of_toNat_eq heq)
        omega
    dsimp only
    omega

theorem HeapInv.room_of_exact (hm : as.moveBreak amount = .ok (old, as'))
    (hexact : (as'.breakaddr.toNat : Int) = as.breakaddr.toNat + amount.toInt)
    (hagree : HeapAgrees as') : as.Room amount := by
  obtain ⟨_, _, has⟩ := moveBreak_ok hm
  have hbr : as'.breakaddr = as.breakaddr + amount := by rw [has]
  have hbs : as'.asHeapbase = as.asHeapbase := by rw [has]
  rw [hbr] at hexact
  have hbase := hagree.base
  rw [hbr, hbs, le_def] at hbase
  have htest := hagree.test
  simp only [hbr, hbs, AddrSpace.HeapTest] at htest
  have hst := h.stack
  obtain ⟨_, htop⟩ := (moved_exactly_iff as.breakaddr amount).mp hexact
  have hlow : as.asHeapbase.toNat ≤ 2147483648 := by omega
  obtain ⟨hlo, hhi, hb, hal⟩ := h.low hlow
  have hpos := h.base_pos
  have hbal := h.base_aligned
  refine ⟨by omega, htop, ?_, ?_⟩
  · rintro ⟨hmet, ha⟩
    -- the address at the old top is below the new break and not accepted
    have hpage : (as.breakaddr + amount).toNat ≤ as.breakaddr.toNat / 4096 * 4096 + 4096 := by
      rw [← hmet] at hal
      omega
    rw [moveBreak_page hb hs hpage] at hm
    cases hm
    have hx := htest as.breakaddr (BitVec.le_def.mpr hlo) (BitVec.lt_def.mpr (by omega))
    rw [hmet] at hx
    exact BitVec.lt_irrefl _ hx.2
  · intro hgrow
    rw [moveBreak_grow hb hs hgrow] at hm
    cases hm
    by_contra hwrap
    -- the top has wrapped, and the last address below the break is beyond it
    have hx := htest (ofNat 32 ((as.breakaddr + amount).toNat - 1)) ?_ ?_
    · have hlt := hx.2
      rw [lt_def, toNat_ofNat, toNat_ofNat] at hlt
      have hstep : topStep as.breakaddr.toNat (as.breakaddr + amount).toNat
          ≤ (as.breakaddr + amount).toNat + 4096 - as.breakaddr.toNat / 4096 * 4096 := by
        rw [topStep]
        omega
      omega
    · rw [le_def, toNat_ofNat]
      omega
    · rw [lt_def, toNat_ofNat]
      omega

end

/-- A call keeps break and heap top together exactly when it fits. -/
theorem HeapInv.sbrk_iff (h : HeapInv c.as) :
    SbrkFits c (.sbrk amount) ↔ SbrkExact c (.sbrk amount) := by
  simp only [SbrkFits, SbrkExact]
  rcases c.sysSbrk_cases amount with ⟨e, hcase, hr, has⟩ | ⟨hz, old, as', hm, hr, rfl⟩
  · have hpair : c.sysSbrk amount = (.error e, (c.sysSbrk amount).2) := Prod.ext hr rfl
    rw [hpair]
    rcases hcase with hz | ⟨-, hm⟩
    · exact iff_of_true (.inl ⟨e, hz⟩) has
    · exact iff_of_true (.inr (.inl (moveBreak_error hm))) has
  · have hpair : c.sysSbrk amount = (.ok old, (c.sysSbrk amount).2) := Prod.ext hr rfl
    obtain ⟨hs, hold, _⟩ := moveBreak_ok hm
    rw [hpair]
    constructor
    · rintro (⟨e, he⟩ | hlt | hroom)
      · rw [hz] at he
        cases he
      · exact absurd hs (Nat.not_le_of_lt hlt)
      obtain ⟨as₁, hm₁, hexact, hinv⟩ := h.moveBreak_of_room hs hroom
      rw [hm] at hm₁
      cases hm₁
      exact ⟨rfl, hexact, hinv.agrees⟩
    · rintro ⟨_, hexact, hagree⟩
      exact .inr (.inr (h.room_of_exact hs hm hexact hagree))

theorem HeapInv.sbrk (h : HeapInv c.as) (hfit : SbrkFits c (.sbrk amount)) :
    HeapInv (c.sysSbrk amount).2.as := by
  rcases c.sysSbrk_cases amount with ⟨e, -, -, has⟩ | ⟨hz, old, as', hm, -, rfl⟩
  · rw [has]
    exact h
  obtain ⟨hs, _, _⟩ := moveBreak_ok hm
  rcases hfit with ⟨e, he⟩ | hlt | hroom
  · rw [hz] at he
    cases he
  · exact absurd hs (Nat.not_le_of_lt hlt)
  obtain ⟨as₁, hm₁, _, hinv⟩ := h.moveBreak_of_room hs hroom
  rw [hm] at hm₁
  cases hm₁
  exact hinv

/-- Faults only move the stack base, and never above `USERSTACK`. -/
theorem HeapInv.step (h : HeapInv c.as) (hs : ProcStep c a c') (hfit : SbrkFits c a) :
    HeapInv c'.as := by
  cases hs with
  | sbrk => exact h.sbrk hfit
  | @fault ft va rand o ho =>
    rcases Ctx.vmFault_stack ho with ⟨hl, -⟩ | ⟨c₁, rfl, hg, -⟩
    · exact h.congr hl
    refine HeapInv.congr ?_ hg.layout
    refine ⟨h.base_pos, h.base_aligned, ?_, h.high, h.low⟩
    have hva := c.as.mappedRegion_stack hg.test
    have hp := toNat_pageOf va
    dsimp only
    omega
  | loaded =>
    rw [Ctx.vmFaultLoaded_same.1]
    exact h
  | others => exact h

/-- From the heap `runprogram` sets up: the calls of a run all keep break and heap top together if
and only if they all fit, and then `vm_fault` agrees on the heap at the end as well. -/
theorem sbrk_agrees_iff (as₀ : AddrSpace) (past : Region) (h : c.as = as₀.setupHeap past)
    (hpos : c.as.asHeapbase ≠ 0#32) (hs : c.as.asStackvbase ≤ userstack) :
    (Lts.Run (Lts.Restrict ProcStep SbrkFits) c es c' ↔
      Lts.Run (Lts.Restrict ProcStep SbrkExact) c es c') ∧
    (Lts.Run (Lts.Restrict ProcStep SbrkFits) c es c' → HeapAgrees c'.as) := by
  have hinv := heapInv_setupHeap h hpos hs
  have hiff : ∀ {c : Ctx} {a : Call}, HeapInv c.as → (SbrkFits c a ↔ SbrkExact c a) := by
    intro c a hi
    cases a with
    | sbrk amount => exact hi.sbrk_iff
    | fault | loaded | others => exact Iff.rfl
  clear h hpos hs
  refine ⟨⟨?_, ?_⟩, ?_⟩
  · intro hrun
    induction hrun with
    | refl => exact .refl
    | head hst _ ih =>
      exact .head ⟨hst.1, (hiff hinv).mp hst.2⟩ (ih (hinv.step hst.1 hst.2))
  · intro hrun
    induction hrun with
    | refl => exact .refl
    | head hst _ ih =>
      have hfit := (hiff hinv).mpr hst.2
      exact .head ⟨hst.1, hfit⟩ (ih (hinv.step hst.1 hfit))
  · intro hrun
    have hend := hrun.invariant (fun c => HeapInv c.as) (fun _ _ _ hst hi => hi.step hst.1 hst.2)
      hinv
    exact hend.agrees

namespace OnePage

def heapCtx : Ctx := mapped.ctx 0

theorem sbrk_agrees_hundred : HeapAgrees (heapCtx.sysSbrk 100#32).2.as := by
  refine (sbrk_agrees_iff heapCtx.as ⟨0, 0, 0, 0, 0⟩ rfl (by decide) (by decide)).2
    (.single ⟨.sbrk, .inr (.inr ?_)⟩)
  decide +kernel

/-- One page at a time, the second call leaves the break a page above the heap top; and a negative
amount takes it below the heap's start. -/
theorem sbrk_break_leaves_heap : heapCtx.as = heapCtx.as.setupHeap ⟨0, 0, 0, 0, 0⟩ ∧
    Lts.Run ProcStep heapCtx [.sbrk 4096#32, .sbrk 4096#32]
      ((heapCtx.sysSbrk 4096#32).2.sysSbrk 4096#32).2 ∧
    ¬ HeapAgrees ((heapCtx.sysSbrk 4096#32).2.sysSbrk 4096#32).2.as ∧
    Lts.Run ProcStep heapCtx [.sbrk (-4096#32)] (heapCtx.sysSbrk (-4096#32)).2 ∧
    ¬ HeapAgrees (heapCtx.sysSbrk (-4096#32)).2.as := by
  refine ⟨rfl, .head .sbrk (.single .sbrk), ?_, .single .sbrk, ?_⟩
  · intro h
    have hx := (h.test 0x10002000#32 (by decide +kernel) (by decide +kernel)).2
    revert hx
    decide +kernel
  · intro h
    have hx := h.base
    revert hx
    decide +kernel

end OnePage

end OS161
