import Mathlib.Data.Finset.Card
import Mathlib.Data.List.Pairwise
import Mathlib.Tactic.IntervalCases
import OS161.Kheap.Model

/-! The page references, the lists they are on and the free lists of their pages. -/
namespace OS161.Kheap

open List (mem_toFinset nodup_cons mem_cons)

open Linked
open Function (update_self update_of_ne update)

section slots
variable {b a a' i : Nat} {p : Pageref}

theorem sizes_spec (hb : b < nsizes) : 16 ≤ sizes b ∧ sizes b % 4 = 0 ∧
    pageSize / sizes b * sizes b = pageSize ∧ 2 ≤ pageSize / sizes b := by
  unfold nsizes at hb
  interval_cases b <;> decide

/-- The addresses at which a page has its blocks. -/
def Pageref.Slot (p : Pageref) (a : Nat) : Prop :=
  ∃ i, i < pageSize / sizes p.blocktype ∧ a = p.pageaddr + i * sizes p.blocktype

theorem slot_end_le (hb : b < nsizes) (hi : i < pageSize / sizes b) :
    i * sizes b + sizes b ≤ pageSize := by
  obtain ⟨-, -, hmul, -⟩ := sizes_spec hb
  have := Nat.mul_le_mul_right (sizes b) (Nat.succ_le_of_lt hi)
  rw [Nat.succ_mul] at this
  omega

theorem Pageref.Slot.range (h : p.Slot a) (hb : p.blocktype < nsizes) :
    p.pageaddr ≤ a ∧ a + sizes p.blocktype ≤ p.pageaddr + pageSize := by
  obtain ⟨i, hi, rfl⟩ := h
  have := slot_end_le hb hi
  omega

theorem Pageref.Slot.lt (h : p.Slot a) (hb : p.blocktype < nsizes) : a < p.pageaddr + pageSize := by
  have := (h.range hb).2
  have := (sizes_spec hb).1
  omega

/-- Two blocks of a page do not overlap. -/
theorem Pageref.Slot.apart (h : p.Slot a) (h' : p.Slot a') (hne : a ≠ a') :
    a + sizes p.blocktype ≤ a' ∨ a' + sizes p.blocktype ≤ a := by
  obtain ⟨i, -, rfl⟩ := h
  obtain ⟨j, -, rfl⟩ := h'
  have hmul : ∀ k l, k < l → k * sizes p.blocktype + sizes p.blocktype ≤ l * sizes p.blocktype := by
    intro k l hkl
    have := Nat.mul_le_mul_right (sizes p.blocktype) (Nat.succ_le_of_lt hkl)
    rwa [Nat.succ_mul] at this
  rcases Nat.lt_trichotomy i j with hij | rfl | hij
  · have := hmul i j hij
    omega
  · exact (hne rfl).elim
  · have := hmul j i hij
    omega

/-- All places of a page. -/
def Pageref.slots (p : Pageref) : Finset Nat :=
  (Finset.range (pageSize / sizes p.blocktype)).image fun i => p.pageaddr + i * sizes p.blocktype

theorem Pageref.mem_slots : a ∈ p.slots ↔ p.Slot a := by
  simp only [slots, Slot, Finset.mem_image, Finset.mem_range, eq_comm (a := a)]

theorem Pageref.card_slots (hb : p.blocktype < nsizes) :
    p.slots.card = pageSize / sizes p.blocktype := by
  rw [slots, Finset.card_image_of_injective, Finset.card_range]
  intro i j hij
  have hpos : 0 < sizes p.blocktype := by
    have := (sizes_spec hb).1
    omega
  exact Nat.eq_of_mul_eq_mul_right hpos (Nat.add_left_cancel hij)

end slots

section bits
variable {w : BitVec 32} {j : Nat} {h : Heap} {pr q : Nat}

theorem and_bit (w : BitVec 32) (hj : j < 32) :
    w &&& (1#32 <<< j) = 0#32 ↔ w.getLsbD j = false := by
  rw [← BitVec.twoPow_eq, BitVec.and_twoPow]
  cases hw : w.getLsbD j with
  | false => simp
  | true =>
    simp only [if_true, Bool.true_eq_false, iff_false]
    intro h0
    have := congrArg (fun x : BitVec 32 => x.getLsbD j) h0
    simp [hj] at this

theorem exists_clear_bit (hw : w ≠ 0xffffffff#32) : ∃ j, j < 32 ∧ w.getLsbD j = false := by
  by_contra hall
  push Not at hall
  apply hw
  apply BitVec.eq_of_getLsbD_eq
  intro j hj
  have hones : (0xffffffff#32) = BitVec.allOnes 32 := rfl
  rw [hones, BitVec.getLsbD_allOnes]
  simpa [hj] using hall j hj

theorem inUse_update {f : Nat → BitVec 32} {v : Bool} (hpr : pr < npagerefs)
    (hw : ∀ j, j < 32 → w.getLsbD j = if j = pr % 32 then v else (f (pr / 32)).getLsbD j) :
    (q < npagerefs ∧ (update f (pr / 32) w (q / 32)).getLsbD (q % 32) = true) ↔
      if q = pr then v = true else q < npagerefs ∧ (f (q / 32)).getLsbD (q % 32) = true := by
  by_cases hq : q = pr
  · subst hq
    rw [if_pos rfl, update_self, hw _ (Nat.mod_lt _ (by decide)), if_pos rfl]
    exact and_iff_right hpr
  rw [if_neg hq]
  by_cases hd : q / 32 = pr / 32
  · have hm : q % 32 ≠ pr % 32 := by omega
    rw [hd, update_self, hw _ (Nat.mod_lt _ (by decide)), if_neg hm]
  · rw [update_of_ne hd]

theorem Heap.allocpageref_spec (h : Heap) :
    h.allocpageref = .ok none ∨
    ∃ pr f, h.allocpageref = .ok (some (pr, { h with pagerefsInuse := f })) ∧
      pr < npagerefs ∧ ¬ h.InUse pr ∧
      ∀ q, { h with pagerefsInuse := f }.InUse q ↔ q = pr ∨ h.InUse q := by
  unfold allocpageref
  cases hi : (List.range inuseWords).find? fun i => h.pagerefsInuse i ≠ 0xffffffff#32 with
  | none => exact .inl rfl
  | some i =>
    right
    have hne : h.pagerefsInuse i ≠ 0xffffffff#32 := by simpa using List.find?_some hi
    have hilt : i < 8 := by simpa [inuseWords, npagerefs] using List.mem_of_find?_eq_some hi
    obtain ⟨j₀, hj₀, hclear⟩ := exists_clear_bit hne
    cases hj : (List.range 32).find? fun j => h.pagerefsInuse i &&& (1#32 <<< j) = 0#32 with
    | none =>
      have hnone := List.find?_eq_none.mp hj j₀ (List.mem_range.mpr hj₀)
      rw [decide_eq_true_eq, and_bit _ hj₀] at hnone
      exact (hnone hclear).elim
    | some j =>
      have hjlt : j < 32 := List.mem_range.mp (List.mem_of_find?_eq_some hj)
      have hbit := List.find?_some hj
      rw [decide_eq_true_eq, and_bit _ hjlt] at hbit
      have hdiv : (i * 32 + j) / 32 = i := by omega
      have hmod : (i * 32 + j) % 32 = j := by omega
      have hlt : i * 32 + j < npagerefs := by
        unfold npagerefs
        omega
      refine ⟨i * 32 + j, _, by simp only [hj]; rfl, hlt, ?_, ?_⟩
      · rintro ⟨-, hset⟩
        rw [hdiv, hmod, hbit] at hset
        cases hset
      intro q
      have hupd := inUse_update (q := q) (f := h.pagerefsInuse) (v := true)
        (w := h.pagerefsInuse i ||| (1#32 <<< j)) hlt ?_
      · rw [hdiv] at hupd
        refine hupd.trans ?_
        by_cases hq : q = i * 32 + j
        · simp [hq]
        · simp [hq, InUse]
      · intro k hk
        rw [hdiv, hmod, BitVec.getLsbD_or, ← BitVec.twoPow_eq, BitVec.getLsbD_twoPow]
        by_cases hkj : k = j
        · simp [hkj, hjlt]
        · simp [hkj, Ne.symm hkj]

theorem Heap.freepageref_spec (hu : h.InUse pr) :
    ∃ f, h.freepageref pr = .ok { h with pagerefsInuse := f } ∧
      ∀ q, { h with pagerefsInuse := f }.InUse q ↔ q ≠ pr ∧ h.InUse q := by
  obtain ⟨hlt, hset⟩ := hu
  have hmod : pr % 32 < 32 := Nat.mod_lt _ (by decide)
  have hbit : h.pagerefsInuse (pr / 32) &&& (1#32 <<< (pr % 32)) ≠ 0#32 := by
    rw [Ne, and_bit _ hmod, hset]
    decide
  refine ⟨_, by rw [freepageref, if_pos hlt]; exact if_pos hbit, ?_⟩
  intro q
  have hupd := inUse_update (q := q) (f := h.pagerefsInuse) (v := false)
    (w := h.pagerefsInuse (pr / 32) &&& ~~~(1#32 <<< (pr % 32))) hlt ?_
  · refine hupd.trans ?_
    by_cases hq : q = pr
    · simp [hq]
    · simp [hq, InUse]
  · intro k hk
    rw [BitVec.getLsbD_and, BitVec.getLsbD_not, ← BitVec.twoPow_eq, BitVec.getLsbD_twoPow]
    by_cases hkj : k = pr % 32
    · simp [hkj, hmod]
    · simp [hkj, Ne.symm hkj, hk]

end bits

/-- The first free block of a page. -/
def Pageref.head (p : Pageref) : Option Nat :=
  if p.freelistOffset = invalidOffset then none else some (p.pageaddr + p.freelistOffset)

/-- A page whose free blocks are those listed. -/
structure PageOk (mem : Nat → Nat) (p : Pageref) (free : List Nat) : Prop where
  blocktype : p.blocktype < nsizes
  chain : Chain (link mem) p.head free
  nodup : free.Nodup
  slots : ∀ a ∈ free, p.Slot a
  nfree : p.nfree = free.length
  offset : p.freelistOffset ≠ invalidOffset → p.freelistOffset < pageSize

/-- The lists of page references: `all` are those in use, `same` those of each block type, and
`free` gives the free blocks of each. -/
structure Pages (h : Heap) (all : List Nat) (same free : Nat → List Nat) : Prop where
  allChain : Chain h.nextAll h.allbase all
  allNodup : all.Nodup
  allLt : ∀ r ∈ all, r < npagerefs
  sameChain : ∀ b, b < nsizes → Chain h.nextSamesize (h.sizebases b) (same b)
  sameNodup : ∀ b, b < nsizes → (same b).Nodup
  sameMem : ∀ b, b < nsizes → ∀ r, r ∈ same b ↔ r ∈ all ∧ (h.pagerefs r).blocktype = b
  page : ∀ r ∈ all, PageOk h.mem (h.pagerefs r) (free r)
  run : ∀ r ∈ all, ((h.pagerefs r).pageaddr, 1) ∈ h.runs
  inj : ∀ r ∈ all, ∀ r' ∈ all, (h.pagerefs r).pageaddr = (h.pagerefs r').pageaddr → r = r'
  runsOk : ∀ x ∈ h.runs, x.1 % pageSize = 0 ∧ mipsKseg0.toNat ≤ x.1 ∧
    x.1 + x.2 * pageSize ≤ mipsKseg1 ∧ 1 ≤ x.2
  runsApart : h.runs.Pairwise Apart

section pages
variable {h h' : Heap} {all : List Nat} {same free : Nat → List Nat} {r r' a b x sz k n : Nat}
  {rest fl : List Nat} {p p' : Pageref} {mem mem' : Nat → Nat}

instance : Std.Symm Apart := ⟨fun _ _ => Or.symm⟩

section
variable (hp : Pages h all same free)
include hp

theorem Pages.apart {x y : Nat × Nat} (hx : x ∈ h.runs)
    (hy : y ∈ h.runs) (hne : x ≠ y) : Apart x y :=
  hp.runsApart.forall hx hy hne

theorem Pages.pages_apart (hr : r ∈ all) (hr' : r' ∈ all)
    (hne : r ≠ r') : Apart ((h.pagerefs r).pageaddr, 1) ((h.pagerefs r').pageaddr, 1) := by
  refine hp.apart (hp.run r hr) (hp.run r' hr') ?_
  intro heq
  exact hne (hp.inj r hr r' hr' (Prod.ext_iff.mp heq).1)

theorem Pages.page_pos (hr : r ∈ all) : 0 < (h.pagerefs r).pageaddr := by
  have := (hp.runsOk _ (hp.run r hr)).2.1
  have : (0x80000000 : Nat) ≤ (h.pagerefs r).pageaddr := this
  omega

omit hp in
theorem PageOk.slot_range (hk : PageOk mem p fl) (hx : x ∈ fl) :
    p.pageaddr ≤ x ∧ x < p.pageaddr + pageSize :=
  ⟨((hk.slots x hx).range hk.blocktype).1, (hk.slots x hx).lt hk.blocktype⟩

omit hp in
/-- A page whose free blocks' first words are not written to. -/
theorem PageOk.congr (hk : PageOk mem p fl) (hm : ∀ x ∈ fl, mem' x = mem x) : PageOk mem' p fl :=
  { hk with chain := hk.chain.congr fun x hx => by simp only [link, hm x hx] }

omit hp in
theorem PageOk.card_le (hk : PageOk mem p fl) : fl.length ≤ pageSize / sizes p.blocktype := by
  rw [← Pageref.card_slots hk.blocktype, ← List.toFinset_card_of_nodup hk.nodup]
  refine Finset.card_le_card fun x hx => ?_
  exact Pageref.mem_slots.mpr (hk.slots x (mem_toFinset.mp hx))

omit hp in
theorem PageOk.full (hk : PageOk mem p fl) (hlen : fl.length = pageSize / sizes p.blocktype)
    (hs : p.Slot x) : x ∈ fl := by
  have hsub : fl.toFinset ⊆ p.slots := fun y hy =>
    Pageref.mem_slots.mpr (hk.slots y (mem_toFinset.mp hy))
  have heq := Finset.eq_of_subset_of_card_le hsub (by
    rw [Pageref.card_slots hk.blocktype, List.toFinset_card_of_nodup hk.nodup, hlen])
  rw [← mem_toFinset, heq]
  exact Pageref.mem_slots.mpr hs

theorem Pages.setRef (hpab : p'.pageaddrAndBlocktype = (h.pagerefs r).pageaddrAndBlocktype)
    (hok : PageOk h.mem p' fl) : Pages (h.setRef r p') all same (update free r fl) := by
  have haddr : ∀ q, ((h.setRef r p').pagerefs q).pageaddrAndBlocktype
      = (h.pagerefs q).pageaddrAndBlocktype := by
    intro q
    by_cases hq : q = r
    · subst hq
      simp [Heap.setRef, hpab]
    · simp [Heap.setRef, hq]
  have hpage : ∀ q, ((h.setRef r p').pagerefs q).pageaddr = (h.pagerefs q).pageaddr :=
    fun q => by simp only [Pageref.pageaddr, haddr q]
  have htype : ∀ q, ((h.setRef r p').pagerefs q).blocktype = (h.pagerefs q).blocktype :=
    fun q => by simp only [Pageref.blocktype, haddr q]
  refine ⟨hp.allChain, hp.allNodup, hp.allLt, hp.sameChain, hp.sameNodup, ?_, ?_, ?_, ?_,
    hp.runsOk, hp.runsApart⟩
  · intro b hb q
    rw [htype]
    exact hp.sameMem b hb q
  · intro q hq
    by_cases hqr : q = r
    · subst hqr
      simpa [Heap.setRef] using hok
    · simpa [Heap.setRef, hqr] using hp.page q hq
  · intro q hq
    rw [hpage]
    exact hp.run q hq
  · intro q hq q' hq' heq
    rw [hpage, hpage] at heq
    exact hp.inj q hq q' hq' heq

theorem Pages.setMem (hm : ∀ q ∈ all, ∀ x ∈ free q, mem' x = h.mem x) :
    Pages { h with mem := mem' } all same free :=
  { hp with page := fun q hq => (hp.page q hq).congr (hm q hq) }

end

theorem Pages.doalloc (hp : Pages h all same free) (hr : r ∈ all) (hfree : free r = x :: rest) :
    ∃ p', h.doalloc r = .ok (x, h.setRef r p') ∧
      p'.pageaddrAndBlocktype = (h.pagerefs r).pageaddrAndBlocktype ∧
      Pages (h.setRef r p') all same (update free r rest) := by
  have hk := hp.page r hr
  rw [hfree] at hk
  obtain ⟨hhead, htail⟩ := hk.chain
  obtain ⟨hx, hnd⟩ := nodup_cons.mp hk.nodup
  have hoff : (h.pagerefs r).freelistOffset ≠ invalidOffset := by
    intro h0
    simp [Pageref.head, h0] at hhead
  have hlt := hk.offset hoff
  have hxeq : (h.pagerefs r).pageaddr + (h.pagerefs r).freelistOffset = x := by
    simpa [Pageref.head, hoff] using hhead
  have hlen : (h.pagerefs r).nfree - 1 = rest.length := by
    rw [hk.nfree, List.length_cons, Nat.add_sub_cancel]
  have hslots : ∀ a ∈ rest, (h.pagerefs r).Slot a := fun a ha =>
    hk.slots a (List.mem_cons_of_mem x ha)
  simp only [Heap.doalloc, if_pos hlt, hxeq, hlen]
  cases rest with
  | nil =>
    rw [show link h.mem x = none from htail]
    refine ⟨_, if_pos rfl, rfl, hp.setRef rfl ?_⟩
    exact ⟨hk.blocktype, rfl, hnd, hslots, rfl, fun h0 => (h0 rfl).elim⟩
  | cons y rest =>
    obtain ⟨hy, htail'⟩ := htail
    have hrange := hk.slot_range (x := y) (by simp)
    have hylt : y - (h.pagerefs r).pageaddr < pageSize := by omega
    simp only [hy]
    refine ⟨_, if_pos ⟨Nat.succ_pos _, hrange.1, hylt⟩, rfl, hp.setRef rfl ?_⟩
    refine ⟨hk.blocktype, ⟨?_, htail'⟩, hnd, hslots, rfl, fun _ => hylt⟩
    have hinv : y - (h.pagerefs r).pageaddr ≠ invalidOffset := by
      unfold invalidOffset
      unfold pageSize at hylt
      omega
    simp only [Pageref.head, hinv, if_false]
    have hadd : (h.pagerefs r).pageaddr + (y - (h.pagerefs r).pageaddr) = y := by omega
    exact congrArg some hadd

/-- The places of a new page, the last one first. -/
def slotsDown (a sz : Nat) : Nat → List Nat
  | 0 => [a]
  | k + 1 => (a + (k + 1) * sz) :: slotsDown a sz k

theorem mem_slotsDown : x ∈ slotsDown a sz k ↔ ∃ i, i ≤ k ∧ x = a + i * sz := by
  induction k with
  | zero => simp [slotsDown]
  | succ k ih =>
    rw [slotsDown, mem_cons, ih]
    constructor
    · rintro (rfl | ⟨i, hi, rfl⟩)
      · exact ⟨k + 1, Nat.le_refl _, rfl⟩
      · exact ⟨i, Nat.le_succ_of_le hi, rfl⟩
    · rintro ⟨i, hi, rfl⟩
      rcases Nat.eq_or_lt_of_le hi with rfl | hlt
      · exact .inl rfl
      · exact .inr ⟨i, Nat.le_of_lt_succ hlt, rfl⟩

theorem length_slotsDown : (slotsDown a sz k).length = k + 1 := by
  induction k with
  | zero => rfl
  | succ k ih => rw [slotsDown, List.length_cons, ih]

theorem slot_ne (hsz : 0 < sz) {i j : Nat} (hij : i < j) : a + i * sz ≠ a + j * sz := by
  have := Nat.mul_lt_mul_of_pos_right hij hsz
  omega

theorem nodup_slotsDown (hsz : 0 < sz) : (slotsDown a sz k).Nodup := by
  induction k with
  | zero => simp [slotsDown]
  | succ k ih =>
    refine nodup_cons.mpr ⟨?_, ih⟩
    rw [mem_slotsDown]
    rintro ⟨i, hi, heq⟩
    exact slot_ne hsz (Nat.lt_succ_of_le hi) heq.symm

/-- The loop threads the free list and writes to nothing but the first words of blocks. -/
theorem linkBlocks_spec (ha : 0 < a) (hsz : 0 < sz) (mem : Nat → Nat) (k : Nat) :
    ∃ mem', Heap.linkBlocks a sz mem k = .ok mem' ∧
      Chain (link mem') (some (a + k * sz)) (slotsDown a sz k) ∧
      ∀ x, (∀ i, i ≤ k → x ≠ a + i * sz) → mem' x = mem x := by
  induction k with
  | zero =>
    refine ⟨_, rfl, ⟨by simp, by simp [Chain, link]⟩, ?_⟩
    intro x hx
    exact update_of_ne (by simpa using hx 0 (Nat.le_refl 0)) _ _
  | succ k ih =>
    obtain ⟨mem', hrun, hchain, hsame⟩ := ih
    have hne : a + (k + 1) * sz ≠ a + k * sz := (slot_ne hsz (Nat.lt_succ_self k)).symm
    refine ⟨update mem' (a + (k + 1) * sz) (a + k * sz), ?_, ⟨rfl, ?_⟩, ?_⟩
    · simp only [Heap.linkBlocks, hrun, bind, Except.bind, update_self, if_neg hne]
      rfl
    · have hlink : link (update mem' (a + (k + 1) * sz) (a + k * sz)) (a + (k + 1) * sz)
          = some (a + k * sz) := by
        rw [link, update_self, if_neg (by omega)]
      rw [hlink]
      refine hchain.congr fun x hx => ?_
      obtain ⟨i, hi, rfl⟩ := mem_slotsDown.mp hx
      simp only [link, update_of_ne (slot_ne hsz (Nat.lt_succ_of_le hi))]
    · intro x hx
      rw [update_of_ne (hx (k + 1) (Nat.le_refl _))]
      exact hsame x fun i hi => hx i (Nat.le_succ_of_le hi)

theorem mkpab_spec (ha : a % pageSize = 0) (hb : b < nsizes) (off nf : Nat) :
    (⟨mkpab a b, off, nf⟩ : Pageref).pageaddr = a ∧
      (⟨mkpab a b, off, nf⟩ : Pageref).blocktype = b := by
  unfold nsizes at hb
  unfold pageSize at ha
  simp only [Pageref.pageaddr, Pageref.blocktype, mkpab, pageSize]
  omega

theorem Pages.addRun (hp : Pages h all same free) (hf : h.Fresh n a) (hn : 1 ≤ n) :
    Pages { h with runs := (a, n) :: h.runs } all same free :=
  { hp with
    run := fun r hr => List.mem_cons_of_mem _ (hp.run r hr)
    runsOk := List.forall_mem_cons.mpr ⟨⟨hf.aligned, hf.kseg0.1, hf.kseg0.2, hn⟩, hp.runsOk⟩
    runsApart := List.pairwise_cons.mpr ⟨hf.apart, hp.runsApart⟩ }

/-- The record of a page that has all its blocks on its free list. -/
def newPageref (a b : Nat) : Pageref :=
  ⟨mkpab a b, (pageSize / sizes b - 1) * sizes b, pageSize / sizes b⟩

theorem pageOk_newPageref (ha : a % pageSize = 0) (hb : b < nsizes)
    (hchain : Chain (link mem) (some (a + (pageSize / sizes b - 1) * sizes b))
      (slotsDown a (sizes b) (pageSize / sizes b - 1))) :
    PageOk mem (newPageref a b) (slotsDown a (sizes b) (pageSize / sizes b - 1)) := by
  obtain ⟨hsz, -, -, htwo⟩ := sizes_spec hb
  obtain ⟨hpage, htype⟩ : (newPageref a b).pageaddr = a ∧ (newPageref a b).blocktype = b :=
    mkpab_spec ha hb _ _
  have hlast : (newPageref a b).freelistOffset < pageSize := by
    have := slot_end_le hb (i := pageSize / sizes b - 1) (by omega)
    show (pageSize / sizes b - 1) * sizes b < pageSize
    omega
  have hinv : (newPageref a b).freelistOffset ≠ invalidOffset := by
    unfold invalidOffset
    unfold pageSize at hlast
    omega
  refine ⟨by rw [htype]; exact hb, ?_, nodup_slotsDown (by omega), ?_, ?_, fun _ => hlast⟩
  · rw [Pageref.head, if_neg hinv, hpage]
    exact hchain
  · intro x hx
    obtain ⟨i, hi, rfl⟩ := mem_slotsDown.mp hx
    refine ⟨i, ?_, ?_⟩
    · rw [htype]
      omega
    · rw [htype, hpage]
  · rw [length_slotsDown]
    show pageSize / sizes b = _
    omega

/-- The heap with a record for another page at the head of its lists. -/
def Heap.pushRef (h : Heap) (r b : Nat) (p : Pageref) (mem : Nat → Nat) : Heap :=
  { h with
    pagerefs := update h.pagerefs r p
    mem := mem
    nextSamesize := update h.nextSamesize r (h.sizebases b)
    sizebases := update h.sizebases b (some r)
    nextAll := update h.nextAll r h.allbase
    allbase := some r }

section pushRef
variable (hp : Pages h all same free) (hr : r ∉ all) {b' q : Nat}
include hp hr

theorem Pages.notMem_same (hb' : b' < nsizes) : r ∉ same b' :=
  fun hmem => hr ((hp.sameMem b' hb' r).mp hmem).1

theorem Pages.sameChain_push (hb' : b' < nsizes) :
    Chain (h.pushRef r b p mem).nextSamesize ((h.pushRef r b p mem).sizebases b')
      (update same b (r :: same b) b') := by
  have hnew := hp.notMem_same hr hb'
  unfold Heap.pushRef
  by_cases hbb : b' = b
  · subst hbb
    simp only [update_self]
    exact (hp.sameChain b' hb').push hnew
  · simp only [update_of_ne hbb]
    refine (hp.sameChain b' hb').congr fun q hq => update_of_ne ?_ _ _
    rintro rfl
    exact hnew hq

theorem Pages.sameNodup_push (hb' : b' < nsizes) : (update same b (r :: same b) b').Nodup := by
  by_cases hbb : b' = b
  · subst hbb
    rw [update_self]
    exact nodup_cons.mpr ⟨hp.notMem_same hr hb', hp.sameNodup b' hb'⟩
  · rw [update_of_ne hbb]
    exact hp.sameNodup b' hb'

theorem Pages.sameMem_push (htype : p.blocktype = b) (hb' : b' < nsizes) :
    q ∈ update same b (r :: same b) b' ↔
      q ∈ r :: all ∧ ((h.pushRef r b p mem).pagerefs q).blocktype = b' := by
  unfold Heap.pushRef
  by_cases hq : q = r
  · subst hq
    simp only [update_self, htype, mem_cons, true_or, true_and]
    by_cases hbb : b' = b
    · subst hbb
      simp
    · simp only [update_of_ne hbb]
      exact iff_of_false (hp.notMem_same hr hb') (Ne.symm hbb)
  · simp only [update_of_ne hq, mem_cons, hq, false_or]
    by_cases hbb : b' = b
    · subst hbb
      simp only [update_self, mem_cons, hq, false_or]
      exact hp.sameMem b' hb' q
    · simp only [update_of_ne hbb]
      exact hp.sameMem b' hb' q

theorem Pages.pushRef (hlt : r < npagerefs) (htype : p.blocktype = b)
    (hrun : (p.pageaddr, 1) ∈ h.runs) (hnew : ∀ q ∈ all, (h.pagerefs q).pageaddr ≠ p.pageaddr)
    (hok : PageOk mem p fl) (hmem : ∀ q ∈ all, ∀ x ∈ free q, mem x = h.mem x) :
    Pages (h.pushRef r b p mem) (r :: all) (update same b (r :: same b)) (update free r fl) := by
  have hself : (h.pushRef r b p mem).pagerefs r = p := update_self ..
  have hold : ∀ q ∈ all, (h.pushRef r b p mem).pagerefs q = h.pagerefs q ∧ q ≠ r := by
    intro q hq
    have hqr : q ≠ r := by
      rintro rfl
      exact hr hq
    exact ⟨update_of_ne hqr _ _, hqr⟩
  refine ⟨hp.allChain.push hr, nodup_cons.mpr ⟨hr, hp.allNodup⟩,
    List.forall_mem_cons.mpr ⟨hlt, hp.allLt⟩, fun _ hb' => hp.sameChain_push hr hb',
    fun _ hb' => hp.sameNodup_push hr hb', fun _ hb' _ => hp.sameMem_push hr htype hb', ?_, ?_, ?_,
    hp.runsOk, hp.runsApart⟩
  · intro q hq
    rcases mem_cons.mp hq with rfl | hq
    · rw [hself, update_self]
      exact hok
    · rw [(hold q hq).1, update_of_ne (hold q hq).2]
      exact (hp.page q hq).congr (hmem q hq)
  · intro q hq
    rcases mem_cons.mp hq with rfl | hq
    · rw [hself]
      exact hrun
    · rw [(hold q hq).1]
      exact hp.run q hq
  · intro q hq q' hq' heq
    rcases mem_cons.mp hq with rfl | hqa <;> rcases mem_cons.mp hq' with rfl | hqa'
    · rfl
    · rw [hself, (hold q' hqa').1] at heq
      exact (hnew q' hqa' heq.symm).elim
    · rw [hself, (hold q hqa).1] at heq
      exact (hnew q hqa heq).elim
    · rw [(hold q hqa).1, (hold q' hqa').1] at heq
      exact hp.inj q hqa q' hqa' heq

end pushRef

theorem Pages.newPage (hp : Pages h all same free) (hb : b < nsizes) (hrun : (a, 1) ∈ h.runs)
    (hnew : ∀ q ∈ all, (h.pagerefs q).pageaddr ≠ a) (hr : r ∉ all) (hlt : r < npagerefs) :
    ∃ h', h.newPage r a b = .ok h' ∧
      (h'.pagerefs r).pageaddr = a ∧ (h'.pagerefs r).blocktype = b ∧
      (∀ q, q ≠ r → h'.pagerefs q = h.pagerefs q) ∧
      h'.runs = h.runs ∧ h'.pagerefsInuse = h.pagerefsInuse ∧
      Pages h' (r :: all) (update same b (r :: same b))
        (update free r (slotsDown a (sizes b) (pageSize / sizes b - 1))) := by
  obtain ⟨hsz, -, -, htwo⟩ := sizes_spec hb
  obtain ⟨hal, hlo, -, -⟩ := hp.runsOk _ hrun
  have hlo : (0x80000000 : Nat) ≤ a := hlo
  obtain ⟨mem', hlink, hchain, hsame⟩ :=
    linkBlocks_spec (by omega : 0 < a) (by omega : 0 < sizes b) h.mem (pageSize / sizes b - 1)
  obtain ⟨hpage, htype⟩ : (newPageref a b).pageaddr = a ∧ (newPageref a b).blocktype = b :=
    mkpab_spec hal hb _ _
  have hoff : a + (pageSize / sizes b - 1) * sizes b - a = (pageSize / sizes b - 1) * sizes b := by
    omega
  have hrun' : h.newPage r a b = .ok (h.pushRef r b (newPageref a b) mem') := by
    simp only [Heap.newPage, hlink, bind, Except.bind, hoff, if_true]
    rfl
  have hself : (h.pushRef r b (newPageref a b) mem').pagerefs r = newPageref a b :=
    update_self ..
  refine ⟨_, hrun', by rw [hself, hpage], by rw [hself, htype],
    fun q hq => update_of_ne hq _ _, rfl, rfl, ?_⟩
  refine hp.pushRef hr hlt htype (by rw [hpage]; exact hrun) (by rw [hpage]; exact hnew)
    (pageOk_newPageref hal hb hchain) ?_
  -- a free block of another page is outside the new one
  intro q hq x hx
  refine hsame x fun i hi heq => ?_
  have hx' := (hp.page q hq).slot_range hx
  have hi' := slot_end_le hb (i := i) (by omega)
  have hap := hp.apart (hp.run q hq) hrun fun heq' => hnew q hq (Prod.ext_iff.mp heq').1
  unfold Apart at hap
  omega

end pages

end OS161.Kheap
