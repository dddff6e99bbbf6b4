import OS161.Kheap.Blocks

/-! The heap over every sequence of `kmalloc`, `kfree` and stores to blocks in use. -/
namespace OS161.Kheap

open Function (update update_self update_of_ne)

open Linked

section kfree
variable {s s' : State} {h h' : Heap} {all : List Nat} {same free : Nat → List Nat} {r ptr : Nat}
  {b b' : Block} {live : List Block} {e : Event} {M : Type} {src : PageSource M} {m : M}

theorem LiveOk.mem_erase (hl : LiveOk h all free live) (hb : b ∈ live)
    (hb' : b' ∈ live.erase b) : b' ∈ live ∧ b'.ptr ≠ b.ptr := by
  have hmem := List.mem_of_mem_erase hb'
  refine ⟨hmem, fun hptr => ?_⟩
  obtain rfl := List.inj_on_of_nodup_map hl.nodup hmem hb hptr
  exact (List.Nodup.of_map _ hl.nodup).not_mem_erase hb'

theorem LiveOk.erase {all' : List Nat} {free' : Nat → List Nat} (hl : LiveOk h all free live)
    (hb : b ∈ live)
    (hsmall : ∀ b' ∈ live, b'.ptr ≠ b.ptr → ∀ r ∈ all, (h.pagerefs r).Slot b'.ptr →
      b'.ptr ∉ free r → r ∈ all' ∧ b'.ptr ∉ free' r)
    (hpab : ∀ r ∈ all, (h'.pagerefs r).pageaddrAndBlocktype
      = (h.pagerefs r).pageaddrAndBlocktype)
    (hlarge : ∀ b' ∈ live, b'.ptr ≠ b.ptr → (b'.ptr, Heap.npagesFor b'.sz) ∈ h.runs →
      (∀ r ∈ all, (h.pagerefs r).pageaddr ≠ b'.ptr) →
      (b'.ptr, Heap.npagesFor b'.sz) ∈ h'.runs)
    (hsub : ∀ r ∈ all', r ∈ all) : LiveOk h' all' free' (live.erase b) := by
  refine ⟨?_, ?_, ?_, fun b' hb' => hl.request b' (hl.mem_erase hb hb').1⟩
  · intro b' hb' hsz
    obtain ⟨hmem, hne⟩ := hl.mem_erase hb hb'
    obtain ⟨r, hr, ht, hs, hnf⟩ := hl.small b' hmem hsz
    obtain ⟨hr', hnf'⟩ := hsmall b' hmem hne r hr hs hnf
    refine ⟨r, hr', ?_, ?_, hnf'⟩
    · simpa only [Pageref.blocktype, hpab r hr] using ht
    · simpa only [Pageref.Slot, Pageref.pageaddr, Pageref.blocktype, hpab r hr] using hs
  · intro b' hb' hsz
    obtain ⟨hmem, hne⟩ := hl.mem_erase hb hb'
    obtain ⟨hrun, hpage⟩ := hl.large b' hmem hsz
    refine ⟨hlarge b' hmem hne hrun hpage, fun r hr => ?_⟩
    simpa only [Pageref.pageaddr, hpab r (hsub r hr)] using hpage r (hsub r hr)
  · exact hl.nodup.sublist (List.erase_sublist.map Block.ptr)

theorem Pages.findRef (hp : Pages h all same free) (ptr : Nat) :
    h.findRef ptr = .ok (all.find? fun r =>
      decide ((h.pagerefs r).pageaddr ≤ ptr ∧ ptr < (h.pagerefs r).pageaddr + pageSize)) := by
  refine hp.allChain.scan_eq hp.length_le fun r hr => ?_
  exact if_pos (hp.page r hr).blocktype

theorem Pages.findRef_slot (hp : Pages h all same free) (hr : r ∈ all)
    (hs : (h.pagerefs r).Slot ptr) : h.findRef ptr = .ok (some r) := by
  have hrange := hs.range (hp.page r hr).blocktype
  have hlt := hs.lt (hp.page r hr).blocktype
  rw [hp.findRef]
  cases hf : all.find? fun r =>
      decide ((h.pagerefs r).pageaddr ≤ ptr ∧ ptr < (h.pagerefs r).pageaddr + pageSize) with
  | none =>
    have := List.find?_eq_none.mp hf r hr
    simp only [decide_eq_true_eq] at this
    exact (this ⟨hrange.1, hlt⟩).elim
  | some q =>
    have hq := List.mem_of_find?_eq_some hf
    have hin := List.find?_some hf
    rw [decide_eq_true_eq] at hin
    have hqr : q = r := by
      by_contra hne
      have hap := hp.pages_apart hq hr hne
      unfold Apart at hap
      omega
    rw [hqr]

theorem pushFree_pab (h : Heap) (r ptr q : Nat) :
    ((h.pushFree r ptr).pagerefs q).pageaddrAndBlocktype = (h.pagerefs q).pageaddrAndBlocktype := by
  by_cases hq : q = r
  · subst hq
    simp [Heap.pushFree]
  · simp [Heap.pushFree, hq]

theorem pushFree_blocktype (h : Heap) (r ptr q : Nat) :
    ((h.pushFree r ptr).pagerefs q).blocktype = (h.pagerefs q).blocktype := by
  simp only [Pageref.blocktype, pushFree_pab]

/-- What `kfree` gives back of the pages that are out: nothing, or the run that starts at `a`. -/
inductive Returned (src : PageSource M) (m : M) (h : Heap) : Heap → M → Prop where
  | block {h' : Heap} (hruns : h'.runs = h.runs) : Returned src m h h' m
  | pages {h' : Heap} {a n : Nat} (ha : (a, n) ∈ h.runs)
      (hruns : h'.runs = h.runs.filter fun x => x.1 ≠ a) : Returned src m h h' (src.free a m)

def Freed (src : PageSource M) (m : M) (s : State) (b : Block) : Prop :=
  ∃ h' m', s.heap.kfree src m b.ptr = .ok (h', m') ∧ State.Sound ⟨h', s.live.erase b⟩ ∧
    Returned src m s.heap h' m'

section
variable (hi : HeapInv s all same free)
include hi

section
variable (hb : b ∈ s.live)
include hb

/-- With a block still in use the page stays. -/
theorem HeapInv.pushFree (hr : r ∈ all)
    (hs : (s.heap.pagerefs r).Slot b.ptr) (hnf : b.ptr ∉ free r) :
    HeapInv ⟨s.heap.pushFree r b.ptr, s.live.erase b⟩ all same
      (update free r (b.ptr :: free r)) := by
  refine ⟨hi.inuse, hi.pages.pushFree hr hs hnf, ?_⟩
  refine hi.live.erase hb ?_ (fun q _ => pushFree_pab _ _ _ q) (fun _ _ _ hrun _ => hrun)
    fun q hq => hq
  intro b' hb' hne q hq hs' hnf'
  refine ⟨hq, ?_⟩
  by_cases hqr : q = r
  · subst hqr
    rw [update_self]
    exact fun hmem => (List.mem_cons.mp hmem).elim hne hnf'
  · rwa [update_of_ne hqr]

/-- With its last block the page goes, and its page reference. -/
theorem HeapInv.releasePage (hr : r ∈ all)
    (hs : (s.heap.pagerefs r).Slot b.ptr) (hnf : b.ptr ∉ free r)
    (hfull : (b.ptr :: free r).length = pageSize / sizes (s.heap.pagerefs r).blocktype) :
    ∃ h₁ h', (s.heap.pushFree r b.ptr).removeLists r (s.heap.pagerefs r).blocktype = .ok h₁ ∧
      (h₁.freeKpages (s.heap.pagerefs r).pageaddr).freepageref r = .ok h' ∧
      h'.runs = s.heap.runs.filter (fun x => x.1 ≠ (s.heap.pagerefs r).pageaddr) ∧
      ∃ same' free', HeapInv ⟨h', s.live.erase b⟩ (all.erase r) same' free' := by
  have hpush := hi.pages.pushFree hr hs hnf
  have hpab := pushFree_pab s.heap r b.ptr
  have htype := pushFree_blocktype s.heap r b.ptr r
  have haddr : ((s.heap.pushFree r b.ptr).pagerefs r).pageaddr
      = (s.heap.pagerefs r).pageaddr := by simp only [Pageref.pageaddr, hpab r]
  have hk := hpush.page r hr
  rw [update_self] at hk
  obtain ⟨h₁, hremove, hrefs, hruns, hinuse, hpages⟩ := hpush.removePage hr
  rw [htype] at hremove
  rw [haddr] at hpages
  have hbits : ∀ q, (h₁.freeKpages (s.heap.pagerefs r).pageaddr).InUse q ↔ s.heap.InUse q := by
    intro q
    simp only [Heap.InUse, Heap.freeKpages, hinuse]
    rfl
  obtain ⟨f, hfree, hclear⟩ := Heap.freepageref_spec ((hbits r).mpr ((hi.inuse r).mp hr))
  refine ⟨h₁, _, hremove, hfree, congrArg _ hruns, _, _, fun q => ?_, { hpages with }, ?_⟩
  · rw [hclear q, hbits q, ← hi.inuse q, hi.pages.allNodup.mem_erase_iff]
  refine hi.live.erase hb ?_ ?_ ?_ fun q hq => List.mem_of_mem_erase hq
  · intro b' hb' hne q hq hs' hnf'
    have hqr : q ≠ r := by
      rintro rfl
      have hslot : ((s.heap.pushFree q b.ptr).pagerefs q).Slot b'.ptr := by
        simpa only [Pageref.Slot, Pageref.pageaddr, Pageref.blocktype, hpab q] using hs'
      rcases List.mem_cons.mp (hk.full (htype ▸ hfull) hslot) with heq | hmem
      · exact hne heq
      · exact hnf' hmem
    refine ⟨(List.mem_erase_of_ne hqr).mpr hq, ?_⟩
    rwa [update_of_ne hqr]
  · intro q _
    simp only [Heap.freeKpages, hrefs, hpab q]
  · intro b' hb' hne hrun hpage
    simp only [Heap.freeKpages, hruns]
    exact List.mem_filter.mpr ⟨hrun, decide_eq_true fun heq => hpage r hr heq.symm⟩

variable (src m) in
theorem HeapInv.kfree_small (hsz : b.sz < largestSubpageSize) : Freed src m s b := by
  obtain ⟨r, hr, ht, hs, hnf⟩ := hi.live.small b hb hsz
  have hk := hi.pages.page r hr
  have hrange := hs.range hk.blocktype
  have hlt := hs.lt hk.blocktype
  have hpos := hi.pages.page_pos hr
  have hfind := hi.pages.findRef_slot hr hs
  have hpush := (hi.pages.pushFree hr hs hnf).page r hr
  rw [update_self] at hpush
  have hle := hpush.card_le
  rw [pushFree_blocktype] at hle
  have hcheck : ¬ (pageSize ≤ b.ptr - (s.heap.pagerefs r).pageaddr ∨
      (b.ptr - (s.heap.pagerefs r).pageaddr) % sizes (s.heap.pagerefs r).blocktype ≠ 0) := by
    obtain ⟨i, -, hptr⟩ := hs
    rintro (hc | hc)
    · omega
    · rw [hptr, Nat.add_sub_cancel_left, Nat.mul_mod_left] at hc
      exact hc rfl
  by_cases hfull : (b.ptr :: free r).length = pageSize / sizes (s.heap.pagerefs r).blocktype
  · obtain ⟨h₁, h', hremove, hfree, hruns, same', free', hinv⟩ :=
      hi.releasePage hb hr hs hnf hfull
    refine ⟨h', _, ?_, ⟨_, same', free', hinv⟩, .pages (hi.pages.run r hr) hruns⟩
    simp only [Heap.kfree, Heap.subpageKfree, hfind, bind, Except.bind, if_neg hcheck, hpush.nfree,
      if_pos hle, if_pos hfull, hremove, hfree, if_neg (show b.ptr ≠ 0 by omega)]
    rfl
  · refine ⟨s.heap.pushFree r b.ptr, m, ?_, ⟨all, same, _, hi.pushFree hb hr hs hnf⟩, .block rfl⟩
    simp only [Heap.kfree, Heap.subpageKfree, hfind, bind, Except.bind, if_neg hcheck, hpush.nfree,
      if_pos hle, if_neg hfull, if_neg (show b.ptr ≠ 0 by omega)]
    rfl

variable (src m) in
theorem HeapInv.kfree_large (hsz : largestSubpageSize ≤ b.sz) : Freed src m s b := by
  obtain ⟨hrun, hne⟩ := hi.live.large b hb hsz
  obtain ⟨hal, hlo, -, hpos⟩ := hi.pages.runsOk _ hrun
  have hlo : (0x80000000 : Nat) ≤ b.ptr := hlo
  have hnone : s.heap.findRef b.ptr = .ok none := by
    rw [hi.pages.findRef, List.find?_eq_none.mpr]
    intro q hq
    simp only [decide_eq_true_eq]
    rintro ⟨hle, hlt⟩
    have hap := hi.pages.apart (hi.pages.run q hq) hrun fun heq =>
      hne q hq (Prod.ext_iff.mp heq).1
    have : 1 * pageSize ≤ Heap.npagesFor b.sz * pageSize := Nat.mul_le_mul_right _ hpos
    unfold Apart at hap
    unfold pageSize at this hap hlt
    omega
  refine ⟨s.heap.freeKpages b.ptr, _, ?_,
    ⟨all, same, free, hi.inuse, hi.pages.freeKpages hne, ?_⟩, .pages hrun rfl⟩
  · simp only [Heap.kfree, Heap.subpageKfree, hnone, bind, Except.bind,
      if_neg (show b.ptr ≠ 0 by omega)]
    exact if_pos hal
  · refine hi.live.erase hb (fun b' _ _ r hr _ hnf => ⟨hr, hnf⟩) (fun _ _ => rfl) ?_ fun _ hq => hq
    intro b' _ hptr hrun' _
    exact List.mem_filter.mpr ⟨hrun', decide_eq_true hptr⟩

variable (src m) in
theorem HeapInv.kfree : Freed src m s b := by
  by_cases hsz : b.sz < largestSubpageSize
  · exact hi.kfree_small src m hb hsz
  · exact hi.kfree_large src m hb (Nat.le_of_not_lt hsz)

end

variable (src m) in
theorem HeapInv.kmalloc {sz : Nat} (hmax : sz ≤ maxRequest)
    (hfresh : ∀ a m', src.alloc (pagesAsked sz) m = (some a, m') →
      s.heap.Fresh (pagesAsked sz) a) :
    ∃ ret h' m', s.heap.kmalloc src m sz = .ok (ret, h', m') ∧
      State.Sound ⟨h', s.liveAfter sz ret⟩ ∧ Given src m s.heap sz ret h' m' := by
  unfold Heap.kmalloc
  by_cases hsz : largestSubpageSize ≤ sz
  · have hasked : pagesAsked sz = Heap.npagesFor sz := if_pos hsz
    rw [if_pos hsz, Heap.allocKpages]
    rw [hasked] at hfresh
    cases ha : src.alloc (Heap.npagesFor sz) m with
    | mk found m' =>
      cases found with
      | none =>
        exact ⟨none, _, m', rfl, ⟨all, same, free, hi⟩, .failed rfl (.inr (hasked ▸ ha))⟩
      | some a =>
        exact ⟨some a, _, m', rfl, ⟨all, same, free, hi.kmallocLarge hsz hmax (hfresh a m' ha)⟩,
          .pages hasked ha⟩
  · rw [if_neg hsz]
    simp only [pagesAsked, if_neg hsz] at hfresh
    exact hi.subpageKmalloc (Nat.lt_of_not_le hsz) hfresh

theorem HeapInv.store {a w : Nat} (ha : s.Writable a) :
    HeapInv { s with heap := { s.heap with mem := update s.heap.mem a w } }
      all same free := by
  refine ⟨hi.inuse, hi.pages.setMem fun r hr x hx => update_of_ne ?_ _ _, { hi.live with }⟩
  rintro rfl
  have hrange := (hi.pages.page r hr).slot_range hx
  obtain ⟨b, hb, hle, hlt⟩ := ha r ((hi.inuse r).mp hr) hrange.1 hrange.2
  have hap := hi.live.free_apart hi.pages hb hr hx
  have := (sizes_spec (hi.pages.page r hr).blocktype).1
  omega

end

theorem State.Sound.step (hs : Step s e s') (hi : s.Sound) : s'.Sound := by
  obtain ⟨all, same, free, hi⟩ := hi
  cases hs with
  | @kmalloc _ found _ _ hsz hfresh hr =>
    obtain ⟨ret, h', m', hrun, hinv, -⟩ := hi.kmalloc (.any found) () hsz (by
      rintro a _ ⟨⟩
      exact hfresh a rfl)
    rw [hr] at hrun
    cases hrun
    exact hinv
  | kfree hb hr =>
    obtain ⟨h', m', hrun, hinv, -⟩ := hi.kfree (.any none) () hb
    rw [hr] at hrun
    cases hrun
    exact hinv
  | store ha => exact ⟨all, same, free, hi.store ha⟩

theorem heapInv_init (h0 : Init s) : HeapInv s [] (fun _ => []) fun _ => [] := by
  refine ⟨fun r => ?_, ⟨?_, List.nodup_nil, by simp, ?_, fun _ _ => List.nodup_nil, ?_, by simp,
    by simp, by simp, ?_, ?_⟩, ?_⟩
  · simp [Heap.InUse, h0.inuse]
  · exact h0.allbase
  · intro b _
    exact h0.sizebases b
  · simp
  · simp [h0.runs]
  · simp [h0.runs]
  · refine ⟨?_, ?_, ?_, ?_⟩ <;> simp [h0.live]

theorem heapInv_reachable (h : Lts.Reachable Init Step s) : s.Sound :=
  h.invariant State.Sound (fun _ h0 => ⟨_, _, _, heapInv_init h0⟩) fun _ _ _ => State.Sound.step

end kfree

/-- The bookkeeping of the subpage allocator agrees with itself and with the blocks in use. -/
structure Consistent (s : State) : Prop where
  /-- `allbase` has every pageref in use once. -/
  all : ∃ l, Chain s.heap.nextAll s.heap.allbase l ∧ l.Nodup ∧ ∀ r, r ∈ l ↔ s.heap.InUse r
  /-- Every pageref in use is on one of the lists of `sizebases`, the one of its block type. -/
  same : ∃ l : Nat → List Nat,
    (∀ b, b < nsizes → Chain s.heap.nextSamesize (s.heap.sizebases b) (l b) ∧ (l b).Nodup) ∧
    ∀ b, b < nsizes → ∀ r, r ∈ l b ↔ s.heap.InUse r ∧ (s.heap.pagerefs r).blocktype = b
  blocktype : ∀ r, s.heap.InUse r → (s.heap.pagerefs r).blocktype < nsizes
  /-- The free list of a page: `nfree` different blocks of the page, none of them in use. -/
  free : ∀ r, s.heap.InUse r → ∃ l, Chain (link s.heap.mem) (s.heap.pagerefs r).head l ∧ l.Nodup ∧
    l.length = (s.heap.pagerefs r).nfree ∧ (∀ x ∈ l, (s.heap.pagerefs r).Slot x) ∧
    ∀ x ∈ l, ∀ b ∈ s.live, b.ptr + b.len ≤ x ∨ x + sizes (s.heap.pagerefs r).blocktype ≤ b.ptr
  offset : ∀ r, s.heap.InUse r →
    ((s.heap.pagerefs r).freelistOffset = invalidOffset ↔ (s.heap.pagerefs r).nfree = 0)

/-- No call that keeps to the rules stops at an assertion, panics or runs for ever, and the checks
that SLOW turns on pass. -/
structure NoCrash (s : State) : Prop where
  kmalloc : ∀ sz found, sz ≤ maxRequest →
    (∀ a, found = some a → s.heap.Fresh (pagesAsked sz) a) →
    ∃ ret h, s.heap.kmalloc (.any found) () sz = .ok (ret, h, ())
  kfree : ∀ b ∈ s.live, ∃ h, s.heap.kfree (.any none) () b.ptr = .ok (h, ())
  checksubpage : ∀ r, s.heap.InUse r → s.heap.checksubpage r = .ok ()

section
variable {s : State} {all : List Nat} {same free : Nat → List Nat} {b : Block}

theorem HeapInv.consistent (hi : HeapInv s all same free) : Consistent s := by
  have hpage : ∀ r, s.heap.InUse r → PageOk s.heap.mem (s.heap.pagerefs r) (free r) :=
    fun r hr => hi.pages.page r ((hi.inuse r).mpr hr)
  refine ⟨⟨all, hi.pages.allChain, hi.pages.allNodup, hi.inuse⟩,
    ⟨same, fun b hb => ⟨hi.pages.sameChain b hb, hi.pages.sameNodup b hb⟩, ?_⟩,
    fun r hr => (hpage r hr).blocktype, ?_, ?_⟩
  · intro b hb r
    rw [hi.pages.sameMem b hb r, hi.inuse r]
  · intro r hr
    have hk := hpage r hr
    exact ⟨free r, hk.chain, hk.nodup, hk.nfree.symm, hk.slots,
      fun x hx b hb => hi.live.free_apart hi.pages hb ((hi.inuse r).mpr hr) hx⟩
  intro r hr
  have hk := hpage r hr
  rw [hk.nfree, List.length_eq_zero_iff]
  by_cases hoff : (s.heap.pagerefs r).freelistOffset = invalidOffset
  · have hchain := hk.chain
    rw [Pageref.head, if_pos hoff, chain_none_iff] at hchain
    exact iff_of_true hoff hchain
  · have hchain := hk.chain
    refine iff_of_false hoff fun hnil => ?_
    rw [hnil, Pageref.head, if_neg hoff] at hchain
    cases hchain

/-- The address of a block is a multiple of its block size, or of the page size for large blocks. -/
theorem HeapInv.aligned (hi : HeapInv s all same free) (hb : b ∈ s.live) : b.ptr % b.align = 0 := by
  by_cases hsz : b.sz < largestSubpageSize
  · obtain ⟨r, hr, ht, ⟨i, -, hptr⟩, -⟩ := hi.live.small b hb hsz
    have hal := (hi.pages.runsOk _ (hi.pages.run r hr)).1
    obtain ⟨-, -, hmul, -⟩ := sizes_spec (hi.pages.page r hr).blocktype
    rw [Block.align, if_neg (Nat.not_le_of_lt hsz), ← ht, hptr]
    have hdvd : sizes (s.heap.pagerefs r).blocktype ∣ (s.heap.pagerefs r).pageaddr :=
      Nat.dvd_trans ⟨_, by rw [Nat.mul_comm]; exact hmul.symm⟩ (Nat.dvd_of_mod_eq_zero hal)
    exact Nat.mod_eq_zero_of_dvd (Nat.dvd_add hdvd (Nat.dvd_mul_left _ _))
  · have hsz := Nat.le_of_not_lt hsz
    rw [Block.align, if_pos hsz]
    exact (hi.pages.runsOk _ (hi.live.large b hb hsz).1).1

theorem checkFreelist_ok {h : Heap} {prpage sz fuel : Nat} {head : Option Nat} {l : List Nat}
    (hc : Chain (link h.mem) head l) (hfuel : l.length ≤ fuel)
    (hok : ∀ fl ∈ l, prpage ≤ fl ∧ fl < prpage + pageSize ∧ (fl - prpage) % sz = 0 ∧
      mipsKseg0.toNat ≤ fl ∧ fl < mipsKseg1) :
    h.checkFreelist prpage sz fuel head = .ok l.length := by
  induction l generalizing fuel head with
  | nil =>
    rw [show head = none from hc]
    cases fuel <;> rfl
  | cons fl l ih =>
    obtain ⟨rfl, hl⟩ := hc
    obtain ⟨fuel, rfl⟩ : ∃ n, fuel = n + 1 :=
      Nat.exists_eq_add_one.mpr (Nat.lt_of_lt_of_le (Nat.succ_pos _) hfuel)
    rw [Heap.checkFreelist, if_pos (hok fl List.mem_cons_self),
      ih hl (Nat.le_of_succ_le_succ hfuel) fun x hx => hok x (List.mem_cons_of_mem fl hx)]
    rfl

theorem HeapInv.checksubpage (hi : HeapInv s all same free) {r : Nat} (hr : r ∈ all) :
    s.heap.checksubpage r = .ok () := by
  have hk := hi.pages.page r hr
  obtain ⟨-, hlo, hhi, -⟩ := hi.pages.runsOk _ (hi.pages.run r hr)
  have hlen := hk.card_le
  simp only [Heap.checksubpage]
  by_cases hoff : (s.heap.pagerefs r).freelistOffset = invalidOffset
  · have hchain := hk.chain
    rw [Pageref.head, if_pos hoff, chain_none_iff] at hchain
    rw [if_pos hoff, hk.nfree, hchain]
    rfl
  have hchain := hk.chain
  rw [Pageref.head, if_neg hoff] at hchain
  have hfree : (s.heap.pagerefs r).pageaddr + (s.heap.pagerefs r).freelistOffset ∈ free r := by
    cases hf : free r with
    | nil =>
      rw [hf] at hchain
      cases hchain
    | cons x l =>
      rw [hf] at hchain
      rw [Option.some.inj hchain.1]
      exact List.mem_cons_self
  have hmod : ∀ x, (s.heap.pagerefs r).Slot x →
      (x - (s.heap.pagerefs r).pageaddr) % sizes (s.heap.pagerefs r).blocktype = 0 := by
    rintro x ⟨i, -, rfl⟩
    rw [Nat.add_sub_cancel_left, Nat.mul_mod_left]
  have hoffmod := hmod _ (hk.slots _ hfree)
  rw [Nat.add_sub_cancel_left] at hoffmod
  have hfuel : (free r).length ≤ pageSize := Nat.le_trans hlen (Nat.div_le_self _ _)
  have hok : ∀ fl ∈ free r, (s.heap.pagerefs r).pageaddr ≤ fl ∧
      fl < (s.heap.pagerefs r).pageaddr + pageSize ∧
      (fl - (s.heap.pagerefs r).pageaddr) % sizes (s.heap.pagerefs r).blocktype = 0 ∧
      mipsKseg0.toNat ≤ fl ∧ fl < mipsKseg1 := by
    intro fl hfl
    have hrange := hk.slot_range hfl
    refine ⟨hrange.1, hrange.2, hmod fl (hk.slots fl hfl), Nat.le_trans hlo hrange.1, ?_⟩
    exact Nat.lt_of_lt_of_le hrange.2 (by simpa using hhi)
  rw [if_neg hoff, if_pos ⟨hk.offset hoff, hoffmod⟩, checkFreelist_ok hchain hfuel hok]
  exact if_pos hk.nfree.symm

/-- In every state that calls of `kmalloc` and `kfree` reach, the blocks in use do not overlap, have
the bytes asked for and are aligned; the allocator's bookkeeping is consistent; and no call fails an
assertion. -/
theorem heap_separation (h : Lts.Reachable Init Step s) :
    s.live.Pairwise (fun a b => a.ptr + a.len ≤ b.ptr ∨ b.ptr + b.len ≤ a.ptr) ∧
    (∀ b ∈ s.live, b.sz ≤ b.len ∧ b.ptr % b.align = 0) ∧ Consistent s ∧ NoCrash s := by
  obtain ⟨all, same, free, hi⟩ := heapInv_reachable h
  refine ⟨?_, fun b hb => ⟨(Block.le_len (hi.live.request b hb)).1, hi.aligned hb⟩, hi.consistent,
    ?_, ?_, fun r hr => hi.checksubpage ((hi.inuse r).mpr hr)⟩
  · have hnd : s.live.Pairwise fun a b => a.ptr ≠ b.ptr := List.pairwise_map.mp hi.live.nodup
    refine hnd.imp_of_mem fun ha hb hne => ?_
    exact hi.live.apart hi.pages ha hb hne
  · intro sz found hsz hfresh
    obtain ⟨ret, h', m', hrun, -⟩ := hi.kmalloc (.any found) () hsz (by
      rintro a _ ⟨⟩
      exact hfresh a rfl)
    exact ⟨ret, h', hrun⟩
  · intro b hb
    obtain ⟨h', m', hrun, -⟩ := hi.kfree (.any none) () hb
    exact ⟨h', hrun⟩

end

def empty : State :=
  ⟨⟨fun _ => ⟨0, 0, 0⟩, fun _ => none, fun _ => none, fun _ => 0#32, fun _ => none, none,
    fun _ => 0, []⟩, []⟩

theorem empty_reachable : Lts.Reachable Init Step empty :=
  .of_init ⟨fun _ => rfl, fun _ => rfl, rfl, rfl, rfl⟩

theorem empty_fresh (a : Nat) (h : some 0x80001000 = some a) :
    empty.heap.Fresh (pagesAsked 2000) a := by
  cases h
  exact ⟨by decide, by decide, by rintro _ ⟨⟩⟩

/-- Two requests that share a page, a third for which there is none left, and one block freed. -/
theorem heap_separation_page :
    ∃ s, Lts.Reachable Init Step s ∧ s.live = [⟨0x80001000, 1500⟩] ∧ Consistent s := by
  have hone := empty_reachable.next (.kmalloc (by decide) empty_fresh rfl)
  have htwo := hone.next
    (.kmalloc (by decide : 1500 ≤ maxRequest) ((by simp) : ∀ a, none = some a → _) rfl)
  have hthree :=
    htwo.next (.kmalloc (by decide : 1500 ≤ maxRequest) ((by simp) : ∀ a, none = some a → _) rfl)
  have hfour := hthree.next (.kfree (b := ⟨0x80001800, 2000⟩) (by decide +kernel) rfl)
  exact ⟨_, hfour, by decide +kernel, (heap_separation hfour).2.2.1⟩

end OS161.Kheap
