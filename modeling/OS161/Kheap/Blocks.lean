import OS161.Kheap.Pages

/-! The blocks in use: `kmalloc` and `kfree` keep them apart and never stop. -/
namespace OS161.Kheap

open List (nodup_cons mem_filter mem_cons_of_mem mem_cons mem_map mem_cons_self)

open Linked
open Function (update_self update_of_ne update)

section free
variable {h h' : Heap} {all : List Nat} {same free : Nat → List Nat} {r b x ptr : Nat}
  {mem : Nat → Nat} {l : List Nat}

theorem fillDeadbeef_outside (len : Nat) (hx : x < ptr ∨ ptr + len ≤ x) :
    fillDeadbeef mem ptr len x = mem x := by
  refine Loop.upTo_inv (P := fun _ (m : Nat → Nat) => m x = mem x) rfl ?_
  intro k m hk hm
  rw [update_of_ne (by omega), hm]

theorem Pages.pushFree (hp : Pages h all same free) (hr : r ∈ all)
    (hs : (h.pagerefs r).Slot ptr) (hnf : ptr ∉ free r) :
    Pages (h.pushFree r ptr) all same (update free r (ptr :: free r)) := by
  have hk := hp.page r hr
  have hrange := hs.range hk.blocktype
  have hsz := (sizes_spec hk.blocktype).1
  have hpos := hp.page_pos hr
  have haddr : (h.pagerefs r).pageaddr + (ptr - (h.pagerefs r).pageaddr) = ptr := by omega
  have hoff : ptr - (h.pagerefs r).pageaddr < pageSize := by omega
  -- only the block itself is written to
  have hmem : ∀ x, x < ptr ∨ ptr + sizes (h.pagerefs r).blocktype ≤ x →
      (h.pushFree r ptr).mem x = h.mem x := by
    intro x hx
    have hne : x ≠ ptr := by omega
    simp only [Heap.pushFree, haddr, update_of_ne hne]
    exact fillDeadbeef_outside _ hx
  have hspare : ∀ q ∈ all, ∀ x ∈ free q, (h.pushFree r ptr).mem x = h.mem x := by
    intro q hq x hx
    apply hmem
    by_cases hqr : q = r
    · subst hqr
      have hne : x ≠ ptr := by
        rintro rfl
        exact hnf hx
      exact (hk.slots x hx).apart hs hne |>.imp (fun _ => by omega) id
    · have hap := hp.pages_apart hq hr hqr
      have hx' := (hp.page q hq).slot_range hx
      unfold Apart at hap
      omega
  refine (hp.setMem hspare).setRef (r := r) rfl ?_
  have hk' := hk.congr (hspare r hr)
  have hinv : ptr - (h.pagerefs r).pageaddr ≠ invalidOffset := by
    unfold invalidOffset
    unfold pageSize at hoff
    omega
  refine ⟨hk.blocktype, ⟨?_, ?_⟩, nodup_cons.mpr ⟨hnf, hk.nodup⟩,
    List.forall_mem_cons.mpr ⟨hs, hk.slots⟩, ?_, fun _ => hoff⟩
  · simp only [Pageref.head, hinv, if_false]
    exact congrArg some haddr
  · have hlink : link (h.pushFree r ptr).mem ptr = (h.pagerefs r).head := by
      simp only [link, Heap.pushFree, haddr, update_self, Pageref.head]
      split
      · rfl
      · rw [if_neg (by omega)]
    rw [show link (h.pushFree r ptr).mem ptr = _ from hlink]
    exact hk'.chain
  · rw [List.length_cons, ← hk.nfree]

theorem nodup_length_le {n : Nat} (hnd : l.Nodup) (hlt : ∀ x ∈ l, x < n) : l.length ≤ n := by
  rw [← List.toFinset_card_of_nodup hnd, ← Finset.card_range n]
  refine Finset.card_le_card fun x hx => ?_
  exact Finset.mem_range.mpr (hlt x (List.mem_toFinset.mp hx))

section
variable (hp : Pages h all same free)
include hp

theorem Pages.length_le : all.length ≤ npagerefs :=
  nodup_length_le hp.allNodup hp.allLt

theorem Pages.same_length_le (hb : b < nsizes) : (same b).length ≤ npagerefs :=
  nodup_length_le (hp.sameNodup b hb) fun r hr => hp.allLt r ((hp.sameMem b hb r).mp hr).1

/-- `remove_lists` and `free_kpages`: the page leaves both lists. -/
theorem Pages.removePage (hr : r ∈ all) :
    ∃ h', h.removeLists r (h.pagerefs r).blocktype = .ok h' ∧
      h'.pagerefs = h.pagerefs ∧ h'.runs = h.runs ∧ h'.pagerefsInuse = h.pagerefsInuse ∧
      Pages (h'.freeKpages (h.pagerefs r).pageaddr) (all.erase r)
        (fun b => (same b).erase r) free := by
  have hb := (hp.page r hr).blocktype
  have hmem := (hp.sameMem _ hb r).mpr ⟨hr, rfl⟩
  obtain ⟨same', hsame, hschain, hsnext⟩ := Links.remove_eq
    ⟨h.sizebases (h.pagerefs r).blocktype, h.nextSamesize⟩ Crash.hang (hp.sameChain _ hb)
    (hp.sameNodup _ hb) hmem (Nat.le_succ_of_le (hp.same_length_le hb))
  obtain ⟨all', hall, hachain, -⟩ := Links.remove_eq
    ⟨h.allbase, h.nextAll⟩ Crash.hang hp.allChain hp.allNodup hr (Nat.le_succ_of_le hp.length_le)
  have hrun : h.removeLists r (h.pagerefs r).blocktype = .ok { h with
      sizebases := update h.sizebases (h.pagerefs r).blocktype same'.head
      nextSamesize := same'.next
      allbase := all'.head
      nextAll := all'.next } := by
    simp only [Heap.removeLists, if_pos hb, hsame, hall, bind, Except.bind]
    rfl
  refine ⟨_, hrun, rfl, rfl, rfl, ?_⟩
  have hsub : ∀ q ∈ all.erase r, q ∈ all ∧ q ≠ r := fun q hq =>
    ⟨List.mem_of_mem_erase hq, fun hqr => hp.allNodup.not_mem_erase (hqr ▸ hq)⟩
  have hpage : ∀ q ∈ all.erase r, (h.pagerefs q).pageaddr ≠ (h.pagerefs r).pageaddr :=
    fun q hq heq => (hsub q hq).2 (hp.inj q (hsub q hq).1 r hr heq)
  refine ⟨hachain, hp.allNodup.erase r, fun q hq => hp.allLt q (hsub q hq).1, ?_,
    fun b hb => (hp.sameNodup b hb).erase r, ?_, fun q hq => hp.page q (hsub q hq).1,
    ?_, ?_, ?_, ?_⟩
  · intro b' hb'
    by_cases hbb : b' = (h.pagerefs r).blocktype
    · subst hbb
      simp only [Heap.freeKpages, update_self]
      exact hschain
    have hnot : r ∉ same b' := fun hmem' => hbb ((hp.sameMem b' hb' r).mp hmem').2.symm
    simp only [Heap.freeKpages, update_of_ne hbb, List.erase_of_not_mem hnot]
    refine (hp.sameChain b' hb').congr fun q hq => hsnext q ?_
    intro hq'
    exact hbb (((hp.sameMem b' hb' q).mp hq).2.symm.trans ((hp.sameMem _ hb q).mp hq').2)
  · intro b' hb' q
    rw [(hp.sameNodup b' hb').mem_erase_iff, hp.sameMem b' hb', hp.allNodup.mem_erase_iff]
    exact and_assoc.symm
  · intro q hq
    exact mem_filter.mpr ⟨hp.run q (hsub q hq).1, decide_eq_true (hpage q hq)⟩
  · intro q hq q' hq' heq
    exact hp.inj q (hsub q hq).1 q' (hsub q' hq').1 heq
  · intro x hx
    exact hp.runsOk x (mem_filter.mp hx).1
  · exact hp.runsApart.filter _

theorem Pages.freeKpages
    (hne : ∀ r ∈ all, (h.pagerefs r).pageaddr ≠ ptr) : Pages (h.freeKpages ptr) all same free :=
  { hp with
    run := fun r hr => mem_filter.mpr ⟨hp.run r hr, decide_eq_true (hne r hr)⟩
    runsOk := fun x hx => hp.runsOk x (mem_filter.mp hx).1
    runsApart := hp.runsApart.filter _ }

end

end free

/-- Where the blocks in use are: in a place of a page of their block type that is not free, or a run
of pages of their own. -/
structure LiveOk (h : Heap) (all : List Nat) (free : Nat → List Nat) (live : List Block) :
    Prop where
  small : ∀ b ∈ live, b.sz < largestSubpageSize → ∃ r ∈ all,
    (h.pagerefs r).blocktype = classOf b.sz ∧ (h.pagerefs r).Slot b.ptr ∧ b.ptr ∉ free r
  large : ∀ b ∈ live, largestSubpageSize ≤ b.sz →
    (b.ptr, Heap.npagesFor b.sz) ∈ h.runs ∧ ∀ r ∈ all, (h.pagerefs r).pageaddr ≠ b.ptr
  nodup : (live.map Block.ptr).Nodup
  request : ∀ b ∈ live, b.sz ≤ maxRequest

section live
variable {h h' : Heap} {all : List Nat} {same free : Nat → List Nat} {live : List Block}
  {r x sz : Nat} {b b' : Block}

theorem Block.len_small (hb : b.sz < largestSubpageSize) : b.len = sizes (classOf b.sz) :=
  if_neg (Nat.not_le_of_lt hb)

theorem Block.len_large (hb : largestSubpageSize ≤ b.sz) :
    b.len = Heap.npagesFor b.sz * pageSize := if_pos hb

/-- The run of pages a block lies in, with the page reference if it shares it. -/
inductive Home (h : Heap) (all : List Nat) (b : Block) : Nat × Nat → Prop where
  | page {r : Nat} (hr : r ∈ all) (hsz : b.sz < largestSubpageSize)
      (hs : (h.pagerefs r).Slot b.ptr) (ht : (h.pagerefs r).blocktype = classOf b.sz) :
    Home h all b ((h.pagerefs r).pageaddr, 1)
  | own (hsz : largestSubpageSize ≤ b.sz) (hne : ∀ r ∈ all, (h.pagerefs r).pageaddr ≠ b.ptr) :
    Home h all b (b.ptr, Heap.npagesFor b.sz)

theorem LiveOk.home (hl : LiveOk h all free live) (hp : Pages h all same free) (hb : b ∈ live) :
    ∃ x ∈ h.runs, Home h all b x := by
  by_cases hsz : b.sz < largestSubpageSize
  · obtain ⟨r, hr, ht, hs, -⟩ := hl.small b hb hsz
    exact ⟨_, hp.run r hr, .page hr hsz hs ht⟩
  · have hsz := Nat.le_of_not_lt hsz
    obtain ⟨hrun, hne⟩ := hl.large b hb hsz
    exact ⟨_, hrun, .own hsz hne⟩

theorem Home.range {x : Nat × Nat} (hp : Pages h all same free) (hh : Home h all b x) :
    x.1 ≤ b.ptr ∧ b.ptr + b.len ≤ x.1 + x.2 * pageSize := by
  cases hh with
  | page hr hsz hs ht =>
    have hrange := hs.range (hp.page _ hr).blocktype
    rw [Block.len_small hsz, ← ht]
    simp only [Nat.one_mul]
    exact hrange
  | own hsz hne =>
    rw [Block.len_large hsz]
    exact ⟨Nat.le_refl _, Nat.le_refl _⟩

theorem npagesFor_eq (hsz : sz ≤ maxRequest) : Heap.npagesFor sz = (sz + 4095) / 4096 := by
  unfold maxRequest at hsz
  unfold Heap.npagesFor pageSize
  omega

theorem classOf_spec (hsz : sz < largestSubpageSize) :
    blocktype sz = .ok (classOf sz) ∧ classOf sz < nsizes ∧ sz ≤ sizes (classOf sz) := by
  unfold blocktype classOf
  cases hf : (List.range nsizes).find? fun i => sz ≤ sizes i with
  | none =>
    have := List.find?_eq_none.mp hf 7 (by decide)
    simp only [decide_eq_true_eq] at this
    have hlast : sizes 7 = 2048 := rfl
    unfold largestSubpageSize at hsz
    omega
  | some i =>
    refine ⟨rfl, List.mem_range.mp (List.mem_of_find?_eq_some hf), ?_⟩
    simpa using List.find?_some hf

theorem Block.le_len (hb : b.sz ≤ maxRequest) : b.sz ≤ b.len ∧ 0 < b.len := by
  by_cases hsz : b.sz < largestSubpageSize
  · obtain ⟨-, hlt, hle⟩ := classOf_spec hsz
    have := (sizes_spec hlt).1
    rw [Block.len_small hsz]
    omega
  · have hsz := Nat.le_of_not_lt hsz
    rw [Block.len_large hsz, npagesFor_eq hb]
    unfold largestSubpageSize at hsz
    unfold pageSize
    omega

/-- Two different blocks in use do not overlap. -/
theorem LiveOk.apart (hl : LiveOk h all free live) (hp : Pages h all same free) (hb : b ∈ live)
    (hb' : b' ∈ live) (hne : b.ptr ≠ b'.ptr) :
    b.ptr + b.len ≤ b'.ptr ∨ b'.ptr + b'.len ≤ b.ptr := by
  obtain ⟨x, hx, hhome⟩ := hl.home hp hb
  obtain ⟨x', hx', hhome'⟩ := hl.home hp hb'
  have hrange := hhome.range hp
  have hrange' := hhome'.range hp
  by_cases hxx : x = x'
  · cases hhome with
    | @page r hr hsz hs ht =>
      cases hhome' with
      | @page r' hr' hsz' hs' ht' =>
        obtain rfl := hp.inj r hr r' hr' (Prod.ext_iff.mp hxx).1
        rw [Block.len_small hsz, Block.len_small hsz', ← ht, ← ht']
        exact hs.apart hs' hne
      | own hsz' hne' => exact (hne' r hr (Prod.ext_iff.mp hxx).1).elim
    | own hsz hown =>
      cases hhome' with
      | @page r' hr' hsz' hs' ht' => exact (hown r' hr' (Prod.ext_iff.mp hxx).1.symm).elim
      | own hsz' hne' => exact (hne (Prod.ext_iff.mp hxx).1).elim
  · have hap := hp.apart hx hx' hxx
    unfold Apart at hap
    omega

theorem LiveOk.free_apart (hl : LiveOk h all free live) (hp : Pages h all same free) (hb : b ∈ live)
    (hr : r ∈ all) (hx : x ∈ free r) :
    b.ptr + b.len ≤ x ∨ x + sizes (h.pagerefs r).blocktype ≤ b.ptr := by
  have hk := hp.page r hr
  have hxs := hk.slots x hx
  have hxr := hxs.range hk.blocktype
  by_cases hsz : b.sz < largestSubpageSize
  · obtain ⟨r', hr', ht, hs, hnf⟩ := hl.small b hb hsz
    have hbr := hs.range (hp.page r' hr').blocktype
    rw [Block.len_small hsz, ← ht]
    by_cases hrr : r' = r
    · subst hrr
      refine hs.apart hxs ?_
      rintro rfl
      exact hnf hx
    · have hap := hp.pages_apart hr' hr hrr
      unfold Apart at hap
      omega
  · have hsz := Nat.le_of_not_lt hsz
    obtain ⟨hrun, hne⟩ := hl.large b hb hsz
    have hap := hp.apart (hp.run r hr) hrun fun heq => hne r hr (Prod.ext_iff.mp heq).1
    rw [Block.len_large hsz]
    unfold Apart at hap
    simp only at hap
    omega

theorem LiveOk.congr (h' : Heap) {free' : Nat → List Nat} (hl : LiveOk h all free live)
    (hpab : ∀ r ∈ all, (h'.pagerefs r).pageaddrAndBlocktype
      = (h.pagerefs r).pageaddrAndBlocktype)
    (hruns : ∀ x ∈ h.runs, x ∈ h'.runs) (hfree : ∀ r ∈ all, ∀ x ∈ free' r, x ∈ free r) :
    LiveOk h' all free' live := by
  refine ⟨?_, ?_, hl.nodup, hl.request⟩
  · intro b hb hsz
    obtain ⟨r, hr, ht, hs, hnf⟩ := hl.small b hb hsz
    refine ⟨r, hr, ?_, ?_, fun hx => hnf (hfree r hr _ hx)⟩
    · simpa only [Pageref.blocktype, hpab r hr] using ht
    · simpa only [Pageref.Slot, Pageref.pageaddr, Pageref.blocktype, hpab r hr] using hs
  · intro b hb hsz
    obtain ⟨hrun, hne⟩ := hl.large b hb hsz
    refine ⟨hruns _ hrun, fun r hr => ?_⟩
    simpa only [Pageref.pageaddr, hpab r hr] using hne r hr

end live

structure HeapInv (s : State) (all : List Nat) (same free : Nat → List Nat) : Prop where
  inuse : ∀ r, r ∈ all ↔ s.heap.InUse r
  pages : Pages s.heap all same free
  live : LiveOk s.heap all free s.live

def State.Sound (s : State) : Prop := ∃ all same free, HeapInv s all same free

/-- The block at `a` is on the free list of the page. -/
def Heap.OnFreeList (h : Heap) (pr a : Nat) : Prop :=
  ∃ l, Linked.Chain (link h.mem) (h.pagerefs pr).head l ∧ a ∈ l

/-- A block of the page for at least `sz` bytes that is not free. -/
structure Heap.Handed (h : Heap) (pr p sz : Nat) : Prop where
  inUse : h.InUse pr
  slot : (h.pagerefs pr).Slot p
  size : sz ≤ sizes (h.pagerefs pr).blocktype
  taken : ¬ h.OnFreeList pr p

/-- Where the result of `kmalloc` comes from, and what became of the pages that are out. -/
inductive Given {M : Type} (src : PageSource M) (m : M) (h : Heap) (sz : Nat) :
    Option Nat → Heap → M → Prop where
  | failed {h' : Heap} {m' : M} (hruns : h'.runs = h.runs)
      (hm : m' = m ∨ src.alloc (pagesAsked sz) m = (none, m')) : Given src m h sz none h' m'
  | block {h' : Heap} {pr p : Nat} (hruns : h'.runs = h.runs) (huse : h.InUse pr)
      (hfree : h.OnFreeList pr p) (hp : h'.Handed pr p sz) : Given src m h sz (some p) h' m
  | page {h' : Heap} {m' : M} {pr a p : Nat} (hn : pagesAsked sz = 1)
      (ha : src.alloc 1 m = (some a, m')) (hruns : h'.runs = (a, 1) :: h.runs)
      (huse : ¬ h.InUse pr) (haddr : (h'.pagerefs pr).pageaddr = a) (hp : h'.Handed pr p sz) :
    Given src m h sz (some p) h' m'
  | pages {m' : M} {a : Nat} (hn : pagesAsked sz = Heap.npagesFor sz)
      (ha : src.alloc (Heap.npagesFor sz) m = (some a, m')) :
    Given src m h sz (some a) { h with runs := (a, Heap.npagesFor sz) :: h.runs } m'

section calls
variable {s : State} {h h' : Heap} {all : List Nat} {same free : Nat → List Nat} {r x sz : Nat}
  {b : Block} {rest : List Nat} {M : Type} {src : PageSource M} {m : M}

section
variable (hi : HeapInv s all same free)
include hi

/-- The first free block of a page is handed out. -/
theorem HeapInv.take (hr : r ∈ all) (hfree : free r = x :: rest)
    (hsz : sz < largestSubpageSize) (ht : (s.heap.pagerefs r).blocktype = classOf sz) :
    ∃ p', s.heap.doalloc r = .ok (x, s.heap.setRef r p') ∧
      p'.pageaddrAndBlocktype = (s.heap.pagerefs r).pageaddrAndBlocktype ∧
      ∃ free', HeapInv ⟨s.heap.setRef r p', ⟨x, sz⟩ :: s.live⟩ all same free' := by
  obtain ⟨p', hrun, hpab, hpages⟩ := hi.pages.doalloc hr hfree
  have hk := hi.pages.page r hr
  have hx : x ∈ free r := by simp [hfree]
  have hnd := hk.nodup
  rw [hfree] at hnd
  have hsub : ∀ q ∈ all, ∀ y ∈ update free r rest q, y ∈ free q := by
    intro q _ y hy
    by_cases hq : q = r
    · subst hq
      rw [update_self] at hy
      rw [hfree]
      exact mem_cons_of_mem x hy
    · rwa [update_of_ne hq] at hy
  have hsame : ∀ q ∈ all, ((s.heap.setRef r p').pagerefs q).pageaddrAndBlocktype
      = (s.heap.pagerefs q).pageaddrAndBlocktype := by
    intro q _
    by_cases hq : q = r
    · subst hq
      simp [Heap.setRef, hpab]
    · simp [Heap.setRef, hq]
  have hold := hi.live.congr (s.heap.setRef r p') hsame (fun _ hx => hx) hsub
  refine ⟨p', hrun, hpab, _, hi.inuse, hpages, ?_, ?_, ?_, ?_⟩
  · intro b hb hbs
    rcases mem_cons.mp hb with rfl | hb
    · refine ⟨r, hr, ?_, ?_, ?_⟩
      · simpa only [Pageref.blocktype, hsame r hr] using ht
      · simpa only [Pageref.Slot, Pageref.pageaddr, Pageref.blocktype, hsame r hr]
          using hk.slots x hx
      · rw [update_self]
        exact (nodup_cons.mp hnd).1
    · exact hold.small b hb hbs
  · intro b hb hbs
    rcases mem_cons.mp hb with rfl | hb
    · exact (Nat.not_le_of_lt hsz hbs).elim
    · exact hold.large b hb hbs
  · refine nodup_cons.mpr ⟨?_, hold.nodup⟩
    intro hmem
    obtain ⟨b, hb, hbx⟩ := mem_map.mp hmem
    have hap := hi.live.free_apart hi.pages hb hr hx
    have hlen := (Block.le_len (hi.live.request b hb)).2
    have hpos := (sizes_spec hk.blocktype).1
    simp only at hbx
    omega
  · refine List.forall_mem_cons.mpr ⟨?_, hold.request⟩
    show sz ≤ maxRequest
    unfold largestSubpageSize at hsz
    unfold maxRequest
    omega

variable {live : List Block} {a b pr : Nat} {f : Nat → BitVec 32}

theorem HeapInv.findPage (hb : b < nsizes) :
    (∃ r ∈ all, s.heap.findPage b = .ok (some r) ∧ (s.heap.pagerefs r).blocktype = b ∧
      ∃ x rest, free r = x :: rest) ∨ s.heap.findPage b = .ok none := by
  have hscan : s.heap.findPage b
      = .ok ((same b).find? fun r => decide (0 < (s.heap.pagerefs r).nfree)) := by
    refine (hi.pages.sameChain b hb).scan_eq (hi.pages.same_length_le hb) fun r hr => ?_
    rw [if_pos ((hi.pages.sameMem b hb r).mp hr).2]
  rw [hscan]
  cases hf : (same b).find? fun r => decide (0 < (s.heap.pagerefs r).nfree) with
  | none => exact .inr rfl
  | some r =>
    obtain ⟨hr, ht⟩ := (hi.pages.sameMem b hb r).mp (List.mem_of_find?_eq_some hf)
    have hpos : 0 < (s.heap.pagerefs r).nfree := by simpa using List.find?_some hf
    rw [(hi.pages.page r hr).nfree] at hpos
    exact .inl ⟨r, hr, rfl, ht, List.exists_cons_of_length_pos hpos⟩

omit hi in
theorem Pages.fresh_ne {n q : Nat} (hp : Pages h all same free) (hf : h.Fresh n a) (hn : 1 ≤ n)
    (hq : q ∈ all) : (h.pagerefs q).pageaddr ≠ a := by
  intro heq
  have hap := hf.apart _ (hp.run q hq)
  have hle := Nat.mul_le_mul_right pageSize hn
  unfold Apart pageSize at hap
  unfold pageSize at hle
  simp only at hap
  omega

/-- The page reference of a page that could not be had goes back. -/
theorem HeapInv.putBack {g : Nat → BitVec 32} (hnot : ¬ s.heap.InUse pr)
    (hbits : ∀ q, { s.heap with pagerefsInuse := f }.InUse q ↔ q = pr ∨ s.heap.InUse q)
    (hclear : ∀ q, { s.heap with pagerefsInuse := g }.InUse q ↔
      q ≠ pr ∧ { s.heap with pagerefsInuse := f }.InUse q) :
    HeapInv ⟨{ s.heap with pagerefsInuse := g }, s.live⟩ all same free := by
  refine ⟨fun q => ?_, { hi.pages with }, { hi.live with }⟩
  rw [hclear q, hbits q, hi.inuse q]
  constructor
  · intro hq
    refine ⟨?_, .inr hq⟩
    rintro rfl
    exact hnot hq
  · rintro ⟨hne, hq⟩
    exact hq.resolve_left hne

omit hi in
theorem LiveOk.newPage {fl : List Nat}
    (hl : LiveOk h all free live) (hp : Pages h all same free) (hf : h.Fresh 1 a)
    (hpr : pr ∉ all) (haddr : (h'.pagerefs pr).pageaddr = a)
    (hother : ∀ q, q ≠ pr → h'.pagerefs q = h.pagerefs q) (hruns : h'.runs = (a, 1) :: h.runs) :
    LiveOk h' (pr :: all) (update free pr fl) live := by
  have hne : ∀ q ∈ all, q ≠ pr := by
    rintro q hq rfl
    exact hpr hq
  refine ⟨?_, ?_, hl.nodup, hl.request⟩
  · intro b hb hbs
    obtain ⟨r, hr, ht, hs, hnf⟩ := hl.small b hb hbs
    refine ⟨r, mem_cons_of_mem pr hr, ?_⟩
    rw [hother r (hne r hr), update_of_ne (hne r hr)]
    exact ⟨ht, hs, hnf⟩
  · intro b hb hbs
    obtain ⟨hbrun, hbne⟩ := hl.large b hb hbs
    refine ⟨hruns ▸ mem_cons_of_mem _ hbrun, ?_⟩
    intro q hq
    rcases mem_cons.mp hq with rfl | hq
    · rw [haddr]
      rintro rfl
      have hap := hf.apart _ hbrun
      have hpos := (hp.runsOk _ hbrun).2.2.2
      unfold Apart pageSize at hap
      simp only at hap hpos
      omega
    · rw [hother q (hne q hq)]
      exact hbne q hq

theorem HeapInv.newPage
    (hb : b < nsizes) (hf : s.heap.Fresh 1 a) (hlt : pr < npagerefs) (hnot : ¬ s.heap.InUse pr)
    (hbits : ∀ q, { s.heap with pagerefsInuse := f }.InUse q ↔ q = pr ∨ s.heap.InUse q) :
    ∃ h', Heap.newPage
        { s.heap with pagerefsInuse := f, runs := (a, 1) :: s.heap.runs } pr a b = .ok h' ∧
      (h'.pagerefs pr).pageaddr = a ∧ (h'.pagerefs pr).blocktype = b ∧
      h'.runs = (a, 1) :: s.heap.runs ∧
      HeapInv ⟨h', s.live⟩ (pr :: all) (update same b (pr :: same b))
        (update free pr (slotsDown a (sizes b) (pageSize / sizes b - 1))) := by
  have hpr : pr ∉ all := fun hmem => hnot ((hi.inuse pr).mp hmem)
  have hpages : Pages { s.heap with pagerefsInuse := f } all same free := { hi.pages with }
  have hrun := hpages.addRun (a := a) (n := 1) ⟨hf.aligned, hf.kseg0, hf.apart⟩ (Nat.le_refl 1)
  obtain ⟨h', hnew, haddr, htype, hother, hruns, hinuse, hpages'⟩ := hrun.newPage hb
    mem_cons_self (fun q hq => hi.pages.fresh_ne hf (Nat.le_refl 1) hq) hpr hlt
  refine ⟨h', hnew, haddr, htype, hruns, fun q => ?_, hpages', ?_⟩
  · have hq : h'.InUse q ↔ q = pr ∨ s.heap.InUse q := by
      rw [← hbits q]
      simp only [Heap.InUse, hinuse]
    rw [mem_cons, hq, hi.inuse q]
  · exact hi.live.newPage hi.pages hf hpr haddr hother hruns

omit hi in
theorem Pages.slot_eq {r' : Nat} (hp : Pages h all same free) (hr : r ∈ all) (hr' : r' ∈ all)
    (hs : (h.pagerefs r).Slot x) (hs' : (h.pagerefs r').Slot x) : r = r' := by
  by_contra hne
  have hap := hp.pages_apart hr hr' hne
  have hle := (hs.range (hp.page r hr).blocktype).1
  have hle' := (hs'.range (hp.page r' hr').blocktype).1
  have hlt := hs.lt (hp.page r hr).blocktype
  have hlt' := hs'.lt (hp.page r' hr').blocktype
  unfold Apart pageSize at hap
  unfold pageSize at hlt hlt'
  omega

theorem HeapInv.onFreeList (hr : r ∈ all) : s.heap.OnFreeList r x ↔ x ∈ free r := by
  have hchain := (hi.pages.page r hr).chain
  constructor
  · rintro ⟨l, hl, hx⟩
    rwa [← hl.unique hchain]
  · exact fun hx => ⟨_, hchain, hx⟩

omit hi in
/-- A small block of the page `r`, when it has been handed out. -/
theorem HeapInv.handed (hinv : HeapInv ⟨h', ⟨x, sz⟩ :: live⟩ all same free)
    (hsz : sz < largestSubpageSize) (hr : r ∈ all) (hslot : (h'.pagerefs r).Slot x) :
    h'.Handed r x sz := by
  obtain ⟨r', hr', htype, hslot', hnot⟩ := hinv.live.small _ mem_cons_self hsz
  obtain rfl := hinv.pages.slot_eq hr hr' hslot hslot'
  refine ⟨(hinv.inuse r).mp hr, hslot, ?_, ?_⟩
  · rw [htype]
    exact (classOf_spec hsz).2.2
  · exact fun hfree => hnot ((hinv.onFreeList hr).mp hfree)

omit hi in
theorem Pageref.Slot.congr {p p' : Pageref} (h : p.Slot x)
    (hpab : p'.pageaddrAndBlocktype = p.pageaddrAndBlocktype) : p'.Slot x := by
  unfold Pageref.Slot Pageref.pageaddr Pageref.blocktype at *
  rwa [hpab]

omit hi in
theorem setRef_self (h : Heap) (r : Nat) (p : Pageref) : (h.setRef r p).pagerefs r = p :=
  update_self ..

/-- A small request: a free block of a page there is, or the first block of a new one, or NULL. -/
theorem HeapInv.subpageKmalloc (hsz : sz < largestSubpageSize)
    (hfresh : ∀ a m', src.alloc 1 m = (some a, m') → s.heap.Fresh 1 a) :
    ∃ ret h' m', s.heap.subpageKmalloc src m sz = .ok (ret, h', m') ∧
      State.Sound ⟨h', s.liveAfter sz ret⟩ ∧ Given src m s.heap sz ret h' m' := by
  obtain ⟨hclass, hlt, -⟩ := classOf_spec hsz
  have hasked : pagesAsked sz = 1 := if_neg (Nat.not_le_of_lt hsz)
  rcases hi.findPage hlt with ⟨r, hr, hfind, ht, x, rest, hfree⟩ | hfind
  · obtain ⟨p', hrun, hpab, free', hinv⟩ := hi.take hr hfree hsz ht
    have hx : x ∈ free r := hfree ▸ mem_cons_self
    refine ⟨some x, s.heap.setRef r p', m, ?_, ⟨all, same, free', hinv⟩,
      .block rfl ((hi.inuse r).mp hr) ((hi.onFreeList hr).mpr hx) (hinv.handed hsz hr ?_)⟩
    · simp only [Heap.subpageKmalloc, hclass, hfind, hrun, bind, Except.bind]
      rfl
    · rw [setRef_self]
      exact ((hi.pages.page r hr).slots x hx).congr hpab
  · rcases s.heap.allocpageref_spec with hnone | ⟨pr, f, hsome, hprlt, hnot, hbits⟩
    · refine ⟨none, s.heap, m, ?_, ⟨all, same, free, hi⟩, .failed rfl (.inl rfl)⟩
      simp only [Heap.subpageKmalloc, hclass, hfind, hnone, bind, Except.bind]
      rfl
    cases ha : src.alloc 1 m with
    | mk found m' =>
      cases found with
      | none =>
        obtain ⟨g, hfreeref, hclear⟩ := Heap.freepageref_spec
          (h := { s.heap with pagerefsInuse := f }) ((hbits pr).mpr (.inl rfl))
        refine ⟨none, _, m', ?_, ⟨all, same, free, hi.putBack hnot hbits hclear⟩,
          .failed rfl (.inr (hasked ▸ ha))⟩
        simp only [Heap.subpageKmalloc, hclass, hfind, hsome, bind, Except.bind,
          Heap.allocKpages, ha, hfreeref]
        rfl
      | some a =>
        obtain ⟨h₁, hnew, haddr, htype, hruns, hinv⟩ :=
          hi.newPage hlt (hfresh a m' ha) hprlt hnot hbits
        obtain ⟨k, hk⟩ : ∃ k, pageSize / sizes (classOf sz) - 1 = k + 1 :=
          Nat.exists_eq_add_one.mpr (by have := (sizes_spec hlt).2.2.2; omega)
        obtain ⟨p', htake, hpab, free', hinv'⟩ := hinv.take
          mem_cons_self (by rw [update_self, hk]; rfl) hsz htype
        refine ⟨some _, _, m', ?_, ⟨_, _, free', hinv'⟩,
          .page hasked ha hruns hnot ?_ (hinv'.handed hsz mem_cons_self ?_)⟩
        · simp only [Heap.subpageKmalloc, hclass, hfind, hsome, bind, Except.bind,
            Heap.allocKpages, ha, hnew, htake]
          rfl
        · rw [setRef_self, ← haddr, Pageref.pageaddr, Pageref.pageaddr, hpab]
        rw [setRef_self]
        refine ((hinv.pages.page pr mem_cons_self).slots _ ?_).congr hpab
        rw [update_self, hk]
        exact mem_cons_self

theorem HeapInv.kmallocLarge (hsz : largestSubpageSize ≤ sz)
    (hmax : sz ≤ maxRequest) (hf : s.heap.Fresh (Heap.npagesFor sz) a) :
    HeapInv ⟨{ s.heap with runs := (a, Heap.npagesFor sz) :: s.heap.runs }, ⟨a, sz⟩ :: s.live⟩
      all same free := by
  have hpos : 1 ≤ Heap.npagesFor sz := by
    rw [npagesFor_eq hmax]
    unfold largestSubpageSize at hsz
    omega
  have hnew : ∀ q ∈ all, (s.heap.pagerefs q).pageaddr ≠ a :=
    fun q hq => hi.pages.fresh_ne hf hpos hq
  refine ⟨hi.inuse, hi.pages.addRun hf hpos, ?_, ?_, ?_, ?_⟩
  · intro b hb hbs
    rcases mem_cons.mp hb with rfl | hb
    · exact (Nat.not_le_of_lt hbs hsz).elim
    · exact hi.live.small b hb hbs
  · intro b hb hbs
    rcases mem_cons.mp hb with rfl | hb
    · exact ⟨mem_cons_self, hnew⟩
    · obtain ⟨hrun, hne⟩ := hi.live.large b hb hbs
      exact ⟨mem_cons_of_mem _ hrun, hne⟩
  · refine nodup_cons.mpr ⟨?_, hi.live.nodup⟩
    intro hmem
    obtain ⟨b, hb, hbx⟩ := mem_map.mp hmem
    obtain ⟨x, hx, hhome⟩ := hi.live.home hi.pages hb
    have hrange := hhome.range hi.pages
    have hlen := (Block.le_len (hi.live.request b hb)).2
    have hap := hf.apart x hx
    unfold Apart at hap
    simp only at hap hbx
    have : 1 * pageSize ≤ Heap.npagesFor sz * pageSize := Nat.mul_le_mul_right _ hpos
    unfold pageSize at this hap hrange
    omega
  · exact List.forall_mem_cons.mpr ⟨hmax, hi.live.request⟩

end

end calls

end OS161.Kheap
