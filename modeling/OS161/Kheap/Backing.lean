import OS161.Kheap.Safety
import OS161.Vm.Frames

/-! The kernel heap over the coremap, when pages were already out before there was one. -/
namespace OS161

/-- The run of pages is in the frames of the coremap. -/
def Coremap.inFrames (c : Coremap) (x : Nat × Nat) : Bool :=
  decide ((paddrToKvaddr c.frame0).toNat ≤ x.1)

def Coremap.allocKpages (npages : Nat) (c : Coremap) : Option Nat × Coremap :=
  match c.allocateFrame npages with
  | (some pa, c) => (some (paddrToKvaddr pa).toNat, c)
  | (none, c) => (none, c)

namespace Kheap

open Linked

/-- `alloc_kpages` and `free_kpages` once VM_INITIALIZED is set. -/
def kpages : PageSource Coremap := ⟨Coremap.allocKpages, fun a c => c.freeFrame (BitVec.ofNat 32 a)⟩

/-- The frames of a run of pages. -/
def frameBlock (x : Nat × Nat) : OS161.Block := ⟨kvaddrToPaddr (BitVec.ofNat 32 x.1), x.2⟩

/-- The pages that are out are blocks of the coremap, and those that `ram_stealmem` handed out
before `vm_bootstrap`, the coremap's own among them, end below its frames. -/
structure Backs (runs : List (Nat × Nat)) (c : Coremap) : Prop where
  frames : FramesInv ⟨c, (runs.filter c.inFrames).map frameBlock⟩
  early : ∀ x ∈ runs, c.inFrames x = false →
    x.1 + x.2 * pageSize ≤ (paddrToKvaddr c.frame0).toNat

/-- The heap and the coremap agree on the pages that are out. -/
structure Backed (s : State) (c : Coremap) : Prop where
  heap : s.Sound
  pages : Backs s.heap.runs c

/-- The bytes are in frames that were free and are allocated now. -/
def NewFrames (c c' : Coremap) (p len : Nat) : Prop :=
  ∀ a, p ≤ a → a < p + len → ∃ f, f < c.size ∧
    (paddrToKvaddr (c.frameAddr f)).toNat ≤ a ∧
    a < (paddrToKvaddr (c.frameAddr f)).toNat + pageSize ∧
    (c.entries f).status = .unallocated ∧ (c'.entries f).status = .kernelAllocated

/-- A block of at least `sz` bytes that was free, or is part of a new page, and is not free now. -/
def NewBlock (h h' : Heap) (c c' : Coremap) (p sz : Nat) : Prop :=
  ∃ pr, h'.Handed pr p sz ∧ (h.InUse pr ∧ h.OnFreeList pr p ∨
    ¬ h.InUse pr ∧ NewFrames c c' (h'.pagerefs pr).pageaddr pageSize)

/-- The `sz` bytes at `p` were reserved by the call, and are no live block's. -/
structure Reserved (s : State) (c : Coremap) (sz p : Nat) (h' : Heap) (c' : Coremap) : Prop where
  new : NewFrames c c' p sz ∨ NewBlock s.heap h' c c' p sz
  apart : ∀ b ∈ s.live, p + sz ≤ b.ptr ∨ b.ptr + b.len ≤ p

variable {s : State} {c c' : Coremap} {h h' : Heap} {a i n p len sz : Nat}

theorem toNat_kvaddr (hi : i < c.size) :
    (paddrToKvaddr (c.frameAddr i)).toNat = (paddrToKvaddr c.frame0).toNat + i * 4096 ∧
      (paddrToKvaddr c.frame0).toNat = c.frame0.toNat + 2147483648 := by
  have hb := c.frames_in_kseg0
  have he := Coremap.toNat_frameAddr hi
  rw [toNat_paddrToKvaddr (by omega), toNat_paddrToKvaddr (by omega), he]
  exact ⟨by omega, rfl⟩

theorem newFrames_markBlock (hfree : c.FreeAt i n) (hlen : len ≤ n * pageSize) :
    NewFrames c (c.markBlock i n) (paddrToKvaddr (c.frameAddr i)).toNat len := by
  intro a hlo hhi
  unfold pageSize at hlen ⊢
  have hin := hfree.1
  have hi : i < c.size := by omega
  obtain ⟨d, rfl⟩ := Nat.exists_eq_add_of_le hlo
  have hkn : d / 4096 < n := by omega
  have hik : i + d / 4096 < c.size := by omega
  have hsum : (paddrToKvaddr (c.frameAddr (i + d / 4096))).toNat =
      (paddrToKvaddr (c.frameAddr i)).toNat + d / 4096 * 4096 := by
    rw [(toNat_kvaddr hik).1, (toNat_kvaddr hi).1]
    omega
  refine ⟨i + d / 4096, hik, ?_, ?_, hfree.2 _ (by omega) (by omega), ?_⟩
  · omega
  · omega
  · simp [Coremap.markBlock, hkn]

theorem markBlock_zero (c : Coremap) (i : Nat) : (c.markBlock i 0).entries = c.entries := by
  funext k
  exact if_neg (by omega)

theorem not_newFrames (hp : 0 < len) : ¬ NewFrames c (c.markBlock i 0) p len := by
  intro h
  obtain ⟨f, -, -, -, hfree, htaken⟩ := h p (Nat.le_refl p) (by omega)
  rw [markBlock_zero, hfree] at htaken
  cases htaken

theorem frameBlock_kvaddr (c : Coremap) (i n : Nat) :
    frameBlock ((paddrToKvaddr (c.frameAddr i)).toNat, n) = ⟨c.frameAddr i, n⟩ := by
  simp [frameBlock]

theorem allocKpages_some (ha : c.allocKpages n = (some a, c')) :
    ∃ i, c.FreeAt i n ∧ a = (paddrToKvaddr (c.frameAddr i)).toNat ∧ c' = c.markBlock i n := by
  unfold Coremap.allocKpages Coremap.allocateFrame at ha
  split at ha
  · rename_i heq
    split at heq
    · cases heq
    split at heq
    · cases heq
    rename_i i hs
    cases heq
    rw [Prod.mk.injEq, Option.some.injEq] at ha
    exact ⟨i, Coremap.search_some hs, ha.1.symm, ha.2.symm⟩
  · cases ha

theorem allocKpages_none (ha : c.allocKpages n = (none, c')) : c' = c := by
  unfold Coremap.allocKpages at ha
  split at ha
  · cases ha
  rename_i heq
  cases ha
  exact Coremap.allocateFrame_none heq

/-- What `alloc_kpages` returns is out nowhere and is out from then on. -/
theorem Backs.alloc (hb : Backs h.runs c) (hruns : ∀ x ∈ h.runs, x.1 < 2 ^ 32) (hn : 1 ≤ n)
    (ha : c.allocKpages n = (some a, c')) :
    h.Fresh n a ∧ Backs ((a, n) :: h.runs) c' ∧
      ∀ len, len ≤ n * pageSize → NewFrames c c' a len := by
  obtain ⟨i, hfree, hstart, hc'⟩ := allocKpages_some ha
  rw [hstart, hc']
  have hin := hfree.1
  obtain ⟨heq, hbase⟩ := toNat_kvaddr (c := c) (i := i) (by omega)
  have h0 := c.frame0_aligned
  have hk := c.frames_in_kseg0
  have hmem : c.inFrames ((paddrToKvaddr (c.frameAddr i)).toNat, n) = true :=
    decide_eq_true (by show _ ≤ (paddrToKvaddr (c.frameAddr i)).toNat; omega)
  refine ⟨⟨?_, ⟨?_, ?_⟩, fun x hx => ?_⟩, ⟨?_, ?_⟩, fun len hlen => newFrames_markBlock hfree hlen⟩
  · unfold pageSize
    omega
  · rw [show mipsKseg0.toNat = 2147483648 from rfl]
    omega
  · unfold pageSize mipsKseg1
    omega
  · by_cases hx0 : c.inFrames x = true
    · obtain ⟨j, hj⟩ := hb.frames.blocks (frameBlock x)
        (List.mem_map_of_mem (List.mem_filter.mpr ⟨hx, hx0⟩))
      have hjin : j + x.2 ≤ c.size := hj.inside
      have hjpos : 1 ≤ x.2 := hj.pos
      have hxj : x.1 = (paddrToKvaddr (c.frameAddr j)).toNat := by
        have hpa : kvaddrToPaddr (BitVec.ofNat 32 x.1) = c.frameAddr j := hj.pa
        rw [← hpa, paddrToKvaddr, kvaddrToPaddr, BitVec.sub_add_cancel, BitVec.toNat_ofNat,
          Nat.mod_eq_of_lt (hruns x hx)]
      have hjeq := (toNat_kvaddr (c := c) (i := j) (by omega)).1
      unfold Apart pageSize
      by_contra hover
      -- A page in both would be free and taken.
      have hcommon : ∃ k, i ≤ k ∧ k < i + n ∧ j ≤ k ∧ k < j + x.2 :=
        ⟨max i j, by omega, by omega, by omega, by omega⟩
      obtain ⟨k, hik, hkn, hjk, hkx⟩ := hcommon
      have htaken := hj.taken (k - j) (by show k - j < x.2; omega)
      rw [show j + (k - j) = k by omega, hfree.2 k hik hkn] at htaken
      cases htaken
    · exact .inr ((hb.early x hx (Bool.eq_false_iff.mpr hx0)).trans (by show _ ≤ _; omega))
  · show FramesInv ⟨c.markBlock i n, ((_ :: h.runs).filter c.inFrames).map frameBlock⟩
    rw [List.filter_cons_of_pos hmem, List.map_cons, frameBlock_kvaddr]
    exact hb.frames.mark hn hfree
  · refine List.forall_mem_cons.mpr ⟨fun hno => ?_, hb.early⟩
    rw [show (c.markBlock i n).inFrames = c.inFrames from rfl, hmem] at hno
    cases hno

/-- What a call of `kmalloc` leaves. -/
structure Served (s : State) (c : Coremap) (sz : Nat) (ret : Option Nat) (h' : Heap)
    (c' : Coremap) : Prop where
  backed : Backed ⟨h', s.liveAfter sz ret⟩ c'
  new : ∀ p, ret = some p → NewFrames c c' p sz ∨ NewBlock s.heap h' c c' p sz

theorem HeapInv.runs_lt {all : List Nat} {same free : Nat → List Nat}
    (hi : HeapInv s all same free) : ∀ x ∈ s.heap.runs, x.1 < 2 ^ 32 := by
  intro x hx
  have := (hi.pages.runsOk x hx).2.2.1
  unfold mipsKseg1 at this
  omega

theorem pagesAsked_spec (hsz : sz ≤ maxRequest) : 1 ≤ pagesAsked sz ∧
    (pagesAsked sz = Heap.npagesFor sz → sz ≤ Heap.npagesFor sz * pageSize) := by
  have hpages := npagesFor_eq hsz
  unfold pagesAsked largestSubpageSize pageSize
  split <;> omega

theorem Backed.kmalloc (hb : Backed s c) (hsz : sz ≤ maxRequest) :
    ∃ ret h' c', s.heap.kmalloc kpages c sz = .ok (ret, h', c') ∧ Served s c sz ret h' c' := by
  obtain ⟨⟨all, same, free, hi⟩, hpages⟩ := hb
  obtain ⟨hpos, hlen⟩ := pagesAsked_spec hsz
  have halloc : ∀ {a c'}, c.allocKpages (pagesAsked sz) = (some a, c') → _ :=
    hpages.alloc hi.runs_lt hpos
  obtain ⟨ret, h', c', hrun, hinv, hgiven⟩ :=
    hi.kmalloc kpages c hsz fun a c' ha => (halloc ha).1
  refine ⟨ret, h', c', hrun, ?_⟩
  cases hgiven with
  | failed hruns hm =>
    refine ⟨⟨hinv, ?_⟩, by simp⟩
    rw [hruns]
    rcases hm with rfl | ha
    · exact hpages
    · exact allocKpages_none ha ▸ hpages
  | block hruns huse hfree hp =>
    exact ⟨⟨hinv, hruns.symm ▸ hpages⟩, by rintro p ⟨⟩; exact .inr ⟨_, hp, .inl ⟨huse, hfree⟩⟩⟩
  | page hn ha hruns huse haddr hp =>
    obtain ⟨-, hback, hnew⟩ := halloc (hn ▸ ha)
    rw [hn] at hback hnew
    refine ⟨⟨hinv, hruns.symm ▸ hback⟩, ?_⟩
    rintro p ⟨⟩
    exact .inr ⟨_, hp, .inr ⟨huse, haddr.symm ▸ hnew _ (Nat.one_mul _).ge⟩⟩
  | pages hn ha =>
    obtain ⟨-, hback, hnew⟩ := halloc (hn ▸ ha)
    rw [hn] at hback hnew
    exact ⟨⟨hinv, hback⟩, by rintro p ⟨⟩; exact .inl (hnew _ (hlen hn))⟩

theorem framesInv_perm {l l' : List OS161.Block} (h : FramesInv ⟨c, l⟩) (hp : l.Perm l') :
    FramesInv ⟨c, l'⟩ := by
  refine ⟨?_, ?_, h.count, h.total⟩
  · exact fun b hb => h.blocks b (hp.mem_iff.mpr hb)
  · exact (hp.pairwise_iff fun hab => Disjoint.symm hab).mp h.disjoint

section runs
variable {all : List Nat} {same lists : Nat → List Nat}

theorem Pages.start_inj (hp : Pages h all same lists) {x y : Nat × Nat} (hx : x ∈ h.runs)
    (hy : y ∈ h.runs) (hxy : x.1 = y.1) : x = y := by
  by_contra hne
  have hap := hp.apart hx hy hne
  have hxpos := (hp.runsOk x hx).2.2.2
  have hypos := (hp.runsOk y hy).2.2.2
  unfold Apart pageSize at hap
  omega

theorem Pages.runs_perm (hp : Pages h all same lists) {x : Nat × Nat} (hx : x ∈ h.runs) :
    h.runs.Perm (x :: h.runs.filter fun y => y.1 ≠ x.1) := by
  have hnd : h.runs.Nodup := by
    refine hp.runsApart.imp_of_mem fun {y z} hy _ hap heq => ?_
    have hpos := (hp.runsOk y hy).2.2.2
    unfold Apart pageSize at hap
    rw [← heq] at hap
    omega
  have hfilter : (h.runs.filter fun y => y.1 ≠ x.1) = h.runs.erase x := by
    rw [hnd.erase_eq_filter]
    refine List.filter_congr fun y hy => ?_
    by_cases hyx : y = x
    · simp [hyx]
    · have hne : y.1 ≠ x.1 := fun heq => hyx (hp.start_inj hy hx heq)
      simp [hyx, hne]
  rw [hfilter]
  exact List.perm_cons_erase hx

/-- `free_frame` of an address below the frames does nothing: the index wraps beyond the coremap. -/
theorem freeFrame_below {x : Nat × Nat} (hlo : mipsKseg0.toNat ≤ x.1)
    (hout : c.inFrames x = false) : c.freeFrame (BitVec.ofNat 32 x.1) = c := by
  have hb := c.frames_in_kseg0
  have hkv : (paddrToKvaddr c.frame0).toNat = c.frame0.toNat + 2147483648 :=
    toNat_paddrToKvaddr (by omega)
  have hlt : x.1 < (paddrToKvaddr c.frame0).toNat := Nat.lt_of_not_le (of_decide_eq_false hout)
  have hindex : ¬ c.frameIndex (kvaddrToPaddr (BitVec.ofNat 32 x.1)) < c.size := by
    simp only [Coremap.frameIndex, kvaddrToPaddr, BitVec.toNat_sub, BitVec.toNat_ofNat,
      show mipsKseg0.toNat = 2147483648 from rfl]
    omega
  have hclear : ∀ fuel, Coremap.clearBlock c.size fuel
      (c.frameIndex (kvaddrToPaddr (BitVec.ofNat 32 x.1))) c.entries = (c.entries, 0) := by
    intro fuel
    cases fuel with
    | zero => rfl
    | succ fuel => exact if_neg hindex
  simp [Coremap.freeFrame, hclear]

theorem Backs.free (hb : Backs h.runs c) (hp : Pages h all same lists) (hx : (a, n) ∈ h.runs) :
    Backs (h.runs.filter fun x => x.1 ≠ a) (c.freeFrame (BitVec.ofNat 32 a)) := by
  refine ⟨?_, fun x hx => hb.early x (List.mem_filter.mp hx).1⟩
  by_cases hin : c.inFrames (a, n) = true
  · have hmem : frameBlock (a, n) ∈ (h.runs.filter c.inFrames).map frameBlock :=
      List.mem_map_of_mem (List.mem_filter.mpr ⟨hx, hin⟩)
    have hfree := hb.frames.free hmem
    have hva : paddrToKvaddr (frameBlock (a, n)).pa = BitVec.ofNat 32 a :=
      BitVec.sub_add_cancel ..
    have hperm := (((hp.runs_perm hx).filter c.inFrames).map frameBlock).erase (frameBlock (a, n))
    rw [List.filter_cons_of_pos hin, List.map_cons, List.erase_cons_head] at hperm
    rw [hva] at hfree
    exact framesInv_perm hfree hperm
  · rw [Bool.not_eq_true] at hin
    have hsame : (h.runs.filter fun x => x.1 ≠ a).filter c.inFrames
        = h.runs.filter c.inFrames := by
      rw [List.filter_filter]
      refine List.filter_congr fun x hx' => ?_
      by_cases hxa : x.1 = a
      · rw [hp.start_inj hx' hx hxa]
        simp [hin]
      · simp [hxa]
    rw [freeFrame_below (x := (a, n)) (hp.runsOk _ hx).2.1 hin, hsame]
    exact hb.frames

end runs

theorem Backed.kfree (hb : Backed s c) {b : Block} (hlive : b ∈ s.live)
    (hr : s.heap.kfree kpages c b.ptr = .ok (h', c')) : Backed ⟨h', s.live.erase b⟩ c' := by
  obtain ⟨⟨all, same, free, hi⟩, hpages⟩ := hb
  obtain ⟨h₁, c₁, hrun, hheap, hback⟩ := hi.kfree kpages c hlive
  cases hr.symm.trans hrun
  refine ⟨hheap, ?_⟩
  cases hback with
  | block hruns => exact hruns.symm ▸ hpages
  | pages ha hruns => exact hruns.symm ▸ hpages.free hi.pages ha

/-- A call that keeps to the rules, or a store into memory one holds. -/
inductive Call : State × Coremap → State × Coremap → Prop where
  | kmalloc {s : State} {c c' : Coremap} {sz : Nat} {ret : Option Nat} {h' : Heap}
      (hsz : sz ≤ maxRequest) (hr : s.heap.kmalloc kpages c sz = .ok (ret, h', c')) :
    Call (s, c) (⟨h', s.liveAfter sz ret⟩, c')
  | kfree {s : State} {c c' : Coremap} {b : Block} {h' : Heap} (hb : b ∈ s.live)
      (hr : s.heap.kfree kpages c b.ptr = .ok (h', c')) : Call (s, c) (⟨h', s.live.erase b⟩, c')
  | store {s : State} {c : Coremap} {a w : Nat} (ha : s.Writable a) :
    Call (s, c)
      ({ s with heap := { s.heap with mem := Function.update s.heap.mem a w } }, c)

theorem Backed.call {x y : State × Coremap} (hc : Call x y) (hb : Backed x.1 x.2) :
    Backed y.1 y.2 := by
  cases hc with
  | kmalloc hsz hr =>
    obtain ⟨ret, h₁, c₁, hrun, hserved⟩ := hb.kmalloc hsz
    cases hr.symm.trans hrun
    exact hserved.backed
  | kfree hlive hr => exact hb.kfree hlive hr
  | store ha =>
    obtain ⟨⟨all, same, free, hi⟩, hpages⟩ := hb
    exact ⟨⟨_, _, _, hi.store ha⟩, hpages⟩

/-- As `vm_bootstrap` leaves it: the boot code has called `kmalloc` before, and what `ram_stealmem`
gave it, the coremap last, lies below FRAME0_ADDR. -/
structure Bootstrapped (s : State) (c : Coremap) : Prop where
  heap : Lts.Reachable Init Step s
  coremap : c.Booted
  below : ∀ x ∈ s.heap.runs, x.1 + x.2 * pageSize ≤ (paddrToKvaddr c.frame0).toNat

theorem Bootstrapped.backed (h : Bootstrapped s c) : Backed s c := by
  obtain ⟨all, same, free, hi⟩ := heapInv_reachable h.heap
  have hnone : s.heap.runs.filter c.inFrames = [] := by
    rw [List.filter_eq_nil_iff]
    intro x hx hin
    have hle := h.below x hx
    have hpos := (hi.pages.runsOk x hx).2.2.2
    have hin : (paddrToKvaddr c.frame0).toNat ≤ x.1 := of_decide_eq_true hin
    unfold pageSize at hle
    omega
  refine ⟨⟨all, same, free, hi⟩, ?_, fun x hx _ => h.below x hx⟩
  rw [hnone]
  exact framesInv_boot h.coremap

/-- The heap and the coremap agree in every state that calls reach after `vm_bootstrap`. -/
theorem backed_reachable (h0 : Bootstrapped s c) {y : State × Coremap}
    (h : Relation.ReflTransGen Call (s, c) y) : Backed y.1 y.2 := by
  induction h with
  | refl => exact h0.backed
  | tail _ hcall ih => exact ih.call hcall

theorem Served.reserved (h : Served s c sz (some p) h' c') : Reserved s c sz p h' c' := by
  refine ⟨h.new p rfl, ?_⟩
  intro b hb
  obtain ⟨all, same, free, hi⟩ := h.backed.heap
  have hself : (⟨p, sz⟩ : Block) ∈ ⟨p, sz⟩ :: s.live := List.mem_cons_self
  have hne : p ≠ b.ptr := by
    have hnd := List.nodup_cons.mp hi.live.nodup
    rintro rfl
    exact hnd.1 (List.mem_map.mpr ⟨b, hb, rfl⟩)
  have hap := hi.live.apart hi.pages hself (List.mem_cons_of_mem _ hb) hne
  have hle := (Block.le_len (hi.live.request _ hself)).1
  have hlen : sz ≤ (⟨p, sz⟩ : Block).len := hle
  rcases hap with hap | hap
  · exact .inl (Nat.le_trans (Nat.add_le_add_left hlen p) hap)
  · exact .inr hap

/-- The requests beyond are rounded up to no page, and get the address of the first frame. -/
theorem Backed.kmalloc_wrapped (hb : Backed s c) (hsz : sz < 2 ^ 32)
    (hmax : maxRequest < sz) : ∃ p, s.heap.kmalloc kpages c sz =
      .ok (some p, { s.heap with runs := (p, 0) :: s.heap.runs }, c.markBlock 0 0) := by
  have hpages : Heap.npagesFor sz = 0 := by
    unfold maxRequest at hmax
    unfold Heap.npagesFor pageSize
    omega
  have hlarge : largestSubpageSize ≤ sz := by
    unfold maxRequest at hmax
    unfold largestSubpageSize
    omega
  have hnot : ¬ ((0 : Nat) : Int) > c.unallocatedFrame := by
    have hcount : c.unallocatedFrame = c.freeFrames.card := hb.pages.frames.count
    omega
  have halloc : c.allocateFrame 0 = (some (c.frameAddr 0), c.markBlock 0 0) := by
    rw [Coremap.allocateFrame, if_neg hnot]
    rfl
  refine ⟨(paddrToKvaddr (c.frameAddr 0)).toNat, ?_⟩
  simp only [Heap.kmalloc, if_pos hlarge, hpages, Heap.allocKpages, kpages,
    Coremap.allocKpages, halloc]

/-- `kmalloc` reserves what it returns exactly if adding PAGE_SIZE - 1 to the request does not
wrap. -/
theorem kmalloc_reserves_iff (hb : Backed s c) (hsz : sz < 2 ^ 32) :
    (∀ p h' c', s.heap.kmalloc kpages c sz = .ok (some p, h', c') → Reserved s c sz p h' c') ↔
      sz ≤ maxRequest := by
  constructor
  · intro hall
    by_contra hmax
    obtain ⟨p, hrun⟩ := hb.kmalloc_wrapped hsz (Nat.lt_of_not_le hmax)
    rcases (hall p _ _ hrun).new with hnew | ⟨pr, hp, hold | hold⟩
    · exact not_newFrames (by omega) hnew
    · exact hp.taken hold.2
    · exact hold.1 hp.inUse
  · intro hmax p h' c' hrun
    obtain ⟨ret, h₁, c₁, hrun', hserved⟩ := hb.kmalloc hmax
    cases hrun.symm.trans hrun'
    exact hserved.reserved

/-- After every run of calls since `vm_bootstrap` `kmalloc` fails no assertion, and what it returns
was free, is allocated now and is apart from every block that is out. -/
theorem kmalloc_reserves_run (h0 : Bootstrapped s c) {y : State × Coremap}
    (h : Relation.ReflTransGen Call (s, c) y) (hsz : sz ≤ maxRequest) :
    ∃ ret h' c', y.1.heap.kmalloc kpages y.2 sz = .ok (ret, h', c') ∧
      ∀ p, ret = some p → Reserved y.1 y.2 sz p h' c' := by
  obtain ⟨ret, h', c', hrun, hserved⟩ := (backed_reachable h0 h).kmalloc hsz
  refine ⟨ret, h', c', hrun, ?_⟩
  rintro p rfl
  exact hserved.reserved

/-- 257 free frames, below which two pages were taken. -/
def above : Coremap := ⟨fun _ => .zero, 257, 0x2000#32, 257, 0, by decide, by decide, by decide⟩

/-- A block was taken before there was a coremap. -/
theorem bootstrapped : ∃ s, Bootstrapped s above ∧ s.live = [⟨0x80001800, 2000⟩] ∧
    ∃ h' c', s.heap.kmalloc kpages above 5000 = .ok (some 0x80002000, h', c') := by
  refine ⟨_, ⟨empty_reachable.next (.kmalloc (by decide) empty_fresh rfl),
    ⟨fun _ _ => rfl, rfl, rfl⟩, ?_⟩, rfl, _, _, rfl⟩
  decide +kernel

/-- It is freed, and the next request is served from the frames of the coremap. -/
theorem kmalloc_reserves_run_second : ∃ s y ret h' c', Bootstrapped s above ∧
    Relation.ReflTransGen Call (s, above) y ∧ y.1.live = [] ∧
    y.1.heap.kmalloc kpages y.2 5000 = .ok (ret, h', c') ∧
      ∀ p, ret = some p → Reserved y.1 y.2 5000 p h' c' := by
  obtain ⟨s, hboot, hlive, -⟩ := bootstrapped
  obtain ⟨all, same, free, hi⟩ := hboot.backed.heap
  obtain ⟨h₁, c₁, hfree, -⟩ := hi.kfree kpages above (b := ⟨0x80001800, 2000⟩) (by simp [hlive])
  have hrun := Relation.ReflTransGen.single (Call.kfree (by simp [hlive]) hfree)
  obtain ⟨ret, h', c', hnext, hnew⟩ :=
    kmalloc_reserves_run hboot hrun (by decide : 5000 ≤ maxRequest)
  exact ⟨s, _, ret, h', c', hboot, hrun, by simp [hlive], hnext, hnew⟩

/-- A request of 5000 bytes takes two frames. -/
theorem kmalloc_reserves_two : ∃ s h' c', Backed s above ∧
    s.heap.kmalloc kpages above 5000 = .ok (some 0x80002000, h', c') ∧
    Reserved s above 5000 0x80002000 h' c' := by
  obtain ⟨s, hboot, -, h', c', hrun⟩ := bootstrapped
  exact ⟨s, h', c', hboot.backed, hrun,
    (kmalloc_reserves_iff hboot.backed (by decide)).mpr (by decide) _ _ _ hrun⟩

/-- A request of 4 GB less one byte succeeds and takes none. -/
theorem kmalloc_reserves_nothing : ∃ s p h' c', Backed s above ∧
    s.heap.kmalloc kpages above 0xffffffff = .ok (some p, h', c') ∧
      c'.entries = above.entries ∧ ¬ Reserved s above 0xffffffff p h' c' := by
  obtain ⟨s, hboot, -⟩ := bootstrapped
  obtain ⟨p, hrun⟩ := hboot.backed.kmalloc_wrapped (by decide : 0xffffffff < 2 ^ 32) (by decide)
  refine ⟨s, p, _, _, hboot.backed, hrun, markBlock_zero .., ?_⟩
  rintro ⟨hnew | ⟨pr, hp, hold | hold⟩, -⟩
  · exact not_newFrames (by decide) hnew
  · exact hp.taken hold.2
  · exact hold.1 hp.inUse

end Kheap

end OS161
