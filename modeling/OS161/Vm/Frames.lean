import Mathlib.Order.Interval.Finset.Nat
import OS161.Lib.Run
import OS161.Vm.Coremap

/-! `allocate_frame` and `free_frame` in any order. -/
namespace OS161
namespace Coremap

variable {c : Coremap} {e : Nat → FrameInfo} {i j k m n fuel size : Nat}

/-- `n` frames from `i` on are marked free. -/
def FreeAt (c : Coremap) (i n : Nat) : Prop :=
  i + n ≤ c.size ∧ ∀ k, i ≤ k → k < i + n → (c.entries k).status = .unallocated

/-- The frames marked free. -/
def freeFrames (c : Coremap) : Finset Nat :=
  (Finset.range c.size).filter fun k => (c.entries k).status = .unallocated

theorem mem_freeFrames : k ∈ c.freeFrames ↔ k < c.size ∧ (c.entries k).status = .unallocated := by
  simp [freeFrames]

theorem FreeAt.subset (h : c.FreeAt i n) : Finset.Ico i (i + n) ⊆ c.freeFrames := by
  intro k hk
  obtain ⟨hik, hkn⟩ := Finset.mem_Ico.mp hk
  exact mem_freeFrames.mpr ⟨Nat.lt_of_lt_of_le hkn h.1, h.2 k hik hkn⟩

theorem FreeAt.le_card (h : c.FreeAt i n) : n ≤ c.freeFrames.card := by
  have hcard := Finset.card_le_card h.subset
  rw [Nat.card_Ico] at hcard
  omega

theorem freeRun_stop (h : c.freeRun i n < n) :
    (c.entries (i + c.freeRun i n)).status ≠ .unallocated := by
  induction n generalizing i with
  | zero => omega
  | succ n ih =>
    simp only [freeRun] at h ⊢
    split
    · rename_i hf
      rw [if_pos hf] at h
      have := ih (i := i + 1) (by omega)
      rwa [show i + (c.freeRun (i + 1) n + 1) = i + 1 + c.freeRun (i + 1) n by omega]
    · rename_i hf
      exact hf

/-- The search from `i` on, when no run starts before `i`. The jump past a taken frame leaves
out only starts whose run would contain that frame. -/
theorem search_spec (hno : ∀ j, j < i → ¬ c.FreeAt j n) (hfuel : c.size < i + fuel) :
    (∀ k, c.search n fuel i = some k → IsLeast {j | c.FreeAt j n} k) ∧
      (c.search n fuel i = none → ∀ j, ¬ c.FreeAt j n) := by
  induction fuel generalizing i with
  | zero =>
    refine ⟨by rintro _ ⟨⟩, fun _ j hj => ?_⟩
    have := hj.1
    exact hno j (by omega) hj
  | succ fuel ih =>
    simp only [search]
    by_cases hle : i + n ≤ c.size
    · rw [if_pos hle]
      by_cases hrun : c.freeRun i n = n
      · rw [if_pos hrun]
        refine ⟨?_, by simp⟩
        rintro k hk
        cases hk
        refine ⟨⟨hle, freeRun_eq_iff.mp hrun⟩, fun j hj => ?_⟩
        by_contra hlt
        exact hno j (by omega) hj
      · rw [if_neg hrun]
        have hlt : c.freeRun i n < n := Nat.lt_of_le_of_ne (freeRun_le i n) hrun
        refine ih ?_ (by omega)
        intro j hj hfree
        by_cases hji : j < i
        · exact hno j hji hfree
        · exact freeRun_stop hlt (hfree.2 _ (by omega) (by omega))
    · rw [if_neg hle]
      refine ⟨by simp, fun _ j hj => ?_⟩
      have := hj.1
      exact hno j (by omega) hj

/-- First fit: the lowest run if there is one, and no block otherwise. -/
theorem allocateFrame_firstFit (hcount : c.unallocatedFrame = c.freeFrames.card) (n : Nat) :
    ((c.allocateFrame n).1 = none ↔ ∀ i, ¬ c.FreeAt i n) ∧
      ∀ pa, (c.allocateFrame n).1 = some pa →
        ∃ i, IsLeast {j | c.FreeAt j n} i ∧ pa = c.frameAddr i := by
  have hspec : (∀ k, c.search n (c.size + 1) 0 = some k → IsLeast {j | c.FreeAt j n} k) ∧
      (c.search n (c.size + 1) 0 = none → ∀ j, ¬ c.FreeAt j n) :=
    search_spec (by omega) (by omega)
  unfold allocateFrame
  by_cases hn : (n : Int) > c.unallocatedFrame
  · rw [if_pos hn]
    refine ⟨iff_of_true rfl fun i hi => ?_, by simp⟩
    have := hi.le_card
    omega
  rw [if_neg hn]
  cases hs : c.search n (c.size + 1) 0 with
  | none => exact ⟨iff_of_true rfl (hspec.2 hs), by simp⟩
  | some i =>
    have hleast := hspec.1 i hs
    refine ⟨iff_of_false (by simp) fun hno => hno i hleast.1, ?_⟩
    rintro pa hpa
    cases hpa
    exact ⟨i, hleast, rfl⟩

/-- The loop of `free_frame` on entries of which the `m`th is the first with `alloc_size` 1. -/
theorem clearBlock_eq (hm : 0 < m) (hsize : i + m ≤ size) (hfuel : m ≤ fuel)
    (hne : ∀ k, k + 1 < m → (e (i + k)).allocSize ≠ 1) (hlast : (e (i + m - 1)).allocSize = 1) :
    clearBlock size fuel i e = (fun k => if i ≤ k ∧ k < i + m then .zero else e k, m) := by
  induction m generalizing fuel i e with
  | zero => omega
  | succ m ih =>
    obtain ⟨fuel, rfl⟩ : ∃ f, fuel = f + 1 := ⟨fuel - 1, by omega⟩
    rw [clearBlock, if_pos (by omega)]
    by_cases h0 : m = 0
    · subst h0
      rw [if_pos (by simpa using hlast)]
      congr 1
      funext k
      by_cases hk : k = i
      · simp [hk]
      · rw [Function.update_of_ne hk, if_neg (by omega)]
    · rw [if_neg (by simpa using hne 0 (by omega))]
      have htail : clearBlock size fuel (i + 1) (Function.update e i .zero) =
          (fun k => if i + 1 ≤ k ∧ k < i + 1 + m then .zero else Function.update e i .zero k,
            m) := by
        refine ih (by omega) (by omega) (by omega) ?_ ?_
        · intro k hk
          rw [Function.update_of_ne (by omega), show i + 1 + k = i + (k + 1) by omega]
          exact hne (k + 1) (by omega)
        · rw [Function.update_of_ne (by omega), ← hlast]
          congr 2
          omega
      simp only [htail]
      congr 1
      funext k
      by_cases hk : k = i
      · simp [hk]
      · rw [Function.update_of_ne hk]
        exact if_congr (by omega) rfl rfl

/-- How many frames `free_frame` clears of a block of `n`: `alloc_size` has eight bits, so a longer
block has more than one entry that looks like its last. -/
def clearedOf (n : Nat) : Nat := (n - 1) % 256 + 1

theorem clearedOf_le (hn : 1 ≤ n) : clearedOf n ≤ n := by
  unfold clearedOf
  omega

theorem clearedOf_eq (hn : 1 ≤ n) (h : n ≤ 256) : clearedOf n = n := by
  unfold clearedOf
  omega

/-- `free_frame` of a block as `allocate_frame` marked it. -/
theorem freeFrame_block (hn : 1 ≤ n) (hin : i + n ≤ c.size)
    (hsize : ∀ k, k < n → (c.entries (i + k)).allocSize = BitVec.ofNat 8 (n - k)) :
    (c.freeFrame (paddrToKvaddr (c.frameAddr i))).entries =
        (fun k => if i ≤ k ∧ k < i + clearedOf n then .zero else c.entries k) ∧
      (c.freeFrame (paddrToKvaddr (c.frameAddr i))).unallocatedFrame
        = c.unallocatedFrame + clearedOf n ∧
      (c.freeFrame (paddrToKvaddr (c.frameAddr i))).kernelFrame = c.kernelFrame - clearedOf n := by
  have hle := clearedOf_le hn
  have hpos : 0 < clearedOf n := Nat.succ_pos _
  have hclear : clearBlock c.size c.size i c.entries =
      (fun k => if i ≤ k ∧ k < i + clearedOf n then .zero else c.entries k, clearedOf n) := by
    refine clearBlock_eq hpos (by omega) (by omega) ?_ ?_
    · intro k hk heq
      rw [hsize k (by omega)] at heq
      have := congrArg BitVec.toNat heq
      simp only [BitVec.toNat_ofNat, show (1 : BitVec 8).toNat = 1 from rfl] at this
      unfold clearedOf at hk
      omega
    · rw [show i + clearedOf n - 1 = i + (clearedOf n - 1) by omega, hsize _ (by omega)]
      apply BitVec.eq_of_toNat_eq
      simp only [BitVec.toNat_ofNat, show (1 : BitVec 8).toNat = 1 from rfl]
      unfold clearedOf
      omega
  have hi : i < c.size := by omega
  simp only [freeFrame, kvaddrToPaddr_paddrToKvaddr, frameIndex_frameAddr hi, hclear]
  exact ⟨trivial, trivial, trivial⟩

end Coremap

/-- A block `allocate_frame` returned. -/
structure Block where
  pa : Paddr
  n : Nat
  deriving DecidableEq

/-- The coremap and the blocks returned and not yet freed. -/
structure FrameState where
  coremap : Coremap
  live : List Block

inductive FrameEvent where
  | alloc (n : Nat)
  | free (b : Block)

/-- A call of the allocator; a block is freed by whoever got it, and once. -/
inductive FrameStep : FrameState → FrameEvent → FrameState → Prop where
  | alloc {s : FrameState} {n : Nat} (hn : 1 ≤ n) :
    FrameStep s (.alloc n)
      ⟨(s.coremap.allocateFrame n).2,
        match (s.coremap.allocateFrame n).1 with
        | some pa => ⟨pa, n⟩ :: s.live
        | none => s.live⟩
  | free {s : FrameState} {b : Block} (hb : b ∈ s.live) :
    FrameStep s (.free b) ⟨s.coremap.freeFrame (paddrToKvaddr b.pa), s.live.erase b⟩

/-- The coremap as `coremap_initialization` leaves it. -/
structure Coremap.Booted (c : Coremap) : Prop where
  entries : ∀ k, k < c.size → c.entries k = .zero
  unallocated : c.unallocatedFrame = c.size
  kernel : c.kernelFrame = 0

namespace FrameState

/-- The frames of a block. -/
def frames (s : FrameState) (b : Block) : Finset Nat :=
  Finset.Ico (s.coremap.frameIndex b.pa) (s.coremap.frameIndex b.pa + b.n)

/-- A frame that no block holds. -/
def Free (s : FrameState) (k : Nat) : Prop :=
  k < s.coremap.size ∧ ∀ b ∈ s.live, k ∉ s.frames b

end FrameState

/-- A block's entries: its address, and `alloc_size` counting down modulo 256. -/
structure BlockOk (c : Coremap) (b : Block) (i : Nat) : Prop where
  pa : b.pa = c.frameAddr i
  pos : 1 ≤ b.n
  inside : i + b.n ≤ c.size
  taken : ∀ k, k < b.n → (c.entries (i + k)).status = .kernelAllocated
  allocSize : ∀ k, k < b.n → (c.entries (i + k)).allocSize = BitVec.ofNat 8 (b.n - k)

structure FramesInv (s : FrameState) : Prop where
  blocks : ∀ b ∈ s.live, ∃ i, BlockOk s.coremap b i
  disjoint : s.live.Pairwise fun a b => Disjoint (s.frames a) (s.frames b)
  count : s.coremap.unallocatedFrame = s.coremap.freeFrames.card
  total : s.coremap.unallocatedFrame + s.coremap.kernelFrame = s.coremap.size

section
variable {s s' : FrameState} {a : FrameEvent} {b : Block} {c c' : Coremap} {i k n : Nat}
  {es : List FrameEvent}

theorem BlockOk.frameIndex (h : BlockOk c b i) : c.frameIndex b.pa = i := by
  have hin := h.inside
  have hpos := h.pos
  rw [h.pa, Coremap.frameIndex_frameAddr (by omega)]

theorem BlockOk.mem_frames (h : BlockOk s.coremap b i) : k ∈ s.frames b ↔ i ≤ k ∧ k < i + b.n := by
  rw [FrameState.frames, h.frameIndex, Finset.mem_Ico]

theorem BlockOk.not_free (h : BlockOk s.coremap b i) (hk : k ∈ s.frames b) :
    (s.coremap.entries k).status = .kernelAllocated := by
  obtain ⟨hik, hkn⟩ := h.mem_frames.mp hk
  have := h.taken (k - i) (by omega)
  rwa [show i + (k - i) = k by omega] at this

theorem BlockOk.frame (h : BlockOk c b i) (hsize : c'.size = c.size) (h0 : c'.frame0 = c.frame0)
    (hsame : ∀ k, i ≤ k → k < i + b.n → c'.entries k = c.entries k) : BlockOk c' b i := by
  refine ⟨?_, h.pos, hsize ▸ h.inside, ?_, ?_⟩
  · rw [h.pa, Coremap.frameAddr, Coremap.frameAddr, h0]
  · intro k hk
    rw [hsame (i + k) (by omega) (by omega), h.taken k hk]
  · intro k hk
    rw [hsame (i + k) (by omega) (by omega), h.allocSize k hk]

theorem framesInv_boot (h : c.Booted) : FramesInv ⟨c, []⟩ := by
  refine ⟨by simp, .nil, ?_, ?_⟩
  · have hall : c.freeFrames = Finset.range c.size := by
      refine Finset.filter_true_of_mem fun k hk => ?_
      rw [h.entries k (Finset.mem_range.mp hk)]
      rfl
    rw [hall, Finset.card_range, h.unallocated]
  · show c.unallocatedFrame + c.kernelFrame = c.size
    rw [h.unallocated, h.kernel, add_zero]

section
variable (h : FramesInv s)
include h

theorem FramesInv.mark (hn : 1 ≤ n) (hfree : s.coremap.FreeAt i n) :
    FramesInv ⟨s.coremap.markBlock i n, ⟨s.coremap.frameAddr i, n⟩ :: s.live⟩ := by
  have hin := hfree.1
  have hnew : BlockOk (s.coremap.markBlock i n) ⟨s.coremap.frameAddr i, n⟩ i := by
    refine ⟨rfl, hn, hin, ?_, ?_⟩
    · intro k hk
      simp [Coremap.markBlock, show k < n from hk]
    · intro k hk
      simp [Coremap.markBlock, show k < n from hk]
  have hold : ∀ b ∈ s.live, ∀ k ∈ s.frames b, ¬ (i ≤ k ∧ k < i + n) := by
    rintro b hb k hk ⟨hik, hkn⟩
    obtain ⟨i', hi'⟩ := h.blocks b hb
    have hst := hi'.not_free hk
    rw [hfree.2 k hik hkn] at hst
    cases hst
  refine ⟨?_, ?_, ?_, ?_⟩
  · intro b hb
    rcases List.mem_cons.mp hb with rfl | hb
    · exact ⟨i, hnew⟩
    obtain ⟨i', hi'⟩ := h.blocks b hb
    refine ⟨i', hi'.frame rfl rfl fun k hik hkn => ?_⟩
    exact if_neg (hold b hb k (hi'.mem_frames.mpr ⟨hik, hkn⟩))
  · refine List.pairwise_cons.mpr ⟨?_, h.disjoint⟩
    intro b hb
    rw [Finset.disjoint_left]
    intro k hk hkb
    exact hold b hb k hkb ((BlockOk.mem_frames (s := ⟨s.coremap.markBlock i n, _⟩) hnew).mp hk)
  · have hset : (s.coremap.markBlock i n).freeFrames
        = s.coremap.freeFrames \ Finset.Ico i (i + n) := by
      ext k
      rw [Coremap.mem_freeFrames, Finset.mem_sdiff, Coremap.mem_freeFrames, Finset.mem_Ico]
      by_cases hk : i ≤ k ∧ k < i + n
      · simp [Coremap.markBlock, hk]
      · simp [Coremap.markBlock, hk]
    have hcard := hfree.le_card
    show s.coremap.unallocatedFrame - n = _
    rw [hset, Finset.card_sdiff_of_subset hfree.subset, Nat.card_Ico, h.count]
    omega
  · have htotal := h.total
    show s.coremap.unallocatedFrame - n + (s.coremap.kernelFrame + n) = s.coremap.size
    omega

theorem FramesInv.alloc (hn : 1 ≤ n) :
    FramesInv ⟨(s.coremap.allocateFrame n).2,
      match (s.coremap.allocateFrame n).1 with
      | some pa => ⟨pa, n⟩ :: s.live
      | none => s.live⟩ := by
  unfold Coremap.allocateFrame
  split
  · exact h
  cases hs : s.coremap.search n (s.coremap.size + 1) 0 with
  | none => exact h
  | some i => exact h.mark hn (Coremap.search_some hs)

theorem FramesInv.freed (hb : b ∈ s.live) : ∃ i, BlockOk s.coremap b i ∧
    (s.coremap.freeFrame (paddrToKvaddr b.pa)).entries =
      (fun k => if i ≤ k ∧ k < i + Coremap.clearedOf b.n then .zero else s.coremap.entries k) ∧
    (s.coremap.freeFrame (paddrToKvaddr b.pa)).unallocatedFrame
      = s.coremap.unallocatedFrame + Coremap.clearedOf b.n ∧
    (s.coremap.freeFrame (paddrToKvaddr b.pa)).kernelFrame
      = s.coremap.kernelFrame - Coremap.clearedOf b.n := by
  obtain ⟨i, hi⟩ := h.blocks b hb
  refine ⟨i, hi, ?_⟩
  rw [hi.pa]
  exact Coremap.freeFrame_block hi.pos hi.inside hi.allocSize

/-- The other blocks are apart from the one freed. -/
theorem FramesInv.erase_disjoint (hb : b ∈ s.live) :
    (∀ a ∈ s.live.erase b, Disjoint (s.frames b) (s.frames a)) ∧
      (s.live.erase b).Pairwise fun a b => Disjoint (s.frames a) (s.frames b) := by
  have hp := (List.Perm.pairwise_iff (fun hab => Disjoint.symm hab)
    (List.perm_cons_erase hb)).mp h.disjoint
  exact List.pairwise_cons.mp hp

theorem FramesInv.free (hb : b ∈ s.live) :
    FramesInv ⟨s.coremap.freeFrame (paddrToKvaddr b.pa), s.live.erase b⟩ := by
  obtain ⟨i, hi, hent, hun, hker⟩ := h.freed hb
  obtain ⟨hapart, hpair⟩ := h.erase_disjoint hb
  have hle := Coremap.clearedOf_le hi.pos
  have hin := hi.inside
  refine ⟨?_, hpair, ?_, ?_⟩
  · intro a ha
    obtain ⟨i', hi'⟩ := h.blocks a (List.mem_of_mem_erase ha)
    refine ⟨i', hi'.frame rfl rfl fun k hik hkn => ?_⟩
    rw [hent]
    refine if_neg fun hk => ?_
    exact Finset.disjoint_left.mp (hapart a ha) (hi.mem_frames.mpr ⟨hk.1, by omega⟩)
      (hi'.mem_frames.mpr ⟨hik, hkn⟩)
  · have hset : (s.coremap.freeFrame (paddrToKvaddr b.pa)).freeFrames
        = s.coremap.freeFrames ∪ Finset.Ico i (i + Coremap.clearedOf b.n) := by
      ext k
      rw [Coremap.mem_freeFrames, Finset.mem_union, Coremap.mem_freeFrames, Finset.mem_Ico, hent]
      have hsize : (s.coremap.freeFrame (paddrToKvaddr b.pa)).size = s.coremap.size := rfl
      by_cases hk : i ≤ k ∧ k < i + Coremap.clearedOf b.n
      · have : k < s.coremap.size := by omega
        simp [hk, hsize, this, FrameInfo.zero]
      · simp [hk, hsize]
    have hdis : Disjoint s.coremap.freeFrames (Finset.Ico i (i + Coremap.clearedOf b.n)) := by
      rw [Finset.disjoint_left]
      intro k hk hk'
      obtain ⟨hik, hkn⟩ := Finset.mem_Ico.mp hk'
      have hst := hi.not_free (hi.mem_frames.mpr ⟨hik, by omega⟩)
      rw [(Coremap.mem_freeFrames.mp hk).2] at hst
      cases hst
    rw [hun, hset, Finset.card_union_of_disjoint hdis, Nat.card_Ico, h.count]
    omega
  · have htotal := h.total
    show (s.coremap.freeFrame (paddrToKvaddr b.pa)).unallocatedFrame +
      (s.coremap.freeFrame (paddrToKvaddr b.pa)).kernelFrame = s.coremap.size
    omega

end

theorem FramesInv.step (hs : FrameStep s a s') (h : FramesInv s) : FramesInv s' := by
  cases hs with
  | alloc hn => exact h.alloc hn
  | free hb => exact h.free hb

/-- Whatever the sizes, the blocks stay apart, the counters agree with the map and the search is
complete for the frames marked free. -/
theorem framesInv_run (h0 : c.Booted) (h : Lts.Run FrameStep ⟨c, []⟩ es s) : FramesInv s :=
  h.invariant FramesInv (fun _ _ _ => FramesInv.step) (framesInv_boot h0)

/-- No block of more than 256 frames is asked for. -/
def SmallBlock (_ : FrameState) (a : FrameEvent) : Prop := ∀ n, a = .alloc n → n ≤ 256

/-- Every frame that is not free is held by a block, of at most 256 frames. -/
structure Exact (s : FrameState) : Prop where
  held : ∀ k, k < s.coremap.size → (s.coremap.entries k).status ≠ .unallocated →
    ∃ b ∈ s.live, k ∈ s.frames b
  small : ∀ b ∈ s.live, b.n ≤ 256

theorem exact_boot (h0 : c.Booted) : Exact ⟨c, []⟩ := by
  refine ⟨?_, by simp⟩
  intro k hk hst
  rw [h0.entries k hk] at hst
  exact (hst rfl).elim

theorem Exact.mark (h : Exact s) (hi : FramesInv s) (hn : 1 ≤ n) (hsmall : n ≤ 256)
    (hfree : s.coremap.FreeAt i n) :
    Exact ⟨s.coremap.markBlock i n, ⟨s.coremap.frameAddr i, n⟩ :: s.live⟩ := by
  refine ⟨?_, List.forall_mem_cons.mpr ⟨hsmall, h.small⟩⟩
  intro k hk hst
  by_cases hnew : i ≤ k ∧ k < i + n
  · refine ⟨_, List.mem_cons_self, ?_⟩
    obtain ⟨j, hj⟩ := (hi.mark hn hfree).blocks _ List.mem_cons_self
    have hji : i = j := by
      rw [← hj.frameIndex]
      exact (Coremap.frameIndex_frameAddr (by omega)).symm
    subst hji
    exact hj.mem_frames.mpr hnew
  · have hsame : (s.coremap.markBlock i n).entries k = s.coremap.entries k := if_neg hnew
    obtain ⟨b, hb, hkb⟩ := h.held k hk (hsame ▸ hst)
    exact ⟨b, List.mem_cons_of_mem _ hb, hkb⟩

theorem Exact.step (hs : FrameStep s a s') (hsmall : SmallBlock s a) (hi : FramesInv s)
    (h : Exact s) : Exact s' := by
  cases hs with
  | @alloc n hn =>
    unfold Coremap.allocateFrame
    split
    · exact h
    cases hsearch : s.coremap.search n (s.coremap.size + 1) 0 with
    | none => exact h
    | some i => exact h.mark hi hn (hsmall n rfl) (Coremap.search_some hsearch)
  | @free b hb =>
    obtain ⟨i, hbi, hent, -⟩ := hi.freed hb
    rw [Coremap.clearedOf_eq hbi.pos (h.small b hb)] at hent
    refine ⟨?_, fun a ha => h.small a (List.mem_of_mem_erase ha)⟩
    intro k hk hst
    simp only [hent] at hst
    split at hst
    · exact (hst rfl).elim
    rename_i hout
    obtain ⟨a, ha, hka⟩ := h.held k hk hst
    have hne : a ≠ b := by
      rintro rfl
      exact hout (hbi.mem_frames.mp hka)
    exact ⟨a, (List.mem_erase_of_ne hne).mpr ha, hka⟩

/-- A frame is marked free exactly when no block holds it. -/
theorem Exact.free_iff (h : Exact s) (hi : FramesInv s) (hk : k < s.coremap.size) :
    (s.coremap.entries k).status = .unallocated ↔ s.Free k := by
  constructor
  · intro hst
    refine ⟨hk, fun b hb hkb => ?_⟩
    obtain ⟨j, hj⟩ := hi.blocks b hb
    rw [hj.not_free hkb] at hst
    cases hst
  · intro hfree
    by_contra hst
    obtain ⟨b, hb, hkb⟩ := h.held k hk hst
    exact hfree.2 b hb hkb

/-- The frame allocator over whole runs, with blocks of any sizes. The blocks in use are disjoint
runs of frames, the counters count the entries, and `allocate_frame` fails exactly if no `n`
consecutive frames are marked free and returns the lowest such run otherwise. -/
theorem frame_allocator_sound (h0 : c.Booted) (h : Lts.Run FrameStep ⟨c, []⟩ es s) :
    s.live.Pairwise (fun a b => Disjoint (s.frames a) (s.frames b)) ∧
    (∀ b ∈ s.live, s.frames b ⊆ Finset.range s.coremap.size) ∧
    s.coremap.unallocatedFrame = s.coremap.freeFrames.card ∧
    s.coremap.unallocatedFrame + s.coremap.kernelFrame = s.coremap.size ∧
    ∀ n, 1 ≤ n →
      ((s.coremap.allocateFrame n).1 = none ↔ ∀ i, ¬ s.coremap.FreeAt i n) ∧
      ∀ pa, (s.coremap.allocateFrame n).1 = some pa →
        ∃ i, IsLeast {j | s.coremap.FreeAt j n} i ∧ pa = s.coremap.frameAddr i := by
  have hi := framesInv_run h0 h
  refine ⟨hi.disjoint, ?_, hi.count, hi.total, fun n _ => ?_⟩
  · intro b hb k hk
    obtain ⟨i, hbi⟩ := hi.blocks b hb
    have hin := hbi.inside
    have hlt := (hbi.mem_frames.mp hk).2
    exact Finset.mem_range.mpr (by omega)
  · exact Coremap.allocateFrame_firstFit hi.count n

theorem FrameStep.geometry (hs : FrameStep s a s') :
    s'.coremap.size = s.coremap.size ∧ s'.coremap.frame0 = s.coremap.frame0 := by
  cases hs with
  | alloc hn =>
    unfold Coremap.allocateFrame
    split
    · exact ⟨rfl, rfl⟩
    · split <;> exact ⟨rfl, rfl⟩
  | free hb => exact ⟨rfl, rfl⟩

/-- A block is in use until it is freed itself. -/
theorem FrameStep.keeps (hs : FrameStep s a s') (ha : a ≠ .free b) (hb : b ∈ s.live) :
    b ∈ s'.live := by
  cases hs with
  | alloc hn =>
    split
    · exact List.mem_cons_of_mem _ hb
    · exact hb
  | @free b' hb' =>
    have hne : b ≠ b' := by
      rintro rfl
      exact ha rfl
    exact (List.mem_erase_of_ne hne).mpr hb

/-- The steps before a block is freed. -/
def BeforeFree (b : Block) (_ : FrameState) (a : FrameEvent) : Prop := a ≠ .free b

theorem run_keeps (h : Lts.Run (Lts.Restrict FrameStep (BeforeFree b)) s es s') (hb : b ∈ s.live) :
    b ∈ s'.live ∧ s'.coremap.frame0 = s.coremap.frame0 := by
  refine h.invariant (fun t => b ∈ t.live ∧ t.coremap.frame0 = s.coremap.frame0) ?_ ⟨hb, rfl⟩
  rintro t a t' ⟨hs, ha⟩ ⟨hbt, h0⟩
  exact ⟨hs.keeps ha hbt, hs.geometry.2.trans h0⟩

/-- The block `b` has been given back and `c'` is left: its entries are cleared, no other is
touched, and the counters have moved by its length. -/
structure FrameState.GaveBack (s : FrameState) (b : Block) (c' : Coremap) : Prop where
  block : ∀ k, k ∈ s.frames b → c'.entries k = .zero
  rest : ∀ k, k ∉ s.frames b → c'.entries k = s.coremap.entries k
  unallocated : c'.unallocatedFrame = s.coremap.unallocatedFrame + b.n
  kernel : c'.kernelFrame = s.coremap.kernelFrame - b.n

/-- `free_frame` gives back a whole block exactly if `alloc_size` can hold its length. -/
theorem FramesInv.gaveBack_iff (h : FramesInv s) (hb : b ∈ s.live) :
    s.GaveBack b (s.coremap.freeFrame (paddrToKvaddr b.pa)) ↔ b.n ≤ 256 := by
  obtain ⟨i, hi, hent, hun, hker⟩ := h.freed hb
  constructor
  · intro hback
    have hcount := hback.unallocated
    rw [hun] at hcount
    unfold Coremap.clearedOf at hcount
    omega
  · intro hsmall
    rw [Coremap.clearedOf_eq hi.pos hsmall] at hent hun hker
    refine ⟨fun k hk => ?_, fun k hk => ?_, hun, hker⟩
    · rw [hent]
      exact if_pos (hi.mem_frames.mp hk)
    · rw [hent]
      exact if_neg fun hin => hk (hi.mem_frames.mpr hin)

/-- The entry of a frame that a block of `n` holds as its `k`th. -/
def FrameInfo.held (n k : Nat) : FrameInfo := ⟨.kernelAllocated, 0, BitVec.ofNat 8 (n - k)⟩

/-- The entries are determined by the blocks in use. -/
structure Determined (s : FrameState) : Prop where
  free : ∀ k, s.Free k → s.coremap.entries k = .zero
  held : ∀ b ∈ s.live, ∀ k ∈ s.frames b,
    s.coremap.entries k = .held b.n (k - s.coremap.frameIndex b.pa)

theorem Determined.mark (h : Determined s) (hi : FramesInv s) (he : Exact s) (hn : 1 ≤ n)
    (hfree : s.coremap.FreeAt i n) :
    Determined ⟨s.coremap.markBlock i n, ⟨s.coremap.frameAddr i, n⟩ :: s.live⟩ := by
  have hin := hfree.1
  have hindex : s.coremap.frameIndex (s.coremap.frameAddr i) = i :=
    Coremap.frameIndex_frameAddr (by omega)
  have hnew : ∀ k, i ≤ k → k < i + n → s.coremap.entries k = .zero := fun k hik hkn =>
    h.free k ((he.free_iff hi (by omega)).mp (hfree.2 k hik hkn))
  constructor
  · rintro k ⟨hk, hout⟩
    have hnot : ¬ (i ≤ k ∧ k < i + n) := fun hin' =>
      hout _ List.mem_cons_self (Finset.mem_Ico.mpr (hindex.symm ▸ hin'))
    refine (if_neg hnot).trans (h.free k ⟨hk, fun b hb => hout b (List.mem_cons_of_mem _ hb)⟩)
  intro b hb k hk
  rcases List.mem_cons.mp hb with rfl | hb
  · have hin' := Finset.mem_Ico.mp hk
    simp only [Coremap.markBlock, Coremap.frameIndex] at hin' ⊢
    simp only [Coremap.frameIndex] at hindex
    rw [hindex] at hin' ⊢
    rw [if_pos hin', hnew k hin'.1 hin'.2]
    rfl
  · obtain ⟨j, hj⟩ := hi.blocks b hb
    have hnot : ¬ (i ≤ k ∧ k < i + n) := by
      rintro ⟨hik, hkn⟩
      have hst := hj.not_free hk
      rw [hfree.2 k hik hkn] at hst
      cases hst
    exact (if_neg hnot).trans (h.held b hb k hk)

theorem Determined.step (hs : FrameStep s a s') (hsmall : SmallBlock s a) (hi : FramesInv s)
    (he : Exact s) (h : Determined s) : Determined s' := by
  cases hs with
  | @alloc n hn =>
    unfold Coremap.allocateFrame
    split
    · exact h
    cases hsearch : s.coremap.search n (s.coremap.size + 1) 0 with
    | none => exact h
    | some i => exact h.mark hi he hn (Coremap.search_some hsearch)
  | @free b hb =>
    obtain ⟨hzero, hsame, _⟩ := (hi.gaveBack_iff hb).mpr (he.small b hb)
    obtain ⟨hapart, _⟩ := hi.erase_disjoint hb
    constructor
    · rintro k ⟨hk, hout⟩
      by_cases hkb : k ∈ s.frames b
      · exact hzero k hkb
      refine (hsame k hkb).trans (h.free k ⟨hk, fun a ha hka => ?_⟩)
      have hne : a ≠ b := by
        rintro rfl
        exact hkb hka
      exact hout a ((List.mem_erase_of_ne hne).mpr ha) hka
    · intro a ha k hk
      have hkb : k ∉ s.frames b := fun hkb => Finset.disjoint_left.mp (hapart a ha) hkb hk
      exact (hsame k hkb).trans (h.held a (List.mem_of_mem_erase ha) k hk)

/-- A run in which every block asked for has at most 256 frames. -/
theorem determined_run (h0 : c.Booted)
    (h : Lts.Run (Lts.Restrict FrameStep SmallBlock) ⟨c, []⟩ es s) :
    FramesInv s ∧ Exact s ∧ Determined s ∧ s.coremap.size = c.size ∧
      s.coremap.frame0 = c.frame0 := by
  refine h.invariant (fun t => FramesInv t ∧ Exact t ∧ Determined t ∧
    t.coremap.size = c.size ∧ t.coremap.frame0 = c.frame0) ?_
    ⟨framesInv_boot h0, exact_boot h0, ⟨fun k hk => h0.entries k hk.1, by simp⟩, rfl, rfl⟩
  rintro s a s' ⟨hs, hsmall⟩ ⟨hi, he, hd, hsize, hframe⟩
  exact ⟨hi.step hs, he.step hs hsmall hi, hd.step hs hsmall hi he,
    hs.geometry.1.trans hsize, hs.geometry.2.trans hframe⟩

/-- A run that ends with the blocks it began with has put every entry back. -/
theorem Determined.unique (hd : Determined s) (hd' : Determined s') (he : Exact s)
    (hi : FramesInv s)
    (hgeo : s'.coremap.size = s.coremap.size ∧ s'.coremap.frame0 = s.coremap.frame0)
    (hlive : s'.live.Perm s.live) (hk : k < s.coremap.size) :
    s'.coremap.entries k = s.coremap.entries k := by
  have hframes : ∀ b, s'.frames b = s.frames b := by
    intro b
    simp only [FrameState.frames, Coremap.frameIndex, hgeo.2]
  by_cases hfree : s.Free k
  · have hfree' : s'.Free k := by
      refine ⟨hgeo.1 ▸ hk, fun b hb => ?_⟩
      rw [hframes]
      exact hfree.2 b (hlive.mem_iff.mp hb)
    rw [hd.free k hfree, hd'.free k hfree']
  · obtain ⟨b, hb, hkb⟩ := he.held k hk fun hst => hfree ((he.free_iff hi hk).mp hst)
    rw [hd.held b hb k hkb, hd'.held b (hlive.mem_iff.mpr hb) k (hframes b ▸ hkb)]
    simp only [Coremap.frameIndex, hgeo.2]

/-- `free_frame` right after `allocate_frame` has put the coremap back: the `n` frames from `i` on
are free and everything else is as it was. -/
structure Coremap.Restored (c : Coremap) (i n : Nat) (c' : Coremap) : Prop where
  free : c.FreeAt i n
  block : ∀ k, i ≤ k → k < i + n → c'.entries k = .zero
  rest : ∀ k, ¬ (i ≤ k ∧ k < i + n) → c'.entries k = c.entries k
  unallocated : c'.unallocatedFrame = c.unallocatedFrame
  kernel : c'.kernelFrame = c.kernelFrame

theorem Coremap.clearBlock_pos {e : Nat → FrameInfo} {size fuel : Nat} (hi : i < size) :
    0 < (clearBlock size (fuel + 1) i e).2 := by
  rw [clearBlock, if_pos hi]
  split
  · exact Nat.one_pos
  · exact Nat.succ_pos _

/-- A block of no frames is any block to `free_frame`: it clears what stands at its address. -/
theorem Coremap.freeFrame_empty (h : 0 < c.size) :
    c.unallocatedFrame < (c.freeFrame (paddrToKvaddr (c.frameAddr 0))).unallocatedFrame := by
  obtain ⟨size, hsize⟩ : ∃ size, c.size = size + 1 := ⟨c.size - 1, by omega⟩
  have hpos := @clearBlock_pos 0 c.entries c.size size h
  rw [← hsize] at hpos
  simp only [freeFrame, kvaddrToPaddr_paddrToKvaddr, frameIndex_frameAddr h]
  omega

theorem Coremap.restored_iff {pa : Paddr} (ha : c.allocateFrame n = (some pa, c')) :
    (∃ i, pa = c.frameAddr i ∧ c.Restored i n (c'.freeFrame (paddrToKvaddr pa))) ↔
      n ≤ 256 ∧ (1 ≤ n ∨ c.size = 0) := by
  unfold allocateFrame at ha
  split at ha
  · simp at ha
  split at ha
  · simp at ha
  rename_i hroom i hsearch
  obtain ⟨hpa, rfl⟩ := Prod.mk.inj ha
  cases hpa
  have hfree := search_some hsearch
  have haddr : (c.markBlock i n).frameAddr i = c.frameAddr i := rfl
  rcases Nat.eq_zero_or_pos n with rfl | hn
  · obtain rfl : i = 0 := by simpa [search, freeRun] using hsearch.symm
    constructor
    · rintro ⟨_, -, hback⟩
      refine ⟨Nat.zero_le _, .inr (Nat.eq_zero_of_not_pos fun hsize => ?_)⟩
      have hmore := freeFrame_empty (c := c.markBlock 0 0) hsize
      rw [haddr, hback.unallocated] at hmore
      simp [markBlock] at hmore
    · rintro ⟨-, hn | hsize⟩
      · omega
      · refine ⟨0, rfl, hfree, by omega, fun k _ => ?_, ?_, ?_⟩ <;>
          simp [freeFrame, markBlock, hsize, clearBlock]
  · have hsize : ∀ k, k < n →
        ((c.markBlock i n).entries (i + k)).allocSize = BitVec.ofNat 8 (n - k) := by
      intro k hk
      simp [markBlock, hk]
    obtain ⟨hent, hun, hker⟩ := freeFrame_block (c := c.markBlock i n) hn hfree.1 hsize
    rw [haddr] at hent hun hker
    constructor
    · rintro ⟨_, -, hback⟩
      have hcount := hback.unallocated
      rw [hun] at hcount
      simp only [markBlock] at hcount
      unfold clearedOf at hcount
      omega
    · rintro ⟨hsmall, -⟩
      rw [clearedOf_eq hn hsmall] at hent hun hker
      refine ⟨i, rfl, hfree, ?_, ?_, ?_, ?_⟩
      · intro k hik hkn
        rw [hent]
        exact if_pos ⟨hik, hkn⟩
      · intro k hk
        rw [hent]
        exact (if_neg hk).trans (if_neg hk)
      · rw [hun]
        simp [markBlock]
      · rw [hker]
        simp [markBlock]

/-- Allocation and release are inverse exactly for blocks of at most 256 frames: at once on any
coremap, where a block of no frames is restored only if there are no frames at all, and with other
blocks of any sizes allocated and freed in between. A run of such allocations and releases that ends
with the blocks it began with leaves the coremap as it was. -/
theorem allocate_free_inverse (h0 : c.Booted) :
    (∀ c₁ c₂ n pa, Coremap.allocateFrame c₁ n = (some pa, c₂) →
      ((∃ i, pa = c₁.frameAddr i ∧ c₁.Restored i n (c₂.freeFrame (paddrToKvaddr pa))) ↔
        n ≤ 256 ∧ (1 ≤ n ∨ c₁.size = 0))) ∧
    (∀ es es' s t n pa c₁, Lts.Run FrameStep ⟨c, []⟩ es s → 1 ≤ n →
      s.coremap.allocateFrame n = (some pa, c₁) →
      Lts.Run (Lts.Restrict FrameStep (BeforeFree ⟨pa, n⟩)) ⟨c₁, ⟨pa, n⟩ :: s.live⟩ es' t →
      t.frames ⟨pa, n⟩ = s.frames ⟨pa, n⟩ ∧
      (∀ k, k ∈ t.frames ⟨pa, n⟩ → (t.coremap.entries k).status = .kernelAllocated) ∧
      (t.GaveBack ⟨pa, n⟩ (t.coremap.freeFrame (paddrToKvaddr pa)) ↔ n ≤ 256)) ∧
    ∀ es es' s t, Lts.Run (Lts.Restrict FrameStep SmallBlock) ⟨c, []⟩ es s →
      Lts.Run (Lts.Restrict FrameStep SmallBlock) s es' t → t.live.Perm s.live →
      (∀ k, k < s.coremap.size → t.coremap.entries k = s.coremap.entries k) ∧
        t.coremap.unallocatedFrame = s.coremap.unallocatedFrame ∧
        t.coremap.kernelFrame = s.coremap.kernelFrame := by
  refine ⟨?_, ?_, ?_⟩
  · intro c₁ c₂ n pa ha
    exact Coremap.restored_iff ha
  · intro es es' s t n pa c₁ hrun hn ha hrun'
    have hstep : FrameStep s (.alloc n) ⟨c₁, ⟨pa, n⟩ :: s.live⟩ := by
      have halloc := FrameStep.alloc (s := s) hn
      simp only [ha] at halloc
      exact halloc
    have hi : FramesInv t := (hrun'.mono fun _ _ _ hs => hs.1).invariant FramesInv
      (fun _ _ _ => FramesInv.step) ((framesInv_run h0 hrun).step hstep)
    obtain ⟨hb, hframe⟩ := run_keeps hrun' List.mem_cons_self
    obtain ⟨j, hj⟩ := hi.blocks _ hb
    refine ⟨?_, fun k hk => hj.not_free hk, hi.gaveBack_iff hb⟩
    have hframe' : t.coremap.frame0 = s.coremap.frame0 := hframe.trans hstep.geometry.2
    simp only [FrameState.frames, Coremap.frameIndex, hframe']
  · intro es es' s t hrun hrun' hlive
    obtain ⟨hi, he, hd, hsize, hframe⟩ := determined_run h0 hrun
    obtain ⟨hi', he', hd', hsize', hframe'⟩ := determined_run h0 (hrun.append hrun')
    have hent : ∀ k, k < s.coremap.size → t.coremap.entries k = s.coremap.entries k := fun k hk =>
      hd.unique hd' he hi ⟨hsize'.trans hsize.symm, hframe'.trans hframe.symm⟩ hlive hk
    have hcount : t.coremap.unallocatedFrame = s.coremap.unallocatedFrame := by
      rw [hi'.count, hi.count]
      congr 2
      ext k
      rw [Coremap.mem_freeFrames, Coremap.mem_freeFrames, hsize', hsize]
      refine and_congr_right fun hk => ?_
      rw [hent k (hsize ▸ hk)]
    refine ⟨hent, hcount, ?_⟩
    have htotal := hi.total
    have htotal' := hi'.total
    omega

end

/-- A machine with room for 257 frames. -/
def room : Coremap := ⟨fun _ => .zero, 257, 0x1000#32, 257, 0, by decide, by decide, by decide⟩

theorem room_booted : room.Booted := ⟨fun _ _ => rfl, rfl, rfl⟩

/-- A block longer than `alloc_size` can count is taken and given back, and then one frame. -/
theorem frame_allocator_sound_room :
    ∃ s, Lts.Run FrameStep ⟨room, []⟩ [.alloc 257, .free ⟨0x1000#32, 257⟩, .alloc 1] s ∧
      (s.live = [⟨0x1000#32, 1⟩] ∧ s.coremap.unallocatedFrame = 0) ∧ s.coremap.freeFrames = ∅ := by
  refine Lts.exists_run_and ⟨_, .head (.alloc (by decide)) (.head (.free (by decide +kernel))
    (.single (.alloc (by decide)))), by decide +kernel, by decide +kernel⟩ fun s hrun hs => ?_
  have hfree := (frame_allocator_sound room_booted hrun).2.2.1
  rw [hs.2] at hfree
  exact Finset.card_eq_zero.mp (by exact_mod_cast hfree.symm)

/-- Three frames are taken and given back. -/
theorem allocate_free_inverse_room :
    ∃ c, room.allocateFrame 3 = (some 0x1000#32, c) ∧
      (c.freeFrame (paddrToKvaddr 0x1000#32)).unallocatedFrame = 257 := by
  obtain ⟨c, hc⟩ : ∃ c, room.allocateFrame 3 = (some 0x1000#32, c) := ⟨_, rfl⟩
  obtain ⟨_, _, hback⟩ := ((allocate_free_inverse room_booted).1 room c 3 0x1000#32 hc).mpr
    ⟨by decide, .inl (by decide)⟩
  exact ⟨c, hc, hback.unallocated⟩

/-- Of a block of 257 frames, `free_frame` gives back one. -/
theorem long_block_not_freed :
    ∃ c, room.allocateFrame 257 = (some 0x1000#32, c) ∧
      (c.freeFrame (paddrToKvaddr 0x1000#32)).unallocatedFrame = 1 ∧
      ((c.freeFrame (paddrToKvaddr 0x1000#32)).entries 1).status = .kernelAllocated := by
  have haddr : (room.allocateFrame 257).1 = some 0x1000#32 := by decide +kernel
  refine ⟨(room.allocateFrame 257).2, by rw [← haddr], ?_, ?_⟩
  · decide +kernel
  · decide +kernel

end OS161
