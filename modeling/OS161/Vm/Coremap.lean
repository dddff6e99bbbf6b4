import OS161.Base

/-! The coremap: the frame allocator and the reference counts of `coremap.c`. -/
namespace OS161

open Function (update)

inductive FrameStatus where
  | unallocated | kernelAllocated | userAllocated
  deriving DecidableEq, Repr

/-- The fields of `struct frame_info` that some function reads. -/
structure FrameInfo where
  status : FrameStatus
  shared : BitVec 8
  allocSize : BitVec 8
  deriving DecidableEq, Repr

/-- What `bzero` leaves in an entry. -/
def FrameInfo.zero : FrameInfo := ⟨.unallocated, 0, 0⟩

/-- The coremap and its counters. `ram_bootstrap` caps memory below the 512 MB that kseg0
maps, and the frames managed start above the kernel's own image. -/
structure Coremap where
  entries : Nat → FrameInfo
  size : Nat
  frame0 : Paddr
  unallocatedFrame : Int
  kernelFrame : Int
  frame0_pos : 0 < frame0.toNat
  frame0_aligned : frame0.toNat % 4096 = 0
  frames_in_kseg0 : frame0.toNat + size * 4096 ≤ 2 ^ 29

namespace Coremap
variable (c : Coremap)

def frameAddr (i : Nat) : Paddr := c.frame0 + BitVec.ofNat 32 (i * 4096)

def frameIndex (pa : Paddr) : Nat := (pa - c.frame0).toNat / 4096

/-- The inner `for` of `allocate_frame`: how many of the `n` frames from `i` on are free. -/
def freeRun (i : Nat) : Nat → Nat
  | 0 => 0
  | n + 1 => if (c.entries i).status = .unallocated then freeRun (i + 1) n + 1 else 0

/-- The outer `while` of `allocate_frame`, which skips past the frame that broke the run. -/
def search (n : Nat) : Nat → Nat → Option Nat
  | 0, _ => none
  | fuel + 1, i =>
    if i + n ≤ c.size then
      if c.freeRun i n = n then some i else search n fuel (i + c.freeRun i n + 1)
    else none

/-- The block at `index` after it is handed out: `alloc_size` counts down to 1. -/
def markBlock (index n : Nat) : Coremap :=
  { c with
    entries := fun k =>
      if index ≤ k ∧ k < index + n then
        { c.entries k with
          status := .kernelAllocated, allocSize := BitVec.ofNat 8 (n - (k - index)) }
      else c.entries k
    unallocatedFrame := c.unallocatedFrame - n
    kernelFrame := c.kernelFrame + n }

/-- `allocate_frame`; the address 0 it returns on failure is `none`. -/
def allocateFrame (n : Nat) : Option Paddr × Coremap :=
  if (n : Int) > c.unallocatedFrame then (none, c)
  else
    match c.search n (c.size + 1) 0 with
    | none => (none, c)
    | some index => (some (c.frameAddr index), c.markBlock index n)

/-- The `while` of `free_frame`: clear entries up to the first whose `alloc_size` is 1. -/
def clearBlock (size : Nat) : Nat → Nat → (Nat → FrameInfo) → (Nat → FrameInfo) × Nat
  | 0, _, e => (e, 0)
  | fuel + 1, i, e =>
    if i < size then
      if (e i).allocSize = 1 then (update e i .zero, 1)
      else
        let r := clearBlock size fuel (i + 1) (update e i .zero)
        (r.1, r.2 + 1)
    else (e, 0)

/-- `free_frame`, which takes the kernel virtual address of the block. -/
def freeFrame (addr : Vaddr) : Coremap :=
  let r := clearBlock c.size c.size (c.frameIndex (kvaddrToPaddr addr)) c.entries
  { c with
    entries := r.1
    unallocatedFrame := c.unallocatedFrame + r.2
    kernelFrame := c.kernelFrame - r.2 }

def setShared (i : Nat) (n : BitVec 8) : Coremap :=
  { c with entries := update c.entries i { c.entries i with shared := n } }

def increfcount (pa : Paddr) : Coremap :=
  c.setShared (c.frameIndex pa) ((c.entries (c.frameIndex pa)).shared + 1)

def decrefcount (pa : Paddr) : Coremap :=
  c.setShared (c.frameIndex pa) ((c.entries (c.frameIndex pa)).shared - 1)

def isShared (pa : Paddr) : Bool := (c.entries (c.frameIndex pa)).shared != 0

/-- `allocate_frame(1)` has a frame to hand out. -/
def HasFrame : Prop :=
  0 < c.unallocatedFrame ∧ ∃ i, i < c.size ∧ (c.entries i).status = .unallocated

variable {c} {i j n : Nat}

section
variable (hi : i < c.size)
include hi

theorem toNat_frameAddr : (c.frameAddr i).toNat = c.frame0.toNat + i * 4096 := by
  have hb := c.frames_in_kseg0
  simp only [frameAddr, BitVec.toNat_add, BitVec.toNat_ofNat]
  omega

@[simp] theorem frameIndex_frameAddr : c.frameIndex (c.frameAddr i) = i := by
  have he := toNat_frameAddr hi
  simp only [frameIndex, BitVec.toNat_sub, he]
  omega

theorem frameAddr_inj (hj : j < c.size) : c.frameAddr i = c.frameAddr j ↔ i = j := by
  constructor
  · intro h
    rw [← frameIndex_frameAddr hi, h, frameIndex_frameAddr hj]
  · rintro rfl
    rfl

theorem frameAddr_ne_zero : c.frameAddr i ≠ 0#32 := by
  intro h
  have he := toNat_frameAddr hi
  have := c.frame0_pos
  rw [h] at he
  simp at he
  omega

theorem frameAddr_aligned : (c.frameAddr i).toNat % 4096 = 0 := by
  have := toNat_frameAddr hi
  have := c.frame0_aligned
  omega

/-- A frame address has no bits below the frame field. -/
theorem ppage_frameAddr : ppage (c.frameAddr i) = c.frameAddr i := by
  apply BitVec.eq_of_toNat_eq
  have := frameAddr_aligned hi
  rw [ppage_eq_pageOf, toNat_pageOf]
  omega

theorem kvaddr_ne_zero : paddrToKvaddr (c.frameAddr i) ≠ 0#32 := by
  intro h
  have hb := c.frames_in_kseg0
  have he := toNat_frameAddr hi
  have hlt : (c.frameAddr i).toNat < 2147483648 := by omega
  have hk := toNat_paddrToKvaddr hlt
  rw [h] at hk
  simp at hk

end

theorem freeRun_le (i n : Nat) : c.freeRun i n ≤ n := by
  induction n generalizing i with
  | zero => simp [freeRun]
  | succ n ih =>
    simp only [freeRun]
    split
    · exact Nat.succ_le_succ (ih (i + 1))
    · exact Nat.zero_le _

theorem freeRun_eq_iff :
    c.freeRun i n = n ↔ ∀ k, i ≤ k → k < i + n → (c.entries k).status = .unallocated := by
  induction n generalizing i with
  | zero => simp [freeRun]; omega
  | succ n ih =>
    simp only [freeRun]
    split
    · rename_i hf
      rw [Nat.succ_inj, ih]
      constructor
      · intro h k hk hlt
        rcases Nat.eq_or_lt_of_le hk with rfl | hk
        · exact hf
        · exact h k hk (by omega)
      · intro h k hk hlt
        exact h k (by omega) (by omega)
    · rename_i hf
      constructor
      · omega
      · intro h
        exact (hf (h i (Nat.le_refl i) (by omega))).elim

variable {c' : Coremap} {fuel k : Nat} {pa : Paddr}

theorem search_some (h : c.search n fuel i = some k) :
    k + n ≤ c.size ∧ ∀ l, k ≤ l → l < k + n → (c.entries l).status = .unallocated := by
  induction fuel generalizing i with
  | zero => simp [search] at h
  | succ fuel ih =>
    simp only [search] at h
    split at h
    · rename_i hle
      split at h
      · rename_i hrun
        cases h
        exact ⟨hle, freeRun_eq_iff.mp hrun⟩
      · exact ih h
    · cases h

theorem search_one (hfree : (c.entries k).status = .unallocated) (hk : k < c.size)
    (hik : i ≤ k) (hfuel : k < i + fuel) : ∃ l, c.search 1 fuel i = some l := by
  induction fuel generalizing i with
  | zero => omega
  | succ fuel ih =>
    simp only [search]
    rw [if_pos (by omega)]
    by_cases hrun : c.freeRun i 1 = 1
    · exact ⟨i, if_pos hrun⟩
    rw [if_neg hrun]
    have hne : i ≠ k := by
      rintro rfl
      apply hrun
      simp [freeRun, hfree]
    have hle := freeRun_le (c := c) i 1
    exact ih (by omega) (by omega)

theorem HasFrame.allocateFrame (h : c.HasFrame) : ∃ pa c', c.allocateFrame 1 = (some pa, c') := by
  obtain ⟨hpos, k, hk, hfree⟩ := h
  obtain ⟨l, hl⟩ := search_one hfree hk (Nat.zero_le k) (by omega : k < 0 + (c.size + 1))
  have hnot : ¬ ((1 : Nat) : Int) > c.unallocatedFrame := by omega
  exact ⟨c.frameAddr l, c.markBlock l 1, by rw [Coremap.allocateFrame, if_neg hnot, hl]⟩

theorem hasFrame_of_allocateFrame (h : c.allocateFrame 1 = (some pa, c')) : c.HasFrame := by
  simp only [allocateFrame] at h
  split at h
  · simp at h
  rename_i hroom
  split at h
  · simp at h
  rename_i f hf
  obtain ⟨hlt, hfree⟩ := search_some hf
  exact ⟨by omega, f, by omega, hfree f (Nat.le_refl f) (by omega)⟩

theorem hasFrame_decrefcount : (c.decrefcount pa).HasFrame ↔ c.HasFrame := by
  have hstatus : ∀ i, ((c.decrefcount pa).entries i).status = (c.entries i).status := by
    intro i
    simp only [decrefcount, setShared, Function.update_apply]
    split
    · rename_i hi
      rw [hi]
    · rfl
  simp only [HasFrame, hstatus]
  rfl

theorem allocateFrame_one (h : c.allocateFrame 1 = (some pa, c')) :
    ∃ f, f < c.size ∧ (c.entries f).status = .unallocated ∧ pa = c.frameAddr f ∧
      c'.size = c.size ∧ c'.frame0 = c.frame0 ∧
      c'.entries = update c.entries f
        { c.entries f with status := .kernelAllocated, allocSize := 1 } := by
  simp only [allocateFrame] at h
  split at h
  · simp at h
  split at h
  · simp at h
  rename_i f hf
  obtain ⟨hlt, hfree⟩ := search_some hf
  obtain ⟨rfl, rfl⟩ := h
  refine ⟨f, hlt, hfree f (Nat.le_refl f) (by omega), rfl, rfl, rfl, ?_⟩
  funext k
  by_cases hk : k = f
  · subst k
    simp [markBlock]
  · have : ¬ (f ≤ k ∧ k < f + 1) := by omega
    simp only [markBlock, if_neg this, Function.update_of_ne hk]

theorem allocateFrame_none (h : c.allocateFrame n = (none, c')) : c' = c := by
  simp only [allocateFrame] at h
  split at h
  · cases h
    rfl
  split at h
  · cases h
    rfl
  · simp at h

theorem freeFrame_entries {f : Nat} (hf : f < c.size) (ha : (c.entries f).allocSize = 1) :
    (c.freeFrame (paddrToKvaddr (c.frameAddr f))).entries = update c.entries f .zero := by
  obtain ⟨k, hk⟩ : ∃ k, c.size = k + 1 := ⟨c.size - 1, by omega⟩
  have hc : clearBlock c.size (k + 1) f c.entries = (update c.entries f .zero, 1) := by
    simp [clearBlock, hf, ha]
  simp only [freeFrame, kvaddrToPaddr_paddrToKvaddr, frameIndex_frameAddr hf]
  rw [← hk] at hc
  rw [hc]

end Coremap

end OS161
