import OS161.Vm.Frames

/-! `coremap_initialization`: how many frames the coremap gets and where they start. -/
namespace OS161

open BitVec (toNat_sub toNat_add toNat_udiv toNat_ofNat toNat_mul)

/-- `sizeof(struct frame_info)`: four bytes and a pointer. -/
def frameInfoBytes : Word := 8#32

/-- What `ram.c` keeps: the first free physical address and the end of memory. -/
structure Ram where
  firstpaddr : Paddr
  lastpaddr : Paddr

namespace Ram
variable (r : Ram)

def ramStealmem (npages : Word) : Paddr × Ram :=
  let size := npages * pageSizeW
  if r.firstpaddr + size > r.lastpaddr then (0#32, r)
  else (r.firstpaddr, { r with firstpaddr := r.firstpaddr + size })

/-- `alloc_kpages` before VM_INITIALIZED is set. -/
def allocKpages (npages : Word) : Vaddr × Ram :=
  let p := r.ramStealmem npages
  (if p.1 = 0#32 then 0#32 else paddrToKvaddr p.1, p.2)

/-- `kmalloc` of at least LARGEST_SUBPAGE_SIZE bytes. -/
def kmallocLarge (sz : Word) : Vaddr × Ram := r.allocKpages ((sz + pageSizeW - 1#32) / pageSizeW)

end Ram

/-- What `coremap_initialization` sets up. -/
structure Boot where
  ram : Ram
  coremap : Vaddr
  coremapSize : Word
  npages : Word
  frame0Addr : Paddr

/-- `bzero` of a coremap that could not be allocated writes to address 0. -/
def Ram.coremapInitialization (r : Ram) : Except Crash Boot :=
  let lo := r.firstpaddr
  let hi := r.lastpaddr - pageSizeW
  let freeFramesNum := (hi - lo) / pageSizeW + 1#32
  let coremapSize := freeFramesNum * pageSizeW / (pageSizeW + frameInfoBytes)
  let npages := coremapSize * frameInfoBytes / pageSizeW + 1#32
  let p := r.kmallocLarge (npages * pageSizeW)
  if p.1 = 0#32 ∧ coremapSize ≠ 0#32 then .error .nullDeref
  else .ok ⟨p.2, p.1, coremapSize, npages, p.2.firstpaddr⟩

/-- What `ram_getsize` may report at boot. -/
structure Ram.Reported (r : Ram) : Prop where
  lt : r.firstpaddr.toNat < r.lastpaddr.toNat
  lo_aligned : r.firstpaddr.toNat % 4096 = 0
  hi_aligned : r.lastpaddr.toNat % 4096 = 0
  hi_le : r.lastpaddr.toNat ≤ 508 * 2 ^ 20

/-- The number of frames between the two. -/
def Ram.freeFrames (r : Ram) : Nat := (r.lastpaddr.toNat - r.firstpaddr.toNat) / 4096

/-- The frames of the coremap lie where the kernel can reach them. -/
structure Boot.Placed (b : Boot) : Prop where
  pos : 0 < b.frame0Addr.toNat
  aligned : b.frame0Addr.toNat % 4096 = 0
  kseg0 : b.frame0Addr.toNat + b.coremapSize.toNat * 4096 ≤ 2 ^ 29

/-- The coremap with which the frame allocator starts. -/
def Boot.start (b : Boot) (h : b.Placed) : Coremap :=
  ⟨fun _ => .zero, b.coremapSize.toNat, b.frame0Addr, b.coremapSize.toNat, 0, h.pos, h.aligned,
    h.kseg0⟩

/-- The coremap fits in its pages and covers real memory only, and so does every block that the
allocator returns later. -/
structure Boot.Covers (b : Boot) (hi : Paddr) : Prop where
  fits : b.coremapSize.toNat * frameInfoBytes.toNat ≤ b.npages.toNat * pageSize
  end_le : b.frame0Addr.toNat + b.coremapSize.toNat * pageSize ≤ hi.toNat
  blocks : ∀ (h : b.Placed) es s, Lts.Run FrameStep ⟨b.start h, []⟩ es s →
    ∀ bl ∈ s.live, bl.pa.toNat + bl.n * pageSize ≤ hi.toNat

section
variable {r : Ram} {b : Boot} {c : Coremap} {s : FrameState} {es : List FrameEvent}

/-- The sizes in ordinary arithmetic. -/
structure Boot.Sized (b : Boot) (r : Ram) : Prop where
  size : b.coremapSize.toNat = r.freeFrames * 4096 / 4104
  npages : b.npages.toNat = b.coremapSize.toNat * 8 / 4096 + 1
  frame0 : b.frame0Addr.toNat = r.firstpaddr.toNat + b.npages.toNat * 4096

section
variable (h : r.Reported)
include h

theorem Ram.Reported.range : 1 ≤ r.freeFrames ∧ r.freeFrames ≤ 130048 ∧
    r.lastpaddr.toNat = r.firstpaddr.toNat + r.freeFrames * 4096 := by
  obtain ⟨hlt, hlo, hhi, hle⟩ := h
  unfold freeFrames
  omega

/-- The words of the computation; none of them wraps. -/
theorem Ram.Reported.words (coremapSize npages : Word)
    (hsize : coremapSize = ((r.lastpaddr - pageSizeW - r.firstpaddr) / pageSizeW + 1#32) * pageSizeW
      / (pageSizeW + frameInfoBytes))
    (hnp : npages = coremapSize * frameInfoBytes / pageSizeW + 1#32) :
    coremapSize.toNat = r.freeFrames * 4096 / 4104 ∧
    npages.toNat = coremapSize.toNat * 8 / 4096 + 1 ∧
    ((npages * pageSizeW + pageSizeW - 1#32) / pageSizeW).toNat = npages.toNat ∧
    (npages * pageSizeW).toNat = npages.toNat * 4096 ∧ npages.toNat ≤ r.freeFrames := by
  obtain ⟨hpos, hmax, hhi⟩ := h.range
  have hfree : (r.lastpaddr - pageSizeW - r.firstpaddr).toNat = (r.freeFrames - 1) * 4096 := by
    simp only [toNat_sub, toNat_pageSizeW]
    omega
  have hframes : ((r.lastpaddr - pageSizeW - r.firstpaddr) / pageSizeW + 1#32).toNat
      = r.freeFrames := by
    simp only [toNat_add, toNat_udiv, hfree, toNat_pageSizeW, toNat_ofNat]
    omega
  have hs : coremapSize.toNat = r.freeFrames * 4096 / 4104 := by
    rw [hsize, toNat_udiv, toNat_mul, hframes, toNat_pageSizeW, Nat.mod_eq_of_lt (by omega)]
    rfl
  have hn : npages.toNat = coremapSize.toNat * 8 / 4096 + 1 := by
    rw [hnp, toNat_add, toNat_udiv, toNat_mul, toNat_pageSizeW,
      show frameInfoBytes.toNat = 8 from rfl,
      Nat.mod_eq_of_lt (a := coremapSize.toNat * 8) (by omega)]
    exact Nat.mod_eq_of_lt (by simp only [toNat_ofNat]; omega)
  have hm : (npages * pageSizeW).toNat = npages.toNat * 4096 := by
    simp only [toNat_mul, toNat_pageSizeW]
    omega
  refine ⟨hs, hn, ?_, hm, by omega⟩
  simp only [toNat_udiv, toNat_sub, toNat_add, hm, toNat_pageSizeW, toNat_ofNat]
  omega

/-- `coremap_initialization` gets its pages, unless memory starts at address 0. -/
theorem Ram.Reported.initialization :
    (r.firstpaddr = 0#32 ∧ r.freeFrames ≠ 1 ∧
      r.coremapInitialization = .error .nullDeref) ∨
    ((r.firstpaddr = 0#32 → r.freeFrames = 1) ∧
      ∃ b, r.coremapInitialization = .ok b ∧ b.Sized r) := by
  obtain ⟨hpos, hmax, hhi⟩ := h.range
  obtain ⟨hs, hn, hk, hm, hle⟩ := h.words _ _ rfl rfl
  simp only [coremapInitialization]
  generalize ((r.lastpaddr - pageSizeW - r.firstpaddr) / pageSizeW + 1#32) * pageSizeW
      / (pageSizeW + frameInfoBytes) = coremapSize at hs hn hk hm hle ⊢
  generalize coremapSize * frameInfoBytes / pageSizeW + 1#32 = npages at hn hk hm hle ⊢
  have hk := BitVec.eq_of_toNat_eq hk
  have hsum : (r.firstpaddr + npages * pageSizeW).toNat
      = r.firstpaddr.toNat + npages.toNat * 4096 := by
    rw [toNat_add, hm]
    omega
  have hsteal : r.ramStealmem npages
      = (r.firstpaddr, { r with firstpaddr := r.firstpaddr + npages * pageSizeW }) := by
    refine if_neg ?_
    rw [gt_iff_lt, BitVec.lt_def, hsum]
    omega
  have halloc : r.kmallocLarge (npages * pageSizeW) =
      (if r.firstpaddr = 0#32 then 0#32 else paddrToKvaddr r.firstpaddr,
        { r with firstpaddr := r.firstpaddr + npages * pageSizeW }) := by
    simp only [kmallocLarge, allocKpages, hk, hsteal]
  rw [halloc]
  have hzero : coremapSize = 0#32 ↔ r.freeFrames = 1 := by
    rw [← BitVec.toNat_inj, hs, toNat_ofNat]
    omega
  by_cases hcrash : r.firstpaddr = 0#32 ∧ coremapSize ≠ 0#32
  · refine .inl ⟨hcrash.1, fun h1 => hcrash.2 (hzero.mpr h1), if_pos ?_⟩
    exact ⟨if_pos hcrash.1, hcrash.2⟩
  have haddr : (if r.firstpaddr = 0#32 then 0#32 else paddrToKvaddr r.firstpaddr) = 0#32 →
      r.firstpaddr = 0#32 := by
    intro haddr
    by_contra h0
    have hle := h.hi_le
    have hb : (paddrToKvaddr r.firstpaddr).toNat = r.firstpaddr.toNat + 2147483648 :=
      toNat_paddrToKvaddr (by omega)
    rw [if_neg h0] at haddr
    rw [haddr] at hb
    simp at hb
  refine .inr ⟨fun h0 => ?_, ⟨_, if_neg fun hc => hcrash ⟨haddr hc.1, hc.2⟩, hs, hn, hsum⟩⟩
  by_contra h1
  exact hcrash ⟨h0, fun hc => h1 (hzero.mp hc)⟩

/-- The pages of the coremap and the frames it covers exceed the frames there are exactly when their
number is a multiple of 513. -/
theorem Boot.Sized.end_le_iff (hb : b.Sized r) :
    b.frame0Addr.toNat + b.coremapSize.toNat * 4096 ≤ r.lastpaddr.toNat
      ↔ r.freeFrames % 513 ≠ 0 := by
  obtain ⟨hpos, hmax, hhi⟩ := h.range
  obtain ⟨hs, hn, hf⟩ := hb
  have hsize : b.coremapSize.toNat = 512 * (r.freeFrames / 513) + (r.freeFrames % 513 - 1) := by
    omega
  omega

end

theorem block_end_le (hc : c.Booted) (hrun : Lts.Run FrameStep ⟨c, []⟩ es s) :
    ∀ bl ∈ s.live, bl.pa.toNat + bl.n * 4096 ≤ c.frame0.toNat + c.size * 4096 := by
  have hsame : s.coremap.size = c.size ∧ s.coremap.frame0 = c.frame0 := by
    refine hrun.invariant (fun s => s.coremap.size = c.size ∧ s.coremap.frame0 = c.frame0) ?_
      ⟨rfl, rfl⟩
    intro s a s' hs heq
    cases hs with
    | alloc hn =>
      unfold Coremap.allocateFrame
      split
      · exact heq
      split
      · exact heq
      · exact heq
    | free hb => exact heq
  intro bl hbl
  obtain ⟨i, hi⟩ := (framesInv_run hc hrun).blocks bl hbl
  have hin := hi.inside
  have hpos := hi.pos
  have haddr := Coremap.toNat_frameAddr (c := s.coremap) (i := i) (by omega)
  rw [← hi.pa, hsame.2] at haddr
  omega

/-- `coremap_initialization` covers real memory only, exactly if the number of free frames is not a
multiple of 513. (Were address 0 free memory, the coremap's address would read as a failure.) -/
theorem coremap_covers_iff (h : r.Reported) :
    (∃ b, r.coremapInitialization = .ok b ∧ b.Covers r.lastpaddr) ↔
      r.freeFrames % 513 ≠ 0 ∧ (r.firstpaddr = 0#32 → r.freeFrames = 1) := by
  rcases h.initialization with ⟨h0, h1, herr⟩ | ⟨h0, b, hb, hsized⟩
  · refine iff_of_false ?_ ?_
    · rintro ⟨b, hb, _⟩
      rw [herr] at hb
      cases hb
    · rintro ⟨_, h2⟩
      exact h1 (h2 h0)
  · have hend := hsized.end_le_iff h
    constructor
    · rintro ⟨b', hb', hcov⟩
      rw [hb] at hb'
      cases hb'
      exact ⟨hend.mp hcov.end_le, h0⟩
    rintro ⟨hmod, _⟩
    refine ⟨b, hb, ?_, hend.mpr hmod, ?_⟩
    · have hn := hsized.npages
      show b.coremapSize.toNat * 8 ≤ b.npages.toNat * 4096
      omega
    · intro hp es s hrun bl hbl
      have hle := block_end_le (c := b.start hp) ⟨fun _ _ => rfl, rfl, rfl⟩ hrun bl hbl
      exact Nat.le_trans hle (hend.mpr hmod)

end

/-- A machine with 600 free frames above a kernel of 256 KB. -/
theorem coremap_covers_small :
    (⟨0x40000#32, 0x298000#32⟩ : Ram).freeFrames = 600 ∧
      ∃ b, (⟨0x40000#32, 0x298000#32⟩ : Ram).coremapInitialization = .ok b ∧ b.Covers 0x298000#32 :=
  ⟨by decide, (coremap_covers_iff (r := ⟨0x40000#32, 0x298000#32⟩)
    ⟨by decide, by decide, by decide, by decide⟩).mpr ⟨by decide, by decide⟩⟩

/-- With 513 free frames the coremap takes two pages and covers 512 frames, the last of which lies
beyond the end of memory; a block of all frames is handed out there. -/
theorem coremap_beyond_memory :
    ∃ b, (⟨0x40000#32, 0x241000#32⟩ : Ram).coremapInitialization = .ok b ∧
      b.npages = 2#32 ∧ b.coremapSize = 512#32 ∧
      b.frame0Addr.toNat + b.coremapSize.toNat * pageSize = 0x242000 ∧ ¬ b.Covers 0x241000#32 := by
  refine ⟨_, rfl, by decide, by decide, by decide, ?_⟩
  intro h
  exact absurd h.end_le (by decide)

end OS161
