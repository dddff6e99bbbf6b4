import OS161.Sfs.Truncate
import OS161.Lib.Run

/-! What `sfs_truncate` leaves behind, and whether it can be read again. -/
namespace OS161.Sfs

open Buffer

variable {L : Set Nat} {s t : Fs} {v len fb n size : Nat} {p : Place}

/-- The number of blocks that `len` bytes take. -/
def blocksOf (len : Nat) : Nat := (len + blockSize - 1) / blockSize

/-- Close to the largest offset the sum of `DIVROUNDUP` overflows, which makes no difference. -/
theorem blocklenOf_cases (h : len < 2 ^ 31) :
    blocklenOf len = blocksOf len ∨ maxBlocks ≤ blocklenOf len ∧ maxBlocks ≤ blocksOf len := by
  by_cases hsum : len + blockSize - 1 < 2 ^ 31
  · left
    have hoff : offT ((len : Int) + blockSize - 1) = (len + blockSize - 1 : Nat) := by
      have hcast : (len : Int) + blockSize - 1 = (len + blockSize - 1 : Nat) := by
        unfold blockSize
        omega
      rw [hcast]
      exact offT_eq (by omega) (by omega)
    have hdiv : blocksOf len < 2 ^ 32 := by
      exact (Nat.div_le_self ..).trans_lt (by omega)
    rw [blocklenOf, hoff, ← Int.ofNat_tdiv]
    exact toU32_ofNat hdiv
  · obtain ⟨k, hk⟩ : ∃ k : Nat, len + blockSize - 1 + k = 2 ^ 32 :=
      ⟨2 ^ 32 - (len + blockSize - 1), by unfold blockSize; omega⟩
    have hoff : offT ((len : Int) + blockSize - 1) = -(k : Int) := by
      unfold offT
      rw [Int.bmod_def]
      omega
    have hneg : toU32 (-(k / blockSize : Nat)) = 2 ^ 32 - k / blockSize := by
      rw [toU32]
      unfold blockSize at hk ⊢
      omega
    rw [blocklenOf, hoff, Int.neg_tdiv, ← Int.ofNat_tdiv, hneg]
    unfold blocksOf maxBlocks ndirect dbperidb
    unfold blockSize at hk hsum ⊢
    omega

/-- The computed length cuts the same blocks as the length in blocks. -/
theorem cut_blocklenOf (h : len < 2 ^ 31) (hfb : fb < maxBlocks) :
    Cut (blocklenOf len) fb ↔ Cut (blocksOf len) fb := by
  rcases blocklenOf_cases h with heq | ⟨hle, hle'⟩
  · rw [heq]
  · unfold Cut
    omega

def spilledInode : Buf :=
  setSize (setType (setDirect (setIndirect zeros 4) 0 5) .file) (16 * blockSize)

/-- The file 3 has its block 0 in block 5 and its block 15 in block 6, which are full of `A`. -/
def spilled : Fs where
  nblocks := 8
  disk b := if b = 4 then setIdEntry zeros 0 6 else if b < 4 then zeros else fun _ => 65#8
  freemap := ⟨8, fun _ => 127#8⟩
  freemapdirty := false
  vnodes := [3]
  sv _ := ⟨spilledInode, true, 1⟩

/-- Where the file refers to. -/
def spilledRef : Place → Nat
  | .self => 3
  | .indirect => 4
  | .data fb => if fb = 0 then 5 else if fb = 15 then 6 else 0

theorem ref_spilled : ref spilled 3 p = spilledRef p := by
  have hi : inodeOf spilled 3 = spilledInode := if_pos (List.mem_singleton.mpr rfl)
  have hind : sfiIndirect spilledInode = 4 := by
    rw [spilledInode, sfiIndirect_setSize, sfiIndirect_setType, sfiIndirect_setDirect (by decide),
      sfiIndirect_setIndirect (by decide)]
  cases p with
  | self => rfl
  | indirect => rw [ref, hi, hind, spilledRef]
  | data fb =>
    rw [ref, hi, spilledRef]
    by_cases hfb : fb < ndirect
    · rw [blockAt_direct hfb, spilledInode, sfiDirect_setSize, sfiDirect_setType]
      by_cases h0 : fb = 0
      · rw [if_pos h0, h0, sfiDirect_setDirect (by decide)]
      have h15 : fb ≠ 15 := fun h15 => absurd hfb (h15 ▸ by decide)
      rw [if_neg h0, if_neg h15, sfiDirect_setDirect_ne h0, sfiDirect_setIndirect hfb]
      exact BigEndian.read_zero
    · have h0 : fb ≠ 0 := fun h0 => hfb (h0 ▸ by decide)
      rw [blockAt_indirect hfb, hind, if_neg h0]
      have hdisk : spilled.disk 4 = setIdEntry zeros 0 6 := rfl
      by_cases h15 : fb = 15
      · rw [if_pos h15, h15, hdisk, if_pos (by decide)]
        exact idEntry_setIdEntry (by decide)
      rw [if_neg h15, hdisk]
      have hne : fb - ndirect ≠ 0 := by
        unfold ndirect at hfb ⊢
        omega
      rw [idEntry_setIdEntry_ne hne, idEntry_zeros, ite_self]

theorem spilledRef_mem (h0 : spilledRef p ≠ 0) : 3 ≤ spilledRef p ∧ spilledRef p < 7 := by
  revert h0
  unfold spilledRef
  split
  · omega
  · omega
  · split_ifs <;> omega

theorem spilledRef_inj {q : Place} (h0 : spilledRef p ≠ 0) (heq : spilledRef p = spilledRef q) :
    p = q := by
  cases p <;> cases q <;> simp only [spilledRef] at h0 heq <;> grind

theorem own_spilled : Own {3} spilled where
  format := by
    refine ⟨?_, by decide, by decide, by decide, by decide⟩
    intro i hi hlt
    exact absurd hlt (Nat.not_lt.mpr hi)
  nodup := by decide
  loaded := by
    intro u hu
    exact ⟨List.mem_singleton.mp hu, Nat.zero_lt_one⟩
  clean := by
    intro u hu hd
    cases hd
  ne_zero := by
    rintro h0
    cases h0
  owns := by
    have huse : ∀ c < 7, 3 ≤ c → InUse spilled c := by
      intro c hlt hge
      refine ⟨hge, hlt.trans (by decide), ?_⟩
      revert c
      decide
    constructor
    · rintro ⟨u, p⟩ rfl ⟨w, q⟩ rfl h0 heq
      simp only [ref_spilled] at h0 heq
      rw [spilledRef_inj h0 heq]
    · rintro ⟨u, p⟩ rfl h0
      simp only [ref_spilled] at h0 ⊢
      exact huse _ (spilledRef_mem h0).2 (spilledRef_mem h0).1

theorem fileByte_spilled {q : Nat} (hq : q < blockSize) : fileByte spilled 3 q = 65#8 := by
  have href : ref spilled 3 (.data (q / blockSize)) = 5 := by
    rw [ref_spilled, Nat.div_eq_of_lt hq]
    rfl
  rw [ref] at href
  unfold fileByte
  rw [href]
  rfl

theorem size_spilled : sfiSize (inodeOf spilled 3) = 16 * blockSize :=
  sfiSize_setSize (by decide)

/-- Exactly the blocks past the end are given back. -/
structure DiscardsPastEnd (v len : Nat) (s t : Fs) : Prop where
  size : sfiSize (inodeOf t v) = len
  past : ∀ fb, blocksOf len ≤ fb → ref t v (.data fb) = 0 ∧
    (ref s v (.data fb) ≠ 0 → bitmapIsset t.freemap (ref s v (.data fb)) = false)
  below : ∀ fb < blocksOf len, ref t v (.data fb) = ref s v (.data fb)
  kept : (∃ fb, ndirect ≤ fb ∧ ref t v (.data fb) ≠ 0) → ref t v .indirect = ref s v .indirect
  dropped : (∀ fb, ndirect ≤ fb → ref t v (.data fb) = 0) → ref t v .indirect = 0

/-- Nothing is in the block of the indirect block that `sfs_truncate` overlooks, and where it does
not look at the indirect block at all, some block of it stays. -/
def NoneOverlooked (s : Fs) (v len : Nat) : Prop :=
  (ndirect ≤ blocksOf len → ref s v (.data (blocksOf len)) = 0) ∧
    (maxBlocks - 1 ≤ blocksOf len → ref s v .indirect ≠ 0 →
      ∃ fb, ndirect ≤ fb ∧ fb < blocksOf len ∧ ref s v (.data fb) ≠ 0)

section blocks
variable {blocklen : Nat}

theorem Truncated.freed (h : Truncated L v blocklen size s t) (h0 : ref s v p ≠ 0)
    (hgone : ref t v p = 0) : bitmapIsset t.freemap (ref s v p) = false := by
  rw [← Bool.not_eq_true, h.isset]
  rintro ⟨-, hkept⟩
  have := hkept p rfl h0
  rw [hgone] at this
  exact h0 this.symm

/-- What is left of the data, in blocks of the new length. -/
theorem Truncated.data_eq (h : Truncated L v (blocklenOf len) size s t) (hlen : len < 2 ^ 31) :
    ref t v (.data fb) = if Cut (blocksOf len) fb then 0 else ref s v (.data fb) := by
  rw [h.data]
  by_cases hfb : fb < maxBlocks
  · exact if_congr (cut_blocklenOf hlen hfb) rfl rfl
  · rw [ref_data_ge (Nat.not_lt.mp hfb), ite_self, ite_self]

/-- The blocks that stay: those below the end, and one past it in the indirect block. -/
theorem not_cut_iff : ¬ Cut n fb ↔ fb < n ∨ fb = n ∧ ndirect ≤ n := by
  unfold Cut
  omega

theorem Truncated.discards (h : Truncated L v (blocklenOf len) len s t) (hlen : len < 2 ^ 31)
    (hnone : NoneOverlooked s v len) : DiscardsPastEnd v len s t := by
  obtain ⟨hhole, hindirect⟩ := hnone
  have hpast : ∀ fb, blocksOf len ≤ fb → ref t v (.data fb) = 0 := by
    intro fb hfb
    rw [h.data_eq hlen]
    split
    · rfl
    rename_i hstays
    obtain ⟨rfl, hge⟩ := (not_cut_iff.mp hstays).resolve_left (Nat.not_lt.mpr hfb)
    exact hhole hge
  have hbelow : ∀ fb < blocksOf len, ref t v (.data fb) = ref s v (.data fb) := by
    intro fb hfb
    rw [h.data_eq hlen, if_neg (not_cut_iff.mpr (.inl hfb))]
  refine ⟨h.size, fun fb hfb => ⟨hpast fb hfb, fun h0 => h.freed h0 (hpast fb hfb)⟩, hbelow,
    fun hkept => h.kept (.inr hkept), fun hempty => ?_⟩
  by_cases hshort : blocklenOf len < maxBlocks - 1
  · exact h.dropped hshort hempty
  -- the indirect block is not looked at, and has no blocks only if it is not there
  have hge : maxBlocks - 1 ≤ blocksOf len := by
    rcases blocklenOf_cases hlen with heq | ⟨-, hle⟩
    · omega
    · omega
  rw [h.kept (.inl (Nat.not_lt.mp hshort))]
  by_contra h0
  obtain ⟨fb, hfb, hlt, hne⟩ := hindirect hge h0
  rw [← hbelow fb hlt] at hne
  exact hne (hempty fb hfb)

theorem DiscardsPastEnd.noneOverlooked (hd : DiscardsPastEnd v len s t)
    (h : Truncated L v (blocklenOf len) len s t) (hlen : len < 2 ^ 31) :
    NoneOverlooked s v len := by
  have hhole : ndirect ≤ blocksOf len → ref s v (.data (blocksOf len)) = 0 := by
    intro hge
    have hzero := (hd.past (blocksOf len) (Nat.le_refl _)).1
    rwa [h.data_eq hlen, if_neg (not_cut_iff.mpr (.inr ⟨rfl, hge⟩))] at hzero
  refine ⟨hhole, fun hge h0 => ?_⟩
  by_contra hnone
  have hempty : ∀ fb, ndirect ≤ fb → ref t v (.data fb) = 0 := by
    intro fb hfb
    by_cases hlt : fb < blocksOf len
    · rw [hd.below fb hlt]
      by_contra hne
      exact hnone ⟨fb, hfb, hlt, hne⟩
    · exact (hd.past fb (Nat.not_lt.mp hlt)).1
  have hge' : maxBlocks - 1 ≤ blocklenOf len := by
    rcases blocklenOf_cases hlen with heq | ⟨hle, -⟩
    · omega
    · omega
  have hgone := hd.dropped hempty
  rw [h.kept (.inl hge')] at hgone
  exact h0 hgone

theorem truncate_run (h : Own L s) (hv : v ∈ s.vnodes) (hlen : len < 2 ^ 31) :
    ∃ t, truncate v len s = .ok (.ok (), t) ∧ Truncated L v (blocklenOf len) len s t := by
  -- the length has a name, so that nothing evaluates the loops
  obtain ⟨l, hl⟩ : ∃ l : Int, l = len := ⟨_, rfl⟩
  obtain ⟨r, t, hrun, rfl, htrunc⟩ := Call.wp_iff.mp (truncate_spec h hv l)
  rw [hl] at hrun htrunc
  have hsize : toU32 len = len := toU32_ofNat (hlen.trans (by decide))
  rw [hsize] at htrunc
  exact ⟨t, hrun, htrunc⟩

/-- `sfs_truncate` gives back exactly the blocks past the end if and only if it overlooks none. -/
theorem truncate_discards_iff (h : Own L s) (hv : v ∈ s.vnodes) (hlen : len < 2 ^ 31) :
    ∃ t, truncate v len s = .ok (.ok (), t) ∧
      (DiscardsPastEnd v len s t ↔ NoneOverlooked s v len) := by
  obtain ⟨t, hrun, htrunc⟩ := truncate_run h hv hlen
  exact ⟨t, hrun, fun hd => hd.noneOverlooked htrunc hlen, htrunc.discards hlen⟩

/-- To fifteen blocks: the block past the end is in the indirect block, and stays. -/
theorem truncate_overlooks : Own {3} spilled ∧ 3 ∈ spilled.vnodes ∧
    ∃ t, truncate 3 (15 * blockSize : Nat) spilled = .ok (.ok (), t) ∧
      ref t 3 (.data 15) = 6 ∧ ¬ DiscardsPastEnd 3 (15 * blockSize) spilled t := by
  refine ⟨own_spilled, List.mem_singleton.mpr rfl, ?_⟩
  obtain ⟨t, hrun, htrunc⟩ := truncate_run own_spilled (List.mem_singleton.mpr rfl)
    (show 15 * blockSize < 2 ^ 31 by decide)
  have hstays : ref t 3 (.data 15) = 6 := by
    rw [htrunc.data_eq (by decide), if_neg (by decide), ref_spilled]
    rfl
  refine ⟨t, hrun, hstays, fun hd => ?_⟩
  have hzero := (hd.past 15 (by decide)).1
  rw [hstays] at hzero
  cases hzero

theorem truncate_discards_iff_spilled : 3 ∈ spilled.vnodes ∧ 1 < 2 ^ 31 ∧
    ∃ t, truncate 3 (1 : Nat) spilled = .ok (.ok (), t) ∧ DiscardsPastEnd 3 1 spilled t := by
  refine ⟨List.mem_singleton.mpr rfl, by decide, ?_⟩
  obtain ⟨t, hrun, hiff⟩ := truncate_discards_iff own_spilled (List.mem_singleton.mpr rfl)
    (show 1 < 2 ^ 31 by decide)
  refine ⟨t, hrun, hiff.mpr ⟨fun hge => ?_, fun hge => ?_⟩⟩
  · exact absurd hge (by decide)
  · exact absurd hge (by decide)

end blocks

/-- A call on the file after it was cut. -/
inductive Later where
  | write (x : Xfer)
  | truncate (len : Nat)

/-- The volume, and the positions of the file that were written since. -/
structure Since where
  fs : Fs
  written : Set Nat

/-- Writes past the length `len`, of which some bytes may be stored before they fail, and
truncations to a larger length. -/
inductive LaterStep (v len : Nat) : Since → Later → Since → Prop
  | write {s : Since} {x y : Xfer} {P : Nat} {r : Except Errno Unit} {t : Fs} (hpast : len < P)
      (hat : At P x.uio) (hrw : x.uio.rw = .write) (hrun : io v ⟨s.fs, x⟩ = .ok (r, ⟨t, y⟩)) :
      LaterStep v len s (.write x)
        ⟨t, s.written ∪ {q | P ≤ q ∧ q < P + (x.uio.resid - y.uio.resid)}⟩
  | truncate {s : Since} {n : Nat} {t : Fs} (hlarger : len < n) (hn : n < 2 ^ 31)
      (hrun : truncate v n s.fs = .ok (.ok (), t)) :
      LaterStep v len s (.truncate n) ⟨t, s.written⟩

/-- Whatever a read has put in the buffer for the position `q` is zero. -/
def ReadsZero (v q : Nat) (s : Fs) : Prop :=
  ∀ (P : Nat) (x : Xfer), At P x.uio → x.uio.rw = .read → P + x.uio.resid < 2 ^ 31 → P ≤ q →
    Call.wp (io v) (fun _ t => q < P + (x.uio.resid - t.xfer.uio.resid) →
      t.xfer.mem (x.uio.base + (q - P)) = 0#8) ⟨s, x⟩

/-- What was cut off at `len` is not read again. -/
def StaysGone (v len : Nat) (t : Fs) : Prop :=
  ∀ as u, Lts.Run (LaterStep v len) ⟨t, ∅⟩ as u → ∀ q, len ≤ q → q ∉ u.written → ReadsZero v q u.fs

/-- The part of the file past the length `len` that `sfs_truncate` leaves on the disk is zero. -/
def TailZero (s : Fs) (v len : Nat) : Prop :=
  ∀ q, len ≤ q → (q / blockSize < blocksOf len ∨
    q / blockSize = blocksOf len ∧ ndirect ≤ blocksOf len) → fileByte s v q = 0#8

section bytes
variable {a b : Since} {l : Later} {q blocklen : Nat}

/-- The bytes that are left, in blocks of the new length. -/
theorem Truncated.fileByte_eq_ite (h : Truncated L v (blocklenOf len) size s t)
    (hlen : len < 2 ^ 31) (q : Nat) :
    fileByte t v q = if Cut (blocksOf len) (q / blockSize) then 0#8 else fileByte s v q := by
  rw [h.fileByte_eq]
  by_cases hfb : q / blockSize < maxBlocks
  · exact if_congr (cut_blocklenOf hlen hfb) rfl rfl
  · rw [fileByte_hole (ref_data_ge (Nat.not_lt.mp hfb)), ite_self, ite_self]

/-- What holds of the file at any time after it was cut. -/
structure Gone (L : Set Nat) (v len : Nat) (a : Since) : Prop where
  own : Own L a.fs
  loaded : v ∈ a.fs.vnodes
  size : sfiSize (inodeOf a.fs v) < 2 ^ 31
  zero : ∀ q, len ≤ q → q ∉ a.written → fileByte a.fs v q = 0#8

theorem Truncated.loaded (h : Truncated L v blocklen size s t) (hv : v ∈ s.vnodes) :
    v ∈ t.vnodes := by
  rw [h.frame.vnodes]
  exact hv

/-- At the time it is cut. -/
theorem Truncated.gone (h : Truncated L v (blocklenOf len) len s t) (hv : v ∈ s.vnodes)
    (hlen : len < 2 ^ 31) (hzero : TailZero s v len) : Gone L v len ⟨t, ∅⟩ := by
  refine ⟨h.own, h.loaded hv, by rw [h.size]; exact hlen, fun q hq _ => ?_⟩
  rw [h.fileByte_eq_ite hlen]
  split
  · rfl
  · rename_i hstays
    exact hzero q hq (not_cut_iff.mp hstays)

theorem gone_step (hs : LaterStep v len a l b) (h : Gone L v len a) : Gone L v len b := by
  cases hs with
  | @write x y P r t hpast hat hrw hrun =>
    obtain ⟨m, hput⟩ :=
      (io_write_spec (C := fun _ => False) h.own h.loaded hat hrw h.size).of_eq hrun
    have hm : x.uio.resid - y.uio.resid = m := by
      have hy : y = ⟨x.mem, x.uio.advance m⟩ := hput.xfer
      have hle : m ≤ x.uio.resid := hput.le
      rw [hy]
      simp only [Uio.advance]
      omega
    have hlt := hat.lt
    have hwithin := hput.within
    refine ⟨hput.stored.own, ?_, ?_, fun q hq hw => ?_⟩
    · rw [hput.stored.frame.vnodes]
      exact h.loaded
    · rw [hput.stored.size]
      have hmax := maxBytes_lt
      have hsize := h.size
      unfold Within at hwithin
      omega
    · rw [hput.stored.bytes, blit_outside]
      · exact h.zero q hq fun hin => hw (.inl hin)
      · by_contra hin
        exact hw (.inr ⟨by omega, by omega⟩)
  | @truncate n t hlarger hn hrun =>
    obtain ⟨t', hrun', htrunc⟩ := truncate_run h.own h.loaded hn
    rw [hrun] at hrun'
    cases hrun'
    refine ⟨htrunc.own, htrunc.loaded h.loaded, by rw [htrunc.size]; exact hn, fun q hq hw => ?_⟩
    rw [htrunc.fileByte_eq_ite hn, h.zero q hq hw, ite_self]

theorem Gone.readsZero (h : Gone L v len a) (hq : len ≤ q) (hw : q ∉ a.written) :
    ReadsZero v q a.fs := by
  intro P x hat hrw hend hP
  refine (io_read_spec h.own h.loaded hat hrw h.size hend).mono ?_
  rintro r t ⟨m, hf⟩ hin
  have hm : q < P + m := by
    rw [hf.xfer] at hin
    simp only [Uio.advance] at hin
    omega
  rw [hf.xfer]
  simp only
  rw [blit_inside (by omega) (by omega), show P + (x.uio.base + (q - P) - x.uio.base) = q by omega]
  exact h.zero q hq hw

theorem lt_maxBytes (hne : fileByte s v q ≠ 0#8) : q < maxBytes := by
  by_contra hge
  refine hne (fileByte_hole (ref_data_ge ?_))
  exact (Nat.le_div_iff_mul_le (by decide)).mpr (Nat.not_lt.mp hge)

theorem not_readsZero (h : Own L s) (hv : v ∈ s.vnodes) (hsize : sfiSize (inodeOf s v) < 2 ^ 31)
    (hq : q < sfiSize (inodeOf s v)) (hne : fileByte s v q ≠ 0#8) : ¬ ReadsZero v q s := by
  intro hzero
  have hmax := lt_maxBytes hne
  -- the request has a name, so that nothing evaluates the call
  obtain ⟨x, hx⟩ : ∃ x : Xfer, x = ⟨zeros, mkKuio 1 q .read⟩ := ⟨_, rfl⟩
  have hat : At q x.uio := by
    rw [hx]
    exact at_mkKuio (by decide) (by omega)
  have hrw : x.uio.rw = .read := by rw [hx]; rfl
  have hres : x.uio.resid = 1 := by rw [hx]; rfl
  have hlen : readLen s v q x.uio.resid = 1 := by
    rw [readLen, hres]
    omega
  obtain ⟨r, t, hrun, hbyte⟩ :=
    Call.wp_iff.mp (hzero q x hat hrw (by omega) (Nat.le_refl _))
  obtain ⟨m, hf⟩ := (io_read_spec (C := fun _ => False) h hv hat hrw hsize (by omega)).of_eq hrun
  cases r with
  | error e =>
    have := (hf.error e rfl).2
    omega
  | ok _ =>
    have hm : m = 1 := (hf.ok rfl).2.trans hlen
    rw [hf.xfer, hm, Nat.sub_self] at hbyte
    simp only [Uio.advance, hres, Nat.sub_self, Nat.sub_zero, Nat.add_zero] at hbyte
    have hread := hbyte (Nat.lt_succ_self q)
    rw [blit_inside (by omega) (by omega), Nat.sub_self, Nat.add_zero] at hread
    exact hne hread

/-- A byte that stays on the disk comes back when the file grows over it. -/
theorem Truncated.comes_back (h : Truncated L v (blocklenOf len) len s t) (hv : v ∈ s.vnodes)
    (hlen : len < 2 ^ 31) (hq : len ≤ q) (hstays : ¬ Cut (blocksOf len) (q / blockSize))
    (hne : fileByte s v q ≠ 0#8) : ¬ StaysGone v len t := by
  intro hgone
  have hmax := lt_maxBytes hne
  have hgrown : q + 1 < 2 ^ 31 := by
    have := maxBytes_lt
    omega
  obtain ⟨u, hrun, hgrow⟩ := truncate_run h.own (h.loaded hv) hgrown
  have hbyte : fileByte u v q = fileByte s v q := by
    have hin : q / blockSize < blocksOf (q + 1) := by
      unfold blocksOf blockSize
      omega
    rw [hgrow.fileByte_eq_ite hgrown, if_neg (not_cut_iff.mpr (.inl hin)),
      h.fileByte_eq_ite hlen, if_neg hstays]
  have hstep : LaterStep v len ⟨t, ∅⟩ (.truncate (q + 1)) ⟨u, ∅⟩ :=
    .truncate (s := ⟨t, ∅⟩) (Nat.lt_succ_of_le hq) hgrown hrun
  refine not_readsZero hgrow.own (hgrow.loaded (h.loaded hv)) ?_ ?_ (by rw [hbyte]; exact hne)
    (hgone _ _ (.single hstep) q hq (Set.notMem_empty q))
  · rw [hgrow.size]
    exact hgrown
  · rw [hgrow.size]
    exact Nat.lt_succ_self q

/-- What was cut off stays gone, whatever is written later past the end, if and only if what
`sfs_truncate` leaves on the disk past the end is zero. -/
theorem truncated_stays_gone_iff (h : Own L s) (hv : v ∈ s.vnodes)
    (hlen : len ≤ sfiSize (inodeOf s v)) (hsize : sfiSize (inodeOf s v) < 2 ^ 31) :
    ∃ t, truncate v len s = .ok (.ok (), t) ∧ (StaysGone v len t ↔ TailZero s v len) := by
  have hlt : len < 2 ^ 31 := hlen.trans_lt hsize
  obtain ⟨t, hrun, htrunc⟩ := truncate_run h hv hlt
  refine ⟨t, hrun, fun hgone q hq hstays => ?_, fun hzero as u hlater q hq hw => ?_⟩
  · by_contra hne
    exact htrunc.comes_back hv hlt hq (not_cut_iff.mpr hstays) hne hgone
  · exact (hlater.invariant (Gone L v len) (fun _ _ _ hs => gone_step hs)
      (htrunc.gone hv hlt hzero)).readsZero hq hw

/-- The file is cut to one byte and then made two bytes long: its second byte is there again. -/
theorem truncated_byte_comes_back : Own {3} spilled ∧ 3 ∈ spilled.vnodes ∧
    1 ≤ sfiSize (inodeOf spilled 3) ∧
    ∃ t u, truncate 3 (1 : Nat) spilled = .ok (.ok (), t) ∧
      LaterStep 3 1 ⟨t, ∅⟩ (.truncate 2) ⟨u, ∅⟩ ∧ fileByte u 3 1 = 65#8 ∧ ¬ ReadsZero 3 1 u := by
  have hv : 3 ∈ spilled.vnodes := List.mem_singleton.mpr rfl
  refine ⟨own_spilled, hv, by decide, ?_⟩
  obtain ⟨t, hrun, hcut⟩ := truncate_run own_spilled hv (show 1 < 2 ^ 31 by decide)
  obtain ⟨u, hrun', hgrow⟩ := truncate_run hcut.own (hcut.loaded hv) (show 2 < 2 ^ 31 by decide)
  have hbyte : fileByte u 3 1 = 65#8 := by
    rw [hgrow.fileByte_eq_ite (by decide), if_neg (by decide), hcut.fileByte_eq_ite (by decide),
      if_neg (by decide)]
    exact fileByte_spilled (by decide)
  refine ⟨t, u, hrun, .truncate (s := ⟨t, ∅⟩) (by decide) (by decide) hrun', hbyte, ?_⟩
  refine not_readsZero hgrow.own (hgrow.loaded (hcut.loaded hv)) ?_ ?_ ?_
  · rw [hgrow.size]
    decide
  · rw [hgrow.size]
    decide
  · rw [hbyte]
    decide

/-- Cut at the end of its first block, the file has nothing left past the end. -/
theorem truncated_stays_gone_iff_spilled : 3 ∈ spilled.vnodes ∧
    blockSize ≤ sfiSize (inodeOf spilled 3) ∧ sfiSize (inodeOf spilled 3) < 2 ^ 31 ∧
    ∃ t, truncate 3 (blockSize : Nat) spilled = .ok (.ok (), t) ∧ StaysGone 3 blockSize t := by
  have hv : 3 ∈ spilled.vnodes := List.mem_singleton.mpr rfl
  have hlen : blockSize ≤ sfiSize (inodeOf spilled 3) := by decide
  have hsize : sfiSize (inodeOf spilled 3) < 2 ^ 31 := by decide
  refine ⟨hv, hlen, hsize, ?_⟩
  obtain ⟨t, hrun, hiff⟩ := truncated_stays_gone_iff own_spilled hv hlen hsize
  refine ⟨t, hrun, hiff.mpr fun q hq hstays => absurd hstays ?_⟩
  have hblocks : blocksOf blockSize = 1 := by decide
  rw [hblocks]
  unfold ndirect
  unfold blockSize at hq ⊢
  omega

end bytes

end OS161.Sfs
