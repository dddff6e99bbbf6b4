import OS161.Sfs.Bmap

/-! `sfs_partialio`, `sfs_blockio` and `sfs_io`. What was moved before an error counts. -/
namespace OS161.Sfs

open Buffer
open Call (ensures_bind after_ok ensures_get ensures_require ensures_pure ensures_ite Ensures)

section contents
variable {L : Set Nat} {s t : Fs} {v fb i : Nat} {d : Buf}

theorem fileByte_add (hi : i < blockSize) :
    fileByte s v (fb * blockSize + i) = fileBlock s v fb i := by
  rw [fileByte_eq_block, Nat.mul_comm, Nat.mul_add_div (by decide), Nat.mul_add_mod,
    Nat.div_eq_of_lt hi, Nat.mod_eq_of_lt hi, Nat.add_zero]

theorem Kept.fileByte_eq (h : Kept L v s t) : fileByte t v = fileByte s v := by
  funext pos
  rw [fileByte_eq_block, fileByte_eq_block, h.blocks]

/-- The step from `s` to `t` wrote to one block of the file. -/
structure Wrote (L : Set Nat) (v fb : Nat) (d : Buf) (s t : Fs) : Prop where
  own : Own L t
  frame : Frame L v s t
  size : sfiSize (inodeOf t v) = sfiSize (inodeOf s v)
  blocks : ∀ k, fileBlock t v k = if k = fb then d else fileBlock s v k

theorem Own.putBlock (h : Own L s) (hv : v ∈ s.vnodes) (h0 : ref s v (.data fb) ≠ 0) :
    Wrote L v fb d s (s.putBlock (ref s v (.data fb)) d) := by
  have hvL := (h.loaded v hv).1
  have hself : v ≠ ref s v (.data fb) := h.ne_self hvL hvL (by simp) h0
  have hind : sfiIndirect (inodeOf s v) ≠ ref s v (.data fb) :=
    h.indirect_ne hvL hvL (by simp) h0
  have hinode := inodeOf_putBlock (d := d) (b := ref s v (.data fb)) (.inl hv)
  have hdisk : ∀ c ≠ ref s v (.data fb),
      (s.putBlock (ref s v (.data fb)) d).disk c = s.disk c :=
    fun c hc => Function.update_of_ne hc _ _
  have href : ∀ q, ref (s.putBlock (ref s v (.data fb)) d) v q = ref s v q := by
    intro q
    cases q with
    | self => rfl
    | indirect => exact congrArg sfiIndirect hinode
    | data k =>
      rw [ref, hinode]
      exact blockAt_congr fun _ => Function.update_of_ne hind _ _
  have htouch : Touch v s (s.putBlock (ref s v (.data fb)) d) :=
    ⟨rfl, rfl, fun _ _ => rfl, rfl, fun c hc => hdisk c fun heq =>
      hc (.inr ⟨.data fb, heq.symm, heq ▸ h0⟩)⟩
  refine ⟨h.keep hvL htouch ?_ rfl href, htouch.frame h hvL ?_ ?_, congrArg sfiSize hinode, ?_⟩
  · intro hd
    rw [hdisk v hself]
    exact h.clean v hv hd
  · exact congrArg sfiType hinode
  · exact congrArg sfiLinkcount hinode
  intro k
  rw [fileBlock, href]
  by_cases hk : k = fb
  · rw [if_pos hk, hk, if_neg h0]
    exact Function.update_self ..
  rw [if_neg hk, fileBlock]
  split
  · rfl
  rename_i hk0
  refine hdisk _ (h.data_ne hvL hvL ?_ h0)
  simpa using Ne.symm hk

theorem Kept.wrote {r : Fs} (h : Kept L v s t) (h' : Wrote L v fb d t r) : Wrote L v fb d s r where
  own := h'.own
  frame := h.frame.trans h'.frame
  size := h'.size.trans h.size
  blocks k := by rw [h'.blocks, h.blocks]

/-- Bytes inside one block of the file. -/
theorem Wrote.fileByte_eq {src : Buf} {base skip len : Nat}
    (h : Wrote L v fb (blit (fileBlock s v fb) skip src base len) s t)
    (hlen : skip + len ≤ blockSize) :
    fileByte t v = blit (fileByte s v) (fb * blockSize + skip) src base len := by
  funext pos
  rw [fileByte_eq_block, h.blocks]
  have hpos := Nat.div_add_mod pos blockSize
  have hmod := Nat.mod_lt pos (show 0 < blockSize by decide)
  by_cases hfb : pos / blockSize = fb
  · rw [if_pos hfb]
    rw [hfb, Nat.mul_comm] at hpos
    by_cases hin : skip ≤ pos % blockSize ∧ pos % blockSize < skip + len
    · rw [blit_inside hin.1 hin.2, blit_inside (by omega) (by omega)]
      congr 1
      omega
    · rw [blit_outside (by omega), blit_outside (by omega), fileByte_eq_block, hfb]
  · rw [if_neg hfb, ← fileByte_eq_block, blit_outside]
    rcases Nat.lt_or_gt_of_ne hfb with hlt | hgt
    · left
      have := Nat.mul_le_mul_right blockSize (Nat.succ_le_of_lt hlt)
      rw [Nat.succ_mul] at this
      rw [Nat.mul_comm] at hpos
      omega
    · right
      have := Nat.mul_le_mul_right blockSize (Nat.succ_le_of_lt hgt)
      rw [Nat.succ_mul] at this
      rw [Nat.mul_comm] at hpos
      omega

end contents

/-- The bytes of a transfer from the position `P` of the file on. -/
def Transferred (v P n : Nat) (s t : Io) : UioRw → Prop
  | .read => t.fs = s.fs ∧
      t.xfer.mem = blit s.xfer.mem s.xfer.uio.base (fileByte s.fs v) P n
  | .write => t.xfer.mem = s.xfer.mem ∧
      fileByte t.fs v = blit (fileByte s.fs v) P s.xfer.mem s.xfer.uio.base n

/-- `n` bytes were moved between the buffer and the file. -/
structure Moved (L : Set Nat) (v P n : Nat) (s t : Io) : Prop where
  own : Own L t.fs
  frame : Frame L v s.fs t.fs
  size : sfiSize (inodeOf t.fs v) = sfiSize (inodeOf s.fs v)
  uio : t.xfer.uio = s.xfer.uio.advance n
  data : Transferred v P n s t s.xfer.uio.rw

/-- Why a block was not mapped. -/
def NotMapped (L : Set Nat) (v fb : Nat) (s t : Io) (e : Errno) : Prop :=
  t.xfer = s.xfer ∧ Kept L v s.fs t.fs ∧
    (e = .einval ∧ maxBlocks ≤ fb ∧ t.fs = s.fs ∨
      e = .enospc ∧ s.xfer.uio.rw = .write ∧ ref s.fs v (.data fb) = 0)

/-- A transfer inside one block of the file. -/
def InBlock (L : Set Nat) (v fb skip len : Nat) (s : Io) : Except Errno Unit → Io → Prop
  | .ok _, t => skip + len ≤ blockSize ∧ fb < maxBlocks ∧ Moved L v (fb * blockSize + skip) len s t
  | .error e, t => NotMapped L v fb s t e

section leaves
variable {L : Set Nat} {s : Io} {v fb skip len b : Nat} {C : SfsCrash → Prop} {iobuf : Buf}

theorem ensures_onFs {α : Type} {m : SfsCall α} {Q : Except Errno α → Io → Prop} :
    Ensures C (onFs m) Q s ↔ Ensures C m (fun r t => Q r { s with fs := t }) s.fs :=
  Call.ensures_zoom

theorem ensures_loadBlock {rw : UioRw} {Q : Except Errno Buf → Io → Prop} (h : Own L s.fs)
    (hv : v ∈ s.fs.vnodes) (hrw : rw = .write → ref s.fs v (.data fb) ≠ 0) :
    Ensures C (loadBlock (ref s.fs v (.data fb)) rw) Q s ↔ Q (.ok (fileBlock s.fs v fb)) s := by
  unfold loadBlock fileBlock
  split
  · rename_i h0
    have hread : rw = .read := by
      cases rw with
      | read => rfl
      | write => exact absurd h0 (hrw rfl)
    simp only [ensures_bind, ensures_require, hread, after_ok, ensures_pure,
      true_implies, not_true_eq_false, false_implies, and_true]
  · rename_i h0
    rw [ensures_onFs, ensures_rblock (h.inUse (h.loaded v hv).1 h0).2.1]

theorem ensures_moveAt {Q : Except Errno Buf → Io → Prop} (hu : s.xfer.uio.Ok)
    (hlen : len ≤ s.xfer.uio.resid) :
    Ensures C (moveAt iobuf skip len) Q s ↔
      Q (.ok (blit iobuf skip (s.xfer.moved (fun k => iobuf (skip + k)) len).1 0 len))
        { s with xfer := (s.xfer.moved (fun k => iobuf (skip + k)) len).2 } := by
  unfold Ensures moveAt
  rw [uiomove_eq hu hlen]

theorem Moved.of_read (h : Own L s.fs) (hrw : s.xfer.uio.rw = .read) {mem : Buf}
    (hmem : ∀ k < len, mem k = fileBlock s.fs v fb (skip + k)) (hlen : skip + len ≤ blockSize) :
    Moved L v (fb * blockSize + skip) len s
      ⟨s.fs, ⟨blit s.xfer.mem s.xfer.uio.base mem 0 len, s.xfer.uio.advance len⟩⟩ := by
  refine ⟨h, .refl, rfl, rfl, ?_⟩
  rw [hrw]
  refine ⟨rfl, blit_congr fun k hk => ?_⟩
  rw [Nat.zero_add, hmem k hk, Nat.add_assoc, fileByte_add (by omega)]

theorem Moved.of_write {t : Fs} (hrw : s.xfer.uio.rw = .write)
    (h : Wrote L v fb (blit (fileBlock s.fs v fb) skip s.xfer.mem s.xfer.uio.base len) s.fs t)
    (hlen : skip + len ≤ blockSize) :
    Moved L v (fb * blockSize + skip) len s ⟨t, ⟨s.xfer.mem, s.xfer.uio.advance len⟩⟩ := by
  refine ⟨h.own, h.frame, h.size, rfl, ?_⟩
  rw [hrw]
  exact ⟨rfl, h.fileByte_eq hlen⟩

theorem mapped_failed {t : Fs} {e : Errno}
    (h : Mapped L v fb (s.xfer.uio.rw = .write) s.fs (.error e) t) :
    NotMapped L v fb s { s with fs := t } e := by
  obtain ⟨hkept, hreason⟩ := h
  refine ⟨rfl, hkept, hreason.imp_right ?_⟩
  rintro ⟨he, hrw, h0⟩
  exact ⟨he, of_decide_eq_true hrw, h0⟩

theorem rw_read {u : Uio} (h : ¬ u.rw = .write) : u.rw = .read := by
  cases hrw : u.rw with
  | read => rfl
  | write => exact absurd hrw h

/-- With a block that is mapped, the rest of `sfs_partialio` moves the bytes. -/
theorem partialio_mapped (h : Own L s.fs) {t : Fs} (hkept : Kept L v s.fs t) (hv : v ∈ t.vnodes)
    (hu : s.xfer.uio.Ok) (hlen : len ≤ s.xfer.uio.resid) (hfit : skip + len ≤ blockSize)
    (hrw : if s.xfer.uio.rw = .write then ref t v (.data fb) ≠ 0 else t = s.fs) :
    Ensures C (do
        let iobuf ← moveAt (fileBlock t v fb) skip len
        if s.xfer.uio.rw = .write then onFs (wblock iobuf (ref t v (.data fb))) else pure ())
      (fun r t => ∃ u, r = .ok u ∧ Moved L v (fb * blockSize + skip) len s t) ⟨t, s.xfer⟩ := by
  rw [ensures_bind, ensures_moveAt (s := ⟨t, s.xfer⟩) hu hlen, after_ok]
  split
  · rename_i hwrite
    rw [if_pos hwrite] at hrw
    have hlt := (hkept.own.inUse (hkept.own.loaded v hv).1 hrw).2.1
    rw [ensures_onFs, ensures_wblock (by exact hlt)]
    refine ⟨(), rfl, ?_⟩
    simp only [Xfer.moved, hwrite, blit_through, hkept.blocks]
    exact .of_write hwrite (hkept.wrote (hkept.own.putBlock hv hrw)) hfit
  · rename_i hread
    rw [if_neg hread] at hrw
    refine ⟨(), rfl, ?_⟩
    simp only [Xfer.moved, rw_read hread, hrw]
    exact .of_read h (rw_read hread) (fun _ _ => rfl) hfit

/-- The state after the device has moved a block. -/
def Io.afterDevice (s : Io) (b : Nat) : Io :=
  { fs := if s.xfer.uio.rw = .write then
      s.fs.putBlock b (s.xfer.moved (s.fs.disk b) blockSize).1 else s.fs
    xfer := (s.xfer.moved (s.fs.disk b) blockSize).2 }

theorem rwblock_eq {f : Fs} {u : Uio} (mem : Buf) (hb : b < f.nblocks) (hu : u.Ok)
    (hres : blockSize ≤ u.resid) (hfb : fileblockOf u = b) :
    rwblock ⟨f, ⟨mem, u⟩⟩ = .ok (.ok (), Io.afterDevice ⟨f, ⟨mem, u⟩⟩ b) := by
  have hmove : uiomove (f.disk b) blockSize ⟨mem, u⟩ = _ := uiomove_eq hu hres
  simp only [rwblock, hfb, if_pos hb, hmove, Io.afterDevice]
  cases u.rw <;> rfl

section device
variable {u saved : Uio}

/-- The transfer as the device gets it. -/
def onDevice (u : Uio) (b : Nat) : Uio :=
  { u with offset := offT (b * blockSize), resid := blockSize }

/-- The transfer with the offset and residue of the file again. -/
def offDevice (u saved : Uio) (b : Nat) : Uio :=
  { u with
    offset := offT (u.offset - offT (b * blockSize) + saved.offset)
    resid := toU32 (u.resid - blockSize + saved.resid) }

theorem ok_onDevice (hu : u.Ok) (hres : blockSize ≤ u.resid) : (onDevice u b).Ok := by
  rw [onDevice]
  constructor
  · simp only
    exact hres.trans hu.resid_le
  · simp only
    exact hu.len_lt
  · simp only [offT_offT]

theorem offT_device (hb : b < 2 ^ 17) : offT (b * blockSize) = (b * blockSize : Nat) := by
  unfold blockSize
  rw [offT_eq] <;> omega

theorem fileblockOf_onDevice (hb : b < 2 ^ 17) : fileblockOf (onDevice u b) = b := by
  have hdiv : b * blockSize / blockSize = b := Nat.mul_div_cancel b (by decide)
  rw [fileblockOf, onDevice, offT_device hb, ← Int.ofNat_tdiv, hdiv, toU32]
  omega

theorem offDevice_advance (hb : b < 2 ^ 17) (hu : u.Ok) (hres : blockSize ≤ u.resid) :
    offDevice ((onDevice u b).advance blockSize) u b = u.advance blockSize := by
  have hle := hu.resid_le
  have hlt := hu.len_lt
  have hsum : offT (b * blockSize + blockSize) = b * blockSize + blockSize := by
    unfold blockSize
    rw [offT_eq] <;> omega
  simp only [offDevice, onDevice, Uio.advance, offT_device hb, Uio.mk.injEq, true_and,
    and_true, Nat.sub_self]
  push_cast
  constructor
  · refine congrArg offT ?_
    omega
  · rw [toU32]
    omega

theorem moved_uio {x : Xfer} {ptr : Buf} {n : Nat} : (x.moved ptr n).2.uio = x.uio.advance n := by
  unfold Xfer.moved
  cases x.uio.rw <;> rfl

/-- The device moves the block as it was to be moved. -/
theorem afterDevice_onDevice {f : Fs} {mem : Buf} (hb : b < 2 ^ 17) (hu : u.Ok)
    (hres : blockSize ≤ u.resid) :
    (let t := Io.afterDevice ⟨f, ⟨mem, onDevice u b⟩⟩ b
     Io.mk t.fs ⟨t.xfer.mem, offDevice t.xfer.uio u b⟩) = Io.afterDevice ⟨f, ⟨mem, u⟩⟩ b := by
  have huio : (Io.afterDevice ⟨f, ⟨mem, onDevice u b⟩⟩ b).xfer.uio =
    (onDevice u b).advance blockSize := moved_uio
  simp only [huio, offDevice_advance hb hu hres]
  have hrw : (onDevice u b).rw = u.rw := by rw [onDevice]
  have hbase : (onDevice u b).base = u.base := by rw [onDevice]
  simp only [Io.afterDevice, Xfer.moved, hrw, hbase]
  cases u.rw <;> rfl

end device

theorem ensures_deviceIo {Q : Except Errno Unit → Io → Prop} (hb : b < s.fs.nblocks)
    (hsmall : s.fs.nblocks ≤ 2 ^ 17) (hu : s.xfer.uio.Ok) (hres : blockSize ≤ s.xfer.uio.resid) :
    Ensures C (deviceIo b) Q s ↔ Q (.ok ()) (s.afterDevice b) := by
  have hb' := hb.trans_le hsmall
  have hres' : blockSize ≤ (onDevice s.xfer.uio b).resid := by rw [onDevice]
  have hrun := rwblock_eq s.xfer.mem hb (ok_onDevice hu hres) hres'
    (fileblockOf_onDevice hb')
  simp only [deviceIo, ensures_bind, ensures_get, after_ok, ensures_require,
    hres, true_implies, not_true_eq_false, false_implies, and_true, Call.ensures_modify,
    Call.ensures_attempt, Io.setUio]
  rw [← onDevice, Call.ensures_iff_of_run hrun]
  simp only [Call.ensures_result]
  rw [← offDevice, afterDevice_onDevice hb' hu hres]

section general
variable (h : Own L s.fs) (hv : v ∈ s.fs.vnodes) (hu : s.xfer.uio.Ok)
include h hv hu

/-- `sfs_partialio`. If the bytes are not inside the block, it crashes. -/
theorem partialio_spec (hlen : len ≤ s.xfer.uio.resid) (hskip : skip < 2 ^ 32)
    (hC : skip + len ≤ blockSize ∨ ∀ c, C (.other c)) :
    Ensures C (partialio v skip len) (InBlock L v (fileblockOf s.xfer.uio) skip len s) s := by
  simp only [partialio, ensures_bind, ensures_get, after_ok, ensures_require]
  refine ⟨fun hassert => ?_, fun hassert => ?_⟩
  · rw [ensures_onFs]
    refine ((bmap_spec h hv).weaken fun _ hf => hf.elim).mono ?_
    rintro (e | b) t hmap
    · exact mapped_failed hmap
    obtain ⟨hkept, rfl, hmax, hrw⟩ := hmap
    have hvt : v ∈ t.vnodes := hkept.frame.vnodes ▸ hv
    have hnz : s.xfer.uio.rw = .write → ref t v (.data (fileblockOf s.xfer.uio)) ≠ 0 := by
      intro hwrite
      rwa [if_pos (decide_eq_true hwrite)] at hrw
    rw [after_ok, ensures_bind]
    refine (ensures_loadBlock (s := ⟨t, s.xfer⟩) hkept.own hvt hnz).mpr ?_
    rw [after_ok]
    simp only [ensures_bind, ensures_require]
    refine ⟨fun hin => ?_, fun hout => ?_⟩
    · have hfit : skip + len ≤ blockSize := by
        rcases hin with rfl | hin
        · rwa [Nat.add_zero, Nat.mod_eq_of_lt hskip] at hassert
        · exact hin
      refine (partialio_mapped h hkept hvt hu hlen hfit (by simpa using hrw)).mono ?_
      rintro r t' ⟨u, rfl, hmoved⟩
      exact ⟨hfit, hmax, hmoved⟩
    · exact hC.elim (fun hfit => absurd (.inr hfit) hout) fun hC => hC _
  · refine hC.elim (fun hfit => absurd ?_ hassert) fun hC => hC _
    rw [Nat.mod_eq_of_lt (hfit.trans_lt (by decide))]
    exact hfit

omit hv in
theorem moveZeros_spec (hres : blockSize ≤ s.xfer.uio.resid) (hrw : s.xfer.uio.rw = .read)
    (h0 : ref s.fs v (.data fb) = 0) (hmax : fb < maxBlocks) :
    Ensures C moveZeros (InBlock L v fb 0 blockSize s) s := by
  have hrun : moveZeros s = .ok (.ok (), ⟨s.fs,
      ⟨blit s.xfer.mem s.xfer.uio.base (fun _ => 0#8) 0 blockSize,
        s.xfer.uio.advance blockSize⟩⟩) := by
    rw [moveZeros, uiomovezeros_eq hu hrw hres]
  refine Call.ensures_of_run hrun ⟨(Nat.zero_add _).le, hmax, .of_read h hrw (fun k _ => ?_) ?_⟩
  · rw [fileBlock, if_pos h0]
    rfl
  · exact (Nat.zero_add _).le

omit hv in
theorem deviceIo_spec (hres : blockSize ≤ s.xfer.uio.resid) {t : Fs} (hkept : Kept L v s.fs t)
    (hvt : v ∈ t.vnodes) (h0 : ref t v (.data fb) ≠ 0)
    (hrw : s.xfer.uio.rw = .read → t = s.fs) (hmax : fb < maxBlocks) :
    Ensures C (deviceIo (ref t v (.data fb))) (InBlock L v fb 0 blockSize s) ⟨t, s.xfer⟩ := by
  have hlt := (hkept.own.inUse (hkept.own.loaded v hvt).1 h0).2.1
  have hblock : t.disk (ref t v (.data fb)) = fileBlock s.fs v fb := by
    rw [← hkept.blocks, fileBlock, if_neg h0]
  rw [ensures_deviceIo (s := ⟨t, s.xfer⟩) hlt hkept.own.format.small hu hres]
  refine ⟨(Nat.zero_add _).le, hmax, ?_⟩
  by_cases hwrite : s.xfer.uio.rw = .write
  · simp only [Io.afterDevice, Xfer.moved, hwrite, if_true, hblock]
    exact .of_write hwrite (hkept.wrote (hkept.own.putBlock hvt h0)) (Nat.zero_add _).le
  have hread := rw_read hwrite
  obtain rfl := hrw hread
  simp only [Io.afterDevice, Xfer.moved, hread, hblock, reduceCtorEq, if_false]
  exact .of_read h hread (fun k _ => by rw [Nat.zero_add]) (Nat.zero_add _).le

theorem blockio_spec (hres : blockSize ≤ s.xfer.uio.resid) :
    Ensures C (blockio v) (InBlock L v (fileblockOf s.xfer.uio) 0 blockSize s) s := by
  simp only [blockio, ensures_bind, ensures_get, after_ok]
  rw [ensures_onFs]
  refine ((bmap_spec h hv).weaken fun _ hf => hf.elim).mono ?_
  rintro (e | b) t hmap
  · exact mapped_failed hmap
  obtain ⟨hkept, rfl, hmax, hrw⟩ := hmap
  have hvt : v ∈ t.vnodes := hkept.frame.vnodes ▸ hv
  rw [after_ok, ensures_ite]
  refine ⟨fun h0 => ?_, fun h0 => ?_⟩
  · have hread : ¬ s.xfer.uio.rw = .write := by
      intro hwrite
      rw [if_pos (decide_eq_true hwrite)] at hrw
      exact hrw h0
    have ht : t = s.fs := by
      rwa [if_neg (by simpa using hread)] at hrw
    subst ht
    simp only [ensures_bind, ensures_require, rw_read hread, after_ok,
      true_implies, not_true_eq_false, false_implies, and_true]
    exact moveZeros_spec h hu hres (rw_read hread) h0 hmax
  · refine deviceIo_spec h hu hres hkept hvt h0 (fun hread => ?_) hmax
    rwa [if_neg (by simp [hread])] at hrw

end general

end leaves

/-- The bytes a file can have. -/
def maxBytes : Nat := maxBlocks * blockSize

/-- The bytes are below the limit, if there are any. -/
def Within (P n : Nat) : Prop := n = 0 ∨ P + n ≤ maxBytes

/-- Why a transfer stopped after `m` bytes: there is no block for the next one. -/
def Stopped (P m : Nat) (s : Io) (e : Errno) : Prop :=
  (m = 0 ∨ (P + m) % blockSize = 0) ∧
    (e = .einval ∧ maxBytes ≤ P + m ∨ e = .enospc ∧ s.xfer.uio.rw = .write)

/-- A transfer of `n` bytes that stops early only with bytes left. -/
def Done (L : Set Nat) (v P n : Nat) (s : Io) : Except Errno Unit → Io → Prop
  | .ok _, t => Moved L v P n s t ∧ Within P n
  | .error e, t => ∃ m < n, Moved L v P m s t ∧ Within P m ∧ Stopped P m s e

/-- A transfer that goes on at the position `P` of the file. -/
structure At (P : Nat) (u : Uio) : Prop where
  ok : u.Ok
  offset : u.offset = P

section chain
variable {L : Set Nat} {s t r : Io} {v P n k len : Nat} {C : SfsCrash → Prop} {u : Uio}
  {m₁ m₂ : IoCall Unit} {R : Except Errno Unit → Io → Prop}

theorem maxBytes_lt : maxBytes < 2 ^ 31 := by decide

theorem At.lt (h : At P u) : P < 2 ^ 31 := by
  have hoff := h.ok.offset_ok
  rw [h.offset, offT] at hoff
  have := Int.bmod_lt (x := (P : Int)) (m := 2 ^ 32) (by decide)
  omega

theorem At.advance (h : At P u) (hw : Within P n) : At (P + n) (u.advance n) := by
  refine ⟨h.ok.advance, ?_⟩
  have hlt := h.lt
  have hmax := maxBytes_lt
  simp only [Uio.advance, h.offset]
  rw [offT_eq]
  · rfl
  · omega
  · rcases hw with rfl | hw <;> omega

theorem At.fileblockOf (h : At P u) : fileblockOf u = P / blockSize := by
  have hlt := h.lt
  have hle := Nat.div_le_self P blockSize
  rw [Sfs.fileblockOf, h.offset, ← Int.ofNat_tdiv, toU32]
  generalize P / blockSize = q at hle ⊢
  omega

theorem Moved.zero (hx : t.xfer = s.xfer) (hu : s.xfer.uio.Ok) (hkept : Kept L v s.fs t.fs)
    (hread : s.xfer.uio.rw = .read → t.fs = s.fs) : Moved L v P 0 s t := by
  refine ⟨hkept.own, hkept.frame, hkept.size, by rw [hx, advance_zero hu], ?_⟩
  cases hrw : s.xfer.uio.rw with
  | read => exact ⟨hread hrw, by rw [hx, blit_zero]⟩
  | write => exact ⟨by rw [hx], by rw [blit_zero, hkept.fileByte_eq]⟩

theorem Moved.trans (h : Moved L v P n s t) (h' : Moved L v (P + n) k t r) :
    Moved L v P (n + k) s r := by
  have hrw : t.xfer.uio.rw = s.xfer.uio.rw := by rw [h.uio]; rfl
  have hbase : t.xfer.uio.base = s.xfer.uio.base + n := by rw [h.uio]; rfl
  refine ⟨h'.own, h.frame.trans h'.frame, h'.size.trans h.size, ?_, ?_⟩
  · rw [h'.uio, h.uio, advance_advance]
  have hdata := h.data
  have hdata' := h'.data
  rw [hrw] at hdata'
  cases hcase : s.xfer.uio.rw with
  | read | write =>
    rw [hcase] at hdata hdata'
    refine ⟨hdata'.1.trans hdata.1, ?_⟩
    rw [hdata'.2, hdata.2, hdata.1, hbase, blit_append]

/-- One transfer after another, at the start of a block. -/
theorem done_bind (hal : k = 0 ∨ n = 0 ∨ (P + n) % blockSize = 0)
    (h₁ : Ensures C m₁ (Done L v P n s) s)
    (h₂ : ∀ t, Moved L v P n s t → Within P n → Ensures C m₂ (Done L v (P + n) k t) t) :
    Ensures C (m₁ >>= fun _ => m₂) (Done L v P (n + k) s) s := by
  have hwithin : ∀ j, Within P n → Within (P + n) j → Within P (n + j) := by
    unfold Within
    omega
  rw [ensures_bind]
  refine h₁.mono ?_
  rintro (e | _) t h
  · obtain ⟨m, hm, hrest⟩ := h
    exact ⟨m, by omega, hrest⟩
  rw [after_ok]
  refine (h₂ t h.1 h.2).mono ?_
  rintro (e | _) r h'
  · obtain ⟨m, hm, hmoved, hw, hstop⟩ := h'
    refine ⟨n + m, by omega, h.1.trans hmoved, hwithin m h.2 hw, ?_⟩
    have hrw : t.xfer.uio.rw = s.xfer.uio.rw := by rw [h.1.uio]; rfl
    rw [Stopped, hrw, Nat.add_assoc] at hstop
    refine ⟨hstop.1.elim (fun hm0 => ?_) .inr, hstop.2⟩
    rw [hm0, Nat.add_zero]
    exact hal.resolve_left (by omega)
  · exact ⟨h.1.trans h'.1, hwithin k h.2 h'.2⟩

theorem InBlock.done {r : Except Errno Unit}
    (h : InBlock L v (P / blockSize) (P % blockSize) len s r t)
    (hat : At P s.xfer.uio) (hpos : 0 < len) : Done L v P len s r t := by
  have hdiv := Nat.div_add_mod' P blockSize
  cases r with
  | error e =>
    obtain ⟨hx, hkept, hreason⟩ := h
    refine ⟨0, hpos, .zero hx hat.ok hkept ?_, .inl rfl, ?_⟩
    · intro hread
      rcases hreason with ⟨-, -, hfs⟩ | ⟨-, hwrite, -⟩
      · exact hfs
      · rw [hread] at hwrite
        cases hwrite
    · refine ⟨.inl rfl, hreason.imp (fun hlimit => ⟨hlimit.1, ?_⟩) fun hfull => ?_⟩
      · have := Nat.mul_le_mul_right blockSize hlimit.2.1
        rw [maxBytes]
        omega
      · exact ⟨hfull.1, hfull.2.1⟩
  | ok _ =>
    obtain ⟨hfit, hmax, hmoved⟩ := h
    rw [hdiv] at hmoved
    refine ⟨hmoved, .inr ?_⟩
    have := Nat.mul_le_mul_right blockSize (Nat.succ_le_of_lt hmax)
    rw [Nat.succ_mul] at this
    rw [maxBytes]
    omega

theorem Done.zero (h : Own L s.fs) (hu : s.xfer.uio.Ok) : Done L v P 0 s (.ok ()) s :=
  ⟨.zero rfl hu (.refl h) fun _ => rfl, .inl rfl⟩

theorem Moved.at (h : Moved L v P n s t) (hw : Within P n) (hat : At P s.xfer.uio) :
    At (P + n) t.xfer.uio := by
  rw [h.uio]
  exact hat.advance hw

theorem Moved.resid (h : Moved L v P n s t) : t.xfer.uio.resid = s.xfer.uio.resid - n := by
  rw [h.uio]
  rfl

theorem Moved.loaded (h : Moved L v P n s t) (hv : v ∈ s.fs.vnodes) : v ∈ t.fs.vnodes := by
  rw [h.frame.vnodes]
  exact hv

/-- The bytes of a request that lie in its leading partial block. -/
def leadLen (P n : Nat) : Nat := if P % blockSize = 0 then 0 else min (blockSize - P % blockSize) n

/-- After the leading partial block comes a whole one, if anything is left. -/
theorem leadLen_aligned (P n : Nat) : n - leadLen P n = 0 ∨ (P + leadLen P n) % blockSize = 0 := by
  have hlt := Nat.mod_lt P (show 0 < blockSize by decide)
  unfold leadLen
  split
  · exact .inr (by omega)
  rcases Nat.le_total n (blockSize - P % blockSize) with hle | hle
  · exact .inl (by omega)
  rw [Nat.min_eq_left hle]
  unfold blockSize at hlt ⊢
  omega

theorem leading_eq (hat : At P s.xfer.uio) : Ensures C (leading v) R s ↔
    Ensures C (if P % blockSize ≠ 0 then
      partialio v (P % blockSize) (min (blockSize - P % blockSize) s.xfer.uio.resid)
      else pure ()) R s := by
  have hlt := Nat.mod_lt P (show 0 < blockSize by decide)
  have hoff : toU32 (s.xfer.uio.offset.tmod blockSize) = P % blockSize := by
    have hsmall : P % blockSize < 2 ^ 32 := hlt.trans (by decide)
    rw [hat.offset, ← Int.ofNat_tmod, toU32]
    generalize P % blockSize = q at hsmall ⊢
    omega
  have hsub : sizeSub blockSize (P % blockSize) = blockSize - P % blockSize :=
    sizeSub_of_le hlt.le (by decide)
  simp only [leading, ensures_bind, ensures_get, after_ok, hoff, hsub]

/-- A transfer of `n` bytes from the position `P` on. One that stops early has bytes left; one of
no bytes may stop at a block it does not need. -/
def Transfer (L : Set Nat) (v P n : Nat) (s : Io) : Except Errno Unit → Io → Prop
  | .ok _, t => Moved L v P n s t ∧ Within P n
  | .error e, t => ∃ m, (m < n ∨ n = 0 ∧ m = 0 ∧ P % blockSize ≠ 0) ∧ Moved L v P m s t ∧
      Within P m ∧ Stopped P m s e

theorem Done.transfer {r : Except Errno Unit} (h : Done L v P n s r t) :
    Transfer L v P n s r t := by
  cases r with
  | error e =>
    obtain ⟨m, hm, hrest⟩ := h
    exact ⟨m, .inl hm, hrest⟩
  | ok _ => exact h

section stages
variable (h : Own L s.fs) (hv : v ∈ s.fs.vnodes) (hat : At P s.xfer.uio)
include h hv hat

theorem partialio_done (hlen : len ≤ s.xfer.uio.resid) (hpos : 0 < len)
    (hfit : P % blockSize + len ≤ blockSize) :
    Ensures C (partialio v (P % blockSize) len) (Done L v P len s) s := by
  have hskip : P % blockSize < 2 ^ 32 := (Nat.mod_lt P (by decide)).trans (by decide)
  refine (partialio_spec h hv hat.ok hlen hskip (.inl hfit)).mono ?_
  rw [hat.fileblockOf]
  exact fun r t hin => hin.done hat hpos

theorem blockio_done (hres : blockSize ≤ s.xfer.uio.resid) (hal : P % blockSize = 0) :
    Ensures C (blockio v) (Done L v P blockSize s) s := by
  refine (blockio_spec h hv hat.ok hres).mono ?_
  rw [hat.fileblockOf, ← hal]
  exact fun r t hin => hin.done hat (by decide)

theorem wholeBlocks_done (k : Nat) (hres : k * blockSize ≤ s.xfer.uio.resid)
    (hal : P % blockSize = 0) : Ensures C (wholeBlocks v k) (Done L v P (k * blockSize) s) s := by
  induction k generalizing s P with
  | zero =>
    exact .zero h hat.ok
  | succ k ih =>
    have hsum : (k + 1) * blockSize = blockSize + k * blockSize := by
      rw [Nat.succ_mul, Nat.add_comm]
    rw [hsum] at hres ⊢
    have hal' : (P + blockSize) % blockSize = 0 := by rw [Nat.add_mod_right]; exact hal
    refine done_bind (.inr (.inr hal')) (blockio_done h hv hat (by omega) hal)
      fun t hmoved hw => ?_
    have hresid := hmoved.resid
    refine ih hmoved.own (hmoved.loaded hv) (hmoved.at hw hat) (by omega) ?_
    rw [Nat.add_mod_right]
    exact hal

theorem trailing_done (hres : s.xfer.uio.resid < blockSize) (hal : P % blockSize = 0) :
    Ensures C (trailing v) (Done L v P s.xfer.uio.resid s) s := by
  simp only [trailing, ensures_bind, ensures_get, after_ok, ensures_require,
    hres, true_implies, not_true_eq_false, false_implies, and_true, ensures_ite]
  refine ⟨fun hpos => ?_, fun hpos => ?_⟩
  · rw [← hal]
    exact partialio_done h hv hat (Nat.le_refl _) hpos (by omega)
  · rw [show s.xfer.uio.resid = 0 by omega]
    exact .zero h hat.ok

theorem aligned_done (hal : s.xfer.uio.resid = 0 ∨ P % blockSize = 0) :
    Ensures C (aligned v) (Done L v P s.xfer.uio.resid s) s := by
  simp only [aligned, ensures_bind, ensures_get, after_ok]
  rw [ensures_ite]
  refine ⟨fun h0 => ?_, fun h0 => ?_⟩
  · rw [h0]
    exact .zero h hat.ok
  have hal' := hal.resolve_left h0
  have hmod : s.xfer.uio.offset.tmod blockSize = 0 := by
    rw [hat.offset, ← Int.ofNat_tmod, hal']
    rfl
  have hsum := Nat.div_add_mod' s.xfer.uio.resid blockSize
  have hlt := Nat.mod_lt s.xfer.uio.resid (show 0 < blockSize by decide)
  simp only [ensures_bind, ensures_require, hmod, true_implies, not_true_eq_false,
    false_implies, and_true, after_ok]
  rw [← ensures_bind]
  conv => arg 3; rw [← hsum]
  have hnext : (P + s.xfer.uio.resid / blockSize * blockSize) % blockSize = 0 := by
    rw [Nat.add_mul_mod_self_right]
    exact hal'
  refine done_bind (.inr (.inr hnext)) (wholeBlocks_done h hv hat _ (by omega) hal')
    fun t hmoved hw => ?_
  have hresid := hmoved.resid
  have hrest : t.xfer.uio.resid = s.xfer.uio.resid % blockSize := by omega
  rw [← hrest]
  exact trailing_done hmoved.own (hmoved.loaded hv) (hmoved.at hw hat) (by omega) hnext

theorem leading_done (hpos : 0 < s.xfer.uio.resid) :
    Ensures C (leading v) (Done L v P (leadLen P s.xfer.uio.resid) s) s := by
  have hlt := Nat.mod_lt P (show 0 < blockSize by decide)
  rw [leading_eq hat, ensures_ite, leadLen]
  refine ⟨fun hne => ?_, fun heq => ?_⟩
  · rw [if_neg hne]
    exact partialio_done h hv hat (Nat.min_le_right ..) (by omega) (by omega)
  · rw [if_pos (not_not.mp heq)]
    exact .zero h hat.ok

/-- A transfer of no bytes may still look for a block. -/
theorem leading_zero (h0 : s.xfer.uio.resid = 0) :
    Ensures C (leading v) (fun r t => Moved L v P 0 s t ∧
      (∀ e, r = .error e → P % blockSize ≠ 0 ∧ Stopped P 0 s e) ∧
      (r = .ok () → P % blockSize = 0 ∨ P < maxBytes)) s := by
  have hlt := Nat.mod_lt P (show 0 < blockSize by decide)
  have hdiv := Nat.div_add_mod' P blockSize
  rw [leading_eq hat, ensures_ite]
  refine ⟨fun hne => ?_,
    fun heq => ⟨.zero rfl hat.ok (.refl h) fun _ => rfl, fun _ he => (by cases he),
      fun _ => .inl (not_not.mp heq)⟩⟩
  rw [h0, Nat.min_zero]
  have hlt32 := hlt.trans (show blockSize < 2 ^ 32 by decide)
  refine (partialio_spec h hv hat.ok (Nat.zero_le _) hlt32 (.inl hlt.le)).mono ?_
  rw [hat.fileblockOf]
  rintro (e | _) t hin
  · -- how many bytes were asked for makes no difference to the failure
    have hin' : InBlock L v (P / blockSize) (P % blockSize) 1 s (.error e) t := hin
    obtain ⟨m, hm, hmoved, hw, hstop⟩ := hin'.done hat (by decide)
    obtain rfl : m = 0 := by omega
    refine ⟨hmoved, fun e' he => ?_, fun he => (by cases he)⟩
    cases he
    exact ⟨hne, hstop⟩
  · obtain ⟨-, hmax, hmoved⟩ := hin
    rw [hdiv] at hmoved
    refine ⟨hmoved, fun _ he => (by cases he), fun _ => .inr ?_⟩
    exact (Nat.div_lt_iff_lt_mul (by decide)).mp hmax

theorem transfer_spec :
    Ensures C (do leading v; aligned v) (Transfer L v P s.xfer.uio.resid s) s := by
  by_cases h0 : s.xfer.uio.resid = 0
  · rw [ensures_bind, h0]
    refine (leading_zero h hv hat h0).mono ?_
    rintro (e | _) t ⟨hmoved, herr, -⟩
    · obtain ⟨hne, hstop⟩ := herr e rfl
      exact ⟨0, .inr ⟨rfl, rfl, hne⟩, hmoved, .inl rfl, hstop⟩
    have hres := hmoved.resid
    have hdone := aligned_done (C := C) hmoved.own (hmoved.loaded hv) (hmoved.at (.inl rfl) hat)
      (.inl (by omega))
    refine hdone.mono ?_
    rintro (e | _) r hlast
    · obtain ⟨m, hm, -⟩ := hlast
      omega
    · rw [show t.xfer.uio.resid = 0 by omega] at hlast
      exact ⟨hmoved.trans hlast.1, .inl rfl⟩
  · have hlead : leadLen P s.xfer.uio.resid ≤ s.xfer.uio.resid := by
      unfold leadLen
      split <;> omega
    have hsum := Nat.add_sub_cancel' hlead
    have hal := leadLen_aligned P s.xfer.uio.resid
    conv => arg 3; rw [← hsum]
    refine (done_bind (hal.imp_right .inr) (leading_done h hv hat (Nat.pos_of_ne_zero h0))
      fun t hmoved hw => ?_).mono fun r t hdone => hdone.transfer
    have hres := hmoved.resid
    rw [← hres] at hal ⊢
    exact aligned_done hmoved.own (hmoved.loaded hv) (hmoved.at hw hat) hal

/-- A read of no bytes fails for the block it looks for. -/
theorem transfer_zero (h0 : s.xfer.uio.resid = 0) (hrw : s.xfer.uio.rw = .read) :
    Ensures C (do leading v; aligned v)
      (fun r _ => r = .ok () ↔ P % blockSize = 0 ∨ P < maxBytes) s := by
  rw [ensures_bind]
  refine (leading_zero h hv hat h0).mono ?_
  rintro (e | _) t ⟨hmoved, herr, hok⟩
  · obtain ⟨hne, -, ⟨-, hmax⟩ | ⟨-, hwrite⟩⟩ := herr e rfl
    · refine ⟨fun he => (by cases he), fun hP => ?_⟩
      omega
    · rw [hrw] at hwrite
      cases hwrite
  · have hres := hmoved.resid
    rw [after_ok, aligned, ensures_bind, ensures_get, after_ok, if_pos (by omega), ensures_pure]
    exact ⟨fun _ => hok rfl, fun _ => rfl⟩

/-- A transfer inside a block that the file has does not stop. -/
theorem transfer_mapped (hpos : 0 < s.xfer.uio.resid) (hres : s.xfer.uio.resid < blockSize)
    (hfit : P % blockSize + s.xfer.uio.resid ≤ blockSize) (hP : P < maxBytes)
    (h0 : ref s.fs v (.data (P / blockSize)) ≠ 0) :
    Ensures C (do leading v; aligned v) (fun r _ => r = .ok ()) s := by
  have hskip : P % blockSize < 2 ^ 32 := (Nat.mod_lt P (by decide)).trans (by decide)
  have hpart : Ensures C (partialio v (P % blockSize) s.xfer.uio.resid)
      (fun r t => r = .ok () ∧ t.xfer.uio.resid = 0) s := by
    refine (partialio_spec h hv hat.ok (Nat.le_refl _) hskip (.inl hfit)).mono ?_
    rw [hat.fileblockOf]
    rintro (e | _) t hin
    · obtain ⟨-, -, ⟨-, hle, -⟩ | ⟨-, -, hhole⟩⟩ := hin
      · have := Nat.mul_le_mul_right blockSize hle
        have := Nat.div_mul_le_self P blockSize
        rw [maxBytes] at hP
        omega
      · exact absurd hhole h0
    · obtain ⟨-, -, hmoved⟩ := hin
      exact ⟨rfl, by rw [hmoved.resid, Nat.sub_self]⟩
  rw [ensures_bind, leading_eq hat, ensures_ite]
  refine ⟨fun _ => ?_, fun hal => ?_⟩
  · rw [Nat.min_eq_right (by omega)]
    refine hpart.mono ?_
    rintro _ t ⟨rfl, hdone⟩
    simp only [after_ok, aligned, ensures_bind, ensures_get, if_pos hdone, ensures_pure]
  have hal' : P % blockSize = 0 := not_not.mp hal
  have hmod : s.xfer.uio.offset.tmod blockSize = 0 := by
    rw [hat.offset, ← Int.ofNat_tmod, hal']
    rfl
  rw [hal'] at hpart
  simp only [ensures_pure, after_ok, aligned, ensures_bind, ensures_get,
    if_neg hpos.ne', ensures_require, hmod, true_implies, not_true_eq_false, false_implies,
    and_true, Nat.div_eq_of_lt hres, wholeBlocks, trailing, hres, if_pos hpos]
  exact hpart.mono fun _ _ hdone => hdone.1

end stages

end chain

end OS161.Sfs
