import OS161.Sfs.FileIo

/-! `sfs_read` and `sfs_write`: which bytes a request moves and where it stops. -/
namespace OS161.Sfs

open Buffer
open Call (ensures_bind after_ok ensures_get ensures_require ensures_ite Ensures)

/-- The inodes refer to the same blocks. -/
structure SameBlocks (i j : Buf) : Prop where
  direct : ∀ k < ndirect, sfiDirect j k = sfiDirect i k
  indirect : sfiIndirect j = sfiIndirect i

section inode
variable {L : Set Nat} {s t : Fs} {v n : Nat} {i d : Buf}

theorem sameBlocks_setSize : SameBlocks i (setSize i n) :=
  ⟨fun _ _ => sfiDirect_setSize, sfiIndirect_setSize⟩

theorem SameBlocks.blockAt_eq {j : Buf} (h : SameBlocks i j) (disk : Nat → Buf) (fb : Nat) :
    blockAt disk j fb = blockAt disk i fb := by
  unfold blockAt
  split
  · rename_i hfb
    exact h.direct fb hfb
  · rw [h.indirect]

/-- The inode of `v` is changed and refers to the blocks it referred to. -/
structure Edited (L : Set Nat) (v : Nat) (s t : Fs) : Prop where
  own : Own L t
  touch : Touch v s t
  ref : ∀ p, ref t v p = ref s v p
  bytes : fileByte t v = fileByte s v

theorem Own.setInode (h : Own L s) (hv : v ∈ s.vnodes) (hd : SameBlocks (s.sv v).inode d) :
    Edited L v s (s.setInode v d) := by
  have hi := inodeOf_loaded hv
  have hi' : inodeOf (s.setInode v d) v = d := inodeOf_setInode hv
  have htouch : Touch v s (s.setInode v d) :=
    ⟨rfl, rfl, fun u hu => Function.update_of_ne hu _ _,
      by simp only [Fs.setInode, Function.update_self], fun _ _ => rfl⟩
  have hblock : ∀ fb, blockAt (s.setInode v d).disk d fb = blockAt s.disk (s.sv v).inode fb :=
    fun fb => hd.blockAt_eq s.disk fb
  have href : ∀ p, Sfs.ref (s.setInode v d) v p = Sfs.ref s v p := by
    intro p
    cases p with
    | self => rfl
    | indirect => rw [Sfs.ref, Sfs.ref, hi', hi, hd.indirect]
    | data fb => rw [Sfs.ref, Sfs.ref, hi', hi, hblock]
  refine ⟨h.keep (h.loaded v hv).1 htouch ?_ rfl href, htouch, href, ?_⟩
  · rw [dirty_setInode]
    exact fun hdirty => Bool.noConfusion hdirty
  funext pos
  unfold fileByte
  rw [hi', hi, hblock]
  rfl

theorem fileByte_hole {q : Nat} (h0 : ref s v (.data (q / blockSize)) = 0) :
    fileByte s v q = 0#8 := if_pos h0

end inode

theorem at_mkKuio {n P : Nat} {rw : UioRw} (hn : n < 2 ^ 32) (hP : P < 2 ^ 31) :
    At P (mkKuio n P rw) :=
  ⟨⟨Nat.le_refl _, hn, offT_eq (by simp only [mkKuio]; omega) (by simp only [mkKuio]; omega)⟩, rfl⟩

/-- `m` bytes of the buffer are stored in the file from the position `P` on. -/
structure Stored (L : Set Nat) (v P m : Nat) (x : Xfer) (s t : Fs) : Prop where
  own : Own L t
  frame : Frame L v s t
  size : sfiSize (inodeOf t v) = max (sfiSize (inodeOf s v)) (P + m)
  bytes : fileByte t v = blit (fileByte s v) P x.mem x.uio.base m

/-- What `sfs_write` of a buffer at the position `P` does. -/
def Written (L : Set Nat) (v P : Nat) (x : Xfer) (s : Fs) : Except Errno Xfer → Fs → Prop
  | .ok y, t => Stored L v P x.uio.resid x s t ∧ Within P x.uio.resid ∧
      y = ⟨x.mem, x.uio.advance x.uio.resid⟩
  | .error e, t => ∃ m, (m < x.uio.resid ∨ x.uio.resid = 0 ∧ m = 0 ∧ P % blockSize ≠ 0) ∧
      Stored L v P m x s t ∧ Within P m ∧ (m = 0 ∨ (P + m) % blockSize = 0) ∧
      (e = .einval ∧ maxBytes ≤ P + m ∨ e = .enospc)

/-- What `sfs_io` leaves of a write of which `m` bytes were stored. -/
structure Put (L : Set Nat) (v P m : Nat) (x : Xfer) (s : Fs) (r : Except Errno Unit) (t : Io) :
    Prop where
  stored : Stored L v P m x s t.fs
  xfer : t.xfer = ⟨x.mem, x.uio.advance m⟩
  within : Within P m
  ok : r = .ok () → m = x.uio.resid
  error : ∀ e, r = .error e → (m < x.uio.resid ∨ x.uio.resid = 0 ∧ m = 0 ∧ P % blockSize ≠ 0) ∧
    (m = 0 ∨ (P + m) % blockSize = 0) ∧ (e = .einval ∧ maxBytes ≤ P + m ∨ e = .enospc)

theorem Put.le {L : Set Nat} {v P m : Nat} {x : Xfer} {s : Fs} {r : Except Errno Unit} {t : Io}
    (h : Put L v P m x s r t) : m ≤ x.uio.resid := by
  cases r with
  | error e =>
    have := (h.error e rfl).1
    omega
  | ok _ => exact (h.ok rfl).le

/-- How much there is to read at the position `P`. -/
def readLen (s : Fs) (v P n : Nat) : Nat := min n (sfiSize (inodeOf s v) - P)

/-- What `sfs_read` at the position `P` does. -/
def ReadBack (v P : Nat) (x : Xfer) (s : Fs) : Except Errno Xfer → Fs → Prop
  | .ok y, t => t = s ∧ Within P (readLen s v P x.uio.resid) ∧
      y = ⟨blit x.mem x.uio.base (fileByte s v) P (readLen s v P x.uio.resid),
        x.uio.advance (readLen s v P x.uio.resid)⟩
  | .error e, t => t = s ∧ e = .einval ∧ maxBytes < P + readLen s v P x.uio.resid

/-- What `sfs_io` leaves of a read of `k` bytes of which `m` are in the buffer. -/
structure Fetched (v P k m : Nat) (x : Xfer) (s : Fs) (r : Except Errno Unit) (t : Io) : Prop where
  fs : t.fs = s
  le : m ≤ k
  xfer : t.xfer = ⟨blit x.mem x.uio.base (fileByte s v) P m, x.uio.advance m⟩
  ok : r = .ok () → Within P k ∧ m = k
  error : ∀ e, r = .error e → e = .einval ∧ maxBytes < P + k
  stopped : ∀ e, r = .error e → maxBytes ≤ P + m ∧ Within P m

section requests
variable {L : Set Nat} {s : Fs} {t : Io} {v P m n : Nat} {x : Xfer} {C : SfsCrash → Prop}

theorem ensures_ioFrom {extraresid : Nat} {Q : Except Errno Unit → Io → Prop} {r : Io} :
    Ensures C (ioFrom v extraresid) Q r ↔
      Ensures C (do leading v; aligned v) (fun u t => Q u (t.finish v extraresid)) r := by
  simp only [ioFrom, ensures_bind (m := Call.attempt _), Call.ensures_attempt, after_ok]
  simp only [ensures_bind (m := Call.modify _), Call.ensures_modify, after_ok, Call.ensures_result]

theorem toU32_ofNat (h : n < 2 ^ 32) : toU32 n = n := by
  rw [toU32]
  omega

theorem resid_finish {u : Uio} (hu : u.Ok) : (u.resid + 0) % 2 ^ 32 = u.resid := by
  have hle := hu.resid_le
  have hlt := hu.len_lt
  exact Nat.mod_eq_of_lt (hle.trans_lt hlt)

/-- The end of a write. -/
theorem finish_write (hv : v ∈ s.vnodes) (hat : At P x.uio) (hrw : x.uio.rw = .write)
    (hsize : sfiSize (inodeOf s v) < 2 ^ 31) (hmoved : Moved L v P m ⟨s, x⟩ t) (hw : Within P m) :
    Stored L v P m x s (t.finish v 0).fs ∧ (t.finish v 0).xfer = ⟨x.mem, x.uio.advance m⟩ := by
  have hat' : At (P + m) t.xfer.uio := hmoved.at hw hat
  have hvt : v ∈ t.fs.vnodes := hmoved.loaded hv
  have hrwt : t.xfer.uio.rw = .write := by rw [hmoved.uio]; exact hrw
  have hdata := hmoved.data
  rw [show (Io.mk s x).xfer.uio.rw = .write from hrw] at hdata
  obtain ⟨hmem, hbytes⟩ := hdata
  have hsame : sfiSize (t.fs.sv v).inode = sfiSize (inodeOf s v) := by
    rw [← inodeOf_loaded hvt]
    exact hmoved.size
  have hoff : offT (sfiSize (t.fs.sv v).inode) = sfiSize (inodeOf s v) := by
    rw [hsame]
    exact offT_eq (by omega) (by omega)
  have hx : t.xfer = ⟨x.mem, x.uio.advance m⟩ := by
    rw [← hmem, show x.uio.advance m = t.xfer.uio from hmoved.uio.symm]
  have hset : t.setUio { t.xfer.uio with resid := (t.xfer.uio.resid + 0) % 2 ^ 32 } = t := by
    rw [resid_finish hat'.ok]
    rfl
  simp only [Io.finish, hset]
  simp only [hoff, hat'.offset, hrwt, true_and]
  split
  · have hlt := hat'.lt
    rw [toU32_ofNat (by omega)]
    have hedit := hmoved.own.setInode hvt (sameBlocks_setSize (n := P + m))
    have hi' : inodeOf (t.fs.setInode v (setSize (t.fs.sv v).inode (P + m))) v =
      setSize (t.fs.sv v).inode (P + m) := inodeOf_setInode hvt
    have hi := inodeOf_loaded hvt
    refine ⟨⟨hedit.own, hmoved.frame.trans ?_, ?_, hedit.bytes.trans hbytes⟩, hx⟩
    · refine hedit.touch.frame hmoved.own (hmoved.own.loaded v hvt).1 ?_ ?_
      · rw [hi', hi, sfiType_setSize]
      · rw [hi', hi, sfiLinkcount_setSize]
    · rw [hi', sfiSize_setSize (by omega)]
      omega
  · refine ⟨⟨hmoved.own, hmoved.frame, ?_, hbytes⟩, hx⟩
    rw [hmoved.size, Nat.max_eq_left]
    omega

section
variable (h : Own L s) (hv : v ∈ s.vnodes) (hat : At P x.uio)
include h hv hat

theorem io_write_spec (hrw : x.uio.rw = .write) (hsize : sfiSize (inodeOf s v) < 2 ^ 31) :
    Ensures C (io v) (fun r t => ∃ m, Put L v P m x s r t) ⟨s, x⟩ := by
  simp only [io, ensures_bind, hrw, after_ok, ensures_get, if_true]
  rw [ensures_ioFrom]
  refine (transfer_spec (s := ⟨s, x⟩) h hv hat).mono ?_
  rintro (e | _) t htransfer
  · obtain ⟨m, hm, hmoved, hw, hstop⟩ := htransfer
    obtain ⟨hstored, hx⟩ := finish_write hv hat hrw hsize hmoved hw
    refine ⟨m, hstored, hx, hw, fun he => (by cases he), fun e' he => ?_⟩
    cases he
    exact ⟨hm, hstop.1, hstop.2.imp_right And.left⟩
  · obtain ⟨hmoved, hw⟩ := htransfer
    obtain ⟨hstored, hx⟩ := finish_write hv hat hrw hsize hmoved hw
    exact ⟨_, hstored, hx, hw, fun _ => rfl, fun e he => by cases he⟩

theorem io_write_mapped (hrw : x.uio.rw = .write) (hpos : 0 < x.uio.resid)
    (hres : x.uio.resid < blockSize) (hfit : P % blockSize + x.uio.resid ≤ blockSize)
    (hP : P < maxBytes) (h0 : ref s v (.data (P / blockSize)) ≠ 0) :
    Ensures C (io v) (fun r _ => r = .ok ()) ⟨s, x⟩ := by
  simp only [io, ensures_bind, hrw, after_ok, ensures_get, if_true]
  rw [ensures_ioFrom]
  exact transfer_mapped (s := ⟨s, x⟩) h hv hat hpos hres hfit hP h0

theorem withUio_write_spec (hrw : x.uio.rw = .write) (hsize : sfiSize (inodeOf s v) < 2 ^ 31) :
    Ensures C (withUio x (io v)) (Written L v P x s) s := by
  rw [withUio, Call.ensures_withLocal]
  refine (io_write_spec h hv hat hrw hsize).mono ?_
  rintro (e | _) t ⟨m, hput⟩
  · obtain ⟨hm, hstop⟩ := hput.error e rfl
    exact ⟨m, hm, hput.stored, hput.within, hstop⟩
  · cases hput.ok rfl
    exact ⟨hput.stored, hput.within, hput.xfer⟩

theorem write_spec (hrw : x.uio.rw = .write) (hsize : sfiSize (inodeOf s v) < 2 ^ 31) :
    Ensures C (write v x) (Written L v P x s) s := by
  simp only [write, ensures_bind, ensures_require, hrw, true_implies,
    not_true_eq_false, false_implies, and_true, after_ok]
  exact withUio_write_spec h hv hat hrw hsize

/-- A read of `k` bytes, and the residue that was set aside. -/
theorem ioFrom_read (k extra : Nat) (hrw : x.uio.rw = .read) (hk : x.uio.resid = k + extra) :
    Ensures C (ioFrom v extra) (fun r t => ∃ m, Fetched v P k m x s r t)
      ⟨s, ⟨x.mem, { x.uio with resid := k }⟩⟩ := by
  have hle := hat.ok.resid_le
  have hlt := hat.ok.len_lt
  have hat' : At P { x.uio with resid := k } :=
    ⟨⟨by simp only; omega, hlt, hat.ok.offset_ok⟩, hat.offset⟩
  rw [ensures_ioFrom]
  refine (transfer_spec (s := ⟨s, ⟨x.mem, { x.uio with resid := k }⟩⟩) h hv hat').mono ?_
  have hfinish : ∀ (m : Nat) (t : Io), m ≤ k →
      Moved L v P m ⟨s, ⟨x.mem, { x.uio with resid := k }⟩⟩ t →
      (t.finish v extra).fs = s ∧ (t.finish v extra).xfer =
        ⟨blit x.mem x.uio.base (fileByte s v) P m, x.uio.advance m⟩ := by
    intro m t hm hmoved
    have hrwt : t.xfer.uio.rw = .read := by rw [hmoved.uio]; exact hrw
    have hdata := hmoved.data
    simp only [hrw] at hdata
    obtain ⟨hfs, hmem⟩ := hdata
    simp only [Io.finish, hrwt, reduceCtorEq, false_and, if_false, Io.setUio]
    refine ⟨hfs, ?_⟩
    rw [hmem, hmoved.uio]
    simp only [Uio.advance, Xfer.mk.injEq, Uio.mk.injEq, true_and]
    exact ⟨by omega, hrw.symm⟩
  rintro (e | _) t htransfer
  · obtain ⟨m, hm, hmoved, hw, hstop⟩ := htransfer
    obtain ⟨hfs, hx⟩ := hfinish m t (by simp only at hm; omega) hmoved
    rcases hstop.2 with ⟨heinval, hmax⟩ | ⟨-, hwrite⟩
    · refine ⟨m, hfs, by simp only at hm; omega, hx, fun he => (by cases he), ?_,
        fun _ _ => ⟨hmax, hw⟩⟩
      rintro e' he
      cases he
      refine ⟨heinval, ?_⟩
      rcases hm with hm | ⟨hk0, rfl, hmod⟩
      · exact hmax.trans_lt (Nat.add_lt_add_left hm P)
      refine (hmax.trans (Nat.le_add_right ..)).lt_of_ne ?_
      rintro heq
      refine hmod ?_
      have hk0' : k = 0 := hk0
      rw [hk0', Nat.add_zero] at heq
      rw [← heq]
      rfl
    · rw [hrw] at hwrite
      cases hwrite
  · obtain ⟨hmoved, hw⟩ := htransfer
    obtain ⟨hfs, hx⟩ := hfinish k t (Nat.le_refl _) hmoved
    exact ⟨k, hfs, Nat.le_refl _, hx, fun _ => ⟨hw, rfl⟩, fun e he => (by cases he),
      fun e he => (by cases he)⟩

theorem io_read_spec (hrw : x.uio.rw = .read) (hsize : sfiSize (inodeOf s v) < 2 ^ 31)
    (hend : P + x.uio.resid < 2 ^ 31) :
    Ensures C (io v)
      (fun r t => ∃ m, Fetched v P (readLen s v P x.uio.resid) m x s r t) ⟨s, x⟩ := by
  have hoff : offT (sfiSize (s.sv v).inode) = sfiSize (inodeOf s v) := by
    rw [← inodeOf_loaded hv]
    exact offT_eq (by omega) (by omega)
  have hendpos : offT ((P : Int) + x.uio.resid) = (P + x.uio.resid : Nat) :=
    offT_eq (by omega) (by omega)
  simp only [io, ensures_bind, hrw, after_ok, ensures_get, reduceCtorEq, if_false]
  simp only [hoff, hat.offset, hendpos, ensures_ite]
  refine ⟨fun hpast => ?_, fun hin => ⟨fun hall => ?_, fun hclip => ?_⟩⟩
  · have hlen : readLen s v P x.uio.resid = 0 := by
      rw [readLen]
      omega
    refine ⟨0, rfl, Nat.zero_le _, ?_, fun _ => ⟨.inl hlen, hlen.symm⟩,
      fun e he => (by cases he), fun e he => (by cases he)⟩
    rw [blit_zero, advance_zero hat.ok]
  · have hlen : readLen s v P x.uio.resid = x.uio.resid := by
      rw [readLen]
      omega
    rw [hlen]
    exact ioFrom_read h hv hat x.uio.resid 0 hrw rfl
  · have hlen : readLen s v P x.uio.resid = sfiSize (inodeOf s v) - P := by
      rw [readLen]
      omega
    have hextra : toU32 ((P + x.uio.resid : Nat) - (sfiSize (inodeOf s v) : Int)) =
        P + x.uio.resid - sfiSize (inodeOf s v) := by
      rw [toU32]
      omega
    have hlt : P + x.uio.resid - sfiSize (inodeOf s v) < x.uio.resid := by omega
    simp only [hextra, ensures_bind, ensures_require, after_ok, Call.ensures_modify]
    refine ⟨fun _ => ?_, fun hno => absurd ?_ hno⟩
    · have huio : Uio.mk x.uio.base x.uio.len P
          (x.uio.resid - (P + x.uio.resid - sfiSize (inodeOf s v))) .read =
          { x.uio with resid := sfiSize (inodeOf s v) - P } := by
        rw [Uio.mk.injEq]
        exact ⟨rfl, rfl, hat.offset.symm, by omega, hrw.symm⟩
      rw [Io.setUio, huio, hlen]
      exact ioFrom_read h hv hat (sfiSize (inodeOf s v) - P)
        (P + x.uio.resid - sfiSize (inodeOf s v)) hrw (by omega)
    · rw [hat.offset, hendpos, hoff, hextra]
      exact hlt

theorem withUio_read_spec (hrw : x.uio.rw = .read) (hsize : sfiSize (inodeOf s v) < 2 ^ 31)
    (hend : P + x.uio.resid < 2 ^ 31) : Ensures C (withUio x (io v)) (ReadBack v P x s) s := by
  rw [withUio, Call.ensures_withLocal]
  refine (io_read_spec h hv hat hrw hsize hend).mono ?_
  rintro (e | _) t ⟨m, hfetched⟩
  · exact ⟨hfetched.fs, hfetched.error e rfl⟩
  obtain ⟨hw, hm⟩ := hfetched.ok rfl
  have hx := hfetched.xfer
  rw [hm] at hx
  exact ⟨hfetched.fs, hw, hx⟩

theorem withUio_read_below (hrw : x.uio.rw = .read) (hsize : sfiSize (inodeOf s v) < 2 ^ 31)
    (hlimit : P + x.uio.resid ≤ maxBytes) :
    withUio x (io v) s =
      .ok (.ok ⟨blit x.mem x.uio.base (fileByte s v) P (readLen s v P x.uio.resid),
        x.uio.advance (readLen s v P x.uio.resid)⟩, s) := by
  have hmax := maxBytes_lt
  obtain ⟨r, t, hrun, hread⟩ :=
    Call.wp_iff.mp (withUio_read_spec (C := fun _ => False) h hv hat hrw hsize (by omega))
  cases r with
  | error e =>
    obtain ⟨-, -, hover⟩ := hread
    rw [readLen] at hover
    omega
  | ok y =>
    obtain ⟨rfl, -, rfl⟩ := hread
    exact hrun

end

end requests

/-- Whatever a transfer does, the blocks stay with their files. -/
structure Steady (L : Set Nat) (v : Nat) (s t : Io) : Prop where
  own : Own L t.fs
  frame : Frame L v s.fs t.fs
  ok : t.xfer.uio.Ok

section anyOffset
variable {L : Set Nat} {s₀ s t : Io} {v fb skip len : Nat} {C : SfsCrash → Prop}
  (hC : ∀ c, C (.other c))

theorem Steady.refl (h : Own L s.fs) (hu : s.xfer.uio.Ok) : Steady L v s s := ⟨h, .refl, hu⟩

theorem Steady.loaded (h : Steady L v s t) (hv : v ∈ s.fs.vnodes) : v ∈ t.fs.vnodes := by
  rw [h.frame.vnodes]
  exact hv

theorem InBlock.steady {u : Except Errno Unit} (h : InBlock L v fb skip len s u t)
    (hs : Steady L v s₀ s) : Steady L v s₀ t := by
  cases u with
  | error e =>
    obtain ⟨hx, hkept, -⟩ := h
    refine ⟨hkept.own, hs.frame.trans hkept.frame, ?_⟩
    rw [hx]
    exact hs.ok
  | ok _ =>
    obtain ⟨-, -, hmoved⟩ := h
    refine ⟨hmoved.own, hs.frame.trans hmoved.frame, ?_⟩
    rw [hmoved.uio]
    exact hs.ok.advance

section
variable (hv : v ∈ s₀.fs.vnodes)
include hv

theorem wholeBlocks_steady (k : Nat) (hs : Steady L v s₀ s)
    (hres : k * blockSize ≤ s.xfer.uio.resid) :
    Ensures C (wholeBlocks v k) (fun _ => Steady L v s₀) s := by
  induction k generalizing s with
  | zero => exact hs
  | succ k ih =>
    rw [Nat.succ_mul] at hres
    rw [wholeBlocks, ensures_bind]
    refine (blockio_spec hs.own (hs.loaded hv) hs.ok (by omega)).mono ?_
    rintro (e | _) t hin
    · exact hin.steady hs
    · have hresid := hin.2.2.resid
      exact ih (hin.steady hs) (by omega)

/-- The size of the file and the residue are all that changes at the end. -/
theorem finish_steady (extraresid : Nat) (ht : Steady L v s₀ t) :
    Own L (t.finish v extraresid).fs ∧ Frame L v s₀.fs (t.finish v extraresid).fs := by
  have hvt := ht.loaded hv
  unfold Io.finish
  dsimp only
  split
  · have hedit := ht.own.setInode hvt (sameBlocks_setSize (n := toU32 t.xfer.uio.offset))
    refine ⟨hedit.own, ht.frame.trans (hedit.touch.frame ht.own (ht.own.loaded v hvt).1 ?_ ?_)⟩
    · rw [inodeOf_setInode hvt, inodeOf_loaded hvt, sfiType_setSize]
    · rw [inodeOf_setInode hvt, inodeOf_loaded hvt, sfiLinkcount_setSize]
  · exact ⟨ht.own, ht.frame⟩

include hC

theorem partialio_steady (hs : Steady L v s₀ s) (hlen : len ≤ s.xfer.uio.resid)
    (hskip : skip < 2 ^ 32) : Ensures C (partialio v skip len) (fun _ => Steady L v s₀) s :=
  (partialio_spec hs.own (hs.loaded hv) hs.ok hlen hskip (.inr hC)).mono
    fun _ _ hin => hin.steady hs

theorem trailing_steady (hs : Steady L v s₀ s) :
    Ensures C (trailing v) (fun _ => Steady L v s₀) s := by
  simp only [trailing, ensures_bind, ensures_get, after_ok, ensures_require,
    ensures_ite, Call.ensures_pure]
  refine ⟨fun _ => ⟨fun _ => ?_, fun _ => hs⟩, fun _ => hC _⟩
  exact partialio_steady hC hv hs (Nat.le_refl _) (by decide)

theorem aligned_steady (hs : Steady L v s₀ s) :
    Ensures C (aligned v) (fun _ => Steady L v s₀) s := by
  simp only [aligned, ensures_bind, ensures_get, after_ok]
  rw [ensures_ite]
  refine ⟨fun _ => hs, fun _ => ?_⟩
  simp only [ensures_bind, ensures_require]
  refine ⟨fun _ => ?_, fun _ => hC _⟩
  rw [after_ok, ensures_bind]
  refine (wholeBlocks_steady hv _ hs (Nat.div_mul_le_self ..)).mono ?_
  rintro (e | _) t ht
  · exact ht
  · exact trailing_steady hC hv ht

theorem leading_steady (hs : Steady L v s₀ s) :
    Ensures C (leading v) (fun _ => Steady L v s₀) s := by
  simp only [leading, ensures_bind, ensures_get, after_ok]
  rw [ensures_ite]
  refine ⟨fun _ => ?_, fun _ => hs⟩
  refine partialio_steady hC hv hs (Nat.min_le_right ..) ?_
  rw [toU32]
  omega

theorem ioFrom_steady (extraresid : Nat) (hs : Steady L v s₀ s) :
    Ensures C (ioFrom v extraresid) (fun _ t => Own L t.fs ∧ Frame L v s₀.fs t.fs) s := by
  rw [ensures_ioFrom, ensures_bind]
  refine (leading_steady hC hv hs).mono ?_
  rintro (e | _) t ht
  · exact finish_steady hv extraresid ht
  · exact (aligned_steady hC hv ht).mono fun _ _ => finish_steady hv extraresid

end

include hC in
/-- `sfs_io` at any offset, which may be negative. -/
theorem io_steady (h : Own L s.fs) (hv : v ∈ s.fs.vnodes) (hu : s.xfer.uio.Ok) :
    Ensures C (io v) (fun _ t => Own L t.fs ∧ Frame L v s.fs t.fs) s := by
  have hs : Steady L v s s := .refl h hu
  simp only [io, ensures_bind, ensures_get, after_ok]
  simp only [ensures_ite]
  refine ⟨fun _ => ioFrom_steady hC hv 0 hs, fun _ => ⟨fun _ => ⟨h, .refl⟩, fun _ =>
    ⟨fun _ => ioFrom_steady hC hv 0 hs, fun _ => ?_⟩⟩⟩
  simp only [ensures_bind, ensures_require, after_ok, Call.ensures_modify]
  refine ⟨fun _ => ?_, fun _ => hC _⟩
  refine ioFrom_steady hC hv _ ⟨h, .refl, ?_, hu.len_lt, hu.offset_ok⟩
  exact (Nat.sub_le ..).trans hu.resid_le

end anyOffset

end OS161.Sfs
