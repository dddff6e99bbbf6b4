import OS161.Fs.UioExact
import OS161.Sfs.Discard

/-! How `sfs_io` cuts a read at the end of the file, in signed 32-bit positions. -/
namespace OS161.Sfs

open Buffer
open Call (wp ensures_bind after_ok ensures_get)

/-- A read of `n` bytes at the position `P` of a file of `size` bytes for which `sfs_io` does what
it should: it starts past the end, or no position wraps and the bytes are in blocks that a file may
have. -/
def StopsAtEof (size P n : Nat) : Prop :=
  if size < 2 ^ 31 then
    size ≤ P ∨ P + n < 2 ^ 31 ∧
      (P + min n (size - P) ≤ maxBytes ∨ n = 0 ∧ P % blockSize = 0)
  else n = 0

/-- What a read should do. -/
def exactRead (s : Fs) (v P : Nat) (x : Xfer) : Io :=
  ⟨s, ⟨blit x.mem x.uio.base (fileByte s v) P (readLen s v P x.uio.resid),
    x.uio.after (readLen s v P x.uio.resid)⟩⟩

section reads
variable {L : Set Nat} {s : Fs} {t : Io} {v P m : Nat} {x : Xfer} {C : SfsCrash → Prop}
  {r : Except Errno Unit}

theorem after_zero {u : Uio} : u.after 0 = u := by
  simp [Uio.after]

theorem exactRead_of_zero (hzero : readLen s v P x.uio.resid = 0) : exactRead s v P x = ⟨s, x⟩ := by
  rw [exactRead, hzero, blit_zero, after_zero]

theorem offT_size (hv : v ∈ s.vnodes) : offT (sfiSize (s.sv v).inode) =
    if sfiSize (inodeOf s v) < 2 ^ 31 then (sfiSize (inodeOf s v) : Int)
    else sfiSize (inodeOf s v) - 2 ^ 32 := by
  have hlt : sfiSize (inodeOf s v) < 256 ^ 4 := BigEndian.read_lt
  rw [← inodeOf_loaded hv, offT, Int.bmod_def]
  split <;> split <;> omega

theorem io_past (hrw : x.uio.rw = .read) (hpast : offT (sfiSize (s.sv v).inode) ≤ x.uio.offset) :
    io v ⟨s, x⟩ = .ok (.ok (), ⟨s, x⟩) := by
  have hwp : wp (io v) (fun r t => r = .ok () ∧ t = ⟨s, x⟩) ⟨s, x⟩ := by
    simp only [wp, io, ensures_bind, hrw, after_ok, ensures_get, reduceCtorEq,
      if_false, if_pos hpast, Call.ensures_pure, and_self]
  obtain ⟨r, t, hrun, rfl, rfl⟩ := Call.wp_iff.mp hwp
  exact hrun

theorem io_whole (h : Own L s) (hv : v ∈ s.vnodes) (hat : At P x.uio) (hrw : x.uio.rw = .read)
    (hin : x.uio.offset < offT (sfiSize (s.sv v).inode))
    (hend : offT (x.uio.offset + x.uio.resid) ≤ offT (sfiSize (s.sv v).inode)) :
    wp (io v) (fun r t => ∃ m, Fetched v P x.uio.resid m x s r t) ⟨s, x⟩ := by
  simp only [wp, io, ensures_bind, hrw, after_ok, ensures_get, reduceCtorEq,
    if_false, if_neg (not_le.mpr hin), if_pos hend]
  exact ioFrom_read h hv hat x.uio.resid 0 hrw rfl

/-- A read that succeeded is the one that was asked for. -/
theorem Fetched.exact (hf : Fetched v P (readLen s v P x.uio.resid) m x s (.ok ()) t)
    (hat : At P x.uio) (hsize : sfiSize (inodeOf s v) < 2 ^ 31) : t = exactRead s v P x := by
  obtain ⟨-, rfl⟩ := hf.ok rfl
  have hlt := hat.lt
  have hoff : offT (x.uio.offset + readLen s v P x.uio.resid) =
      x.uio.offset + readLen s v P x.uio.resid := by
    refine offT_eq ?_ ?_ <;> rw [hat.offset] <;> unfold readLen <;> omega
  have hx := hf.xfer
  rw [advance_eq_after hoff] at hx
  rw [exactRead, ← hx, ← hf.fs]

/-- Whether a read of some bytes that ended with `r` is the right one. -/
theorem Fetched.exact_iff (hf : Fetched v P (readLen s v P x.uio.resid) m x s r t)
    (hat : At P x.uio) (hsize : sfiSize (inodeOf s v) < 2 ^ 31) :
    (r = .ok () ∧ t = exactRead s v P x) ↔ r = .ok () :=
  ⟨fun h => h.1, fun h => ⟨h, (h ▸ hf).exact hat hsize⟩⟩

theorem io_nothing (h : Own L s) (hv : v ∈ s.vnodes) (hat : At P x.uio) (hrw : x.uio.rw = .read)
    (hsize : sfiSize (inodeOf s v) < 2 ^ 31) (hin : P < sfiSize (inodeOf s v))
    (hzero : x.uio.resid = 0) :
    wp (io v) (fun r _ => r = .ok () ↔ P % blockSize = 0 ∨ P < maxBytes) ⟨s, x⟩ := by
  have hoff : x.uio.offset < offT (sfiSize (s.sv v).inode) := by
    rw [offT_size hv, if_pos hsize, hat.offset]
    omega
  have hend : offT (x.uio.offset + x.uio.resid) ≤ offT (sfiSize (s.sv v).inode) := by
    have hsame : x.uio.offset + (x.uio.resid : Int) = x.uio.offset := by omega
    rw [hsame, hat.ok.offset_ok]
    exact hoff.le
  simp only [wp, io, ensures_bind, hrw, after_ok, ensures_get, reduceCtorEq,
    if_false, if_neg (not_le.mpr hoff), if_pos hend]
  rw [ensures_ioFrom]
  exact transfer_zero (s := ⟨s, x⟩) h hv hat hzero hrw

/-- A read whose end position wraps is not cut at the end of the file. It goes on to the last block
that a file may have and fails there. -/
theorem io_wrapped (h : Own L s) (hv : v ∈ s.vnodes) (hat : At P x.uio) (hrw : x.uio.rw = .read)
    (hsize : sfiSize (inodeOf s v) < 2 ^ 31) (hin : P < sfiSize (inodeOf s v))
    (hwrap : 2 ^ 31 ≤ P + x.uio.resid) :
    wp (io v) (fun r t => r = .error .einval ∧
      (P < maxBytes → t.xfer = ⟨blit x.mem x.uio.base (fileByte s v) P (maxBytes - P),
        x.uio.advance (maxBytes - P)⟩)) ⟨s, x⟩ := by
  have hmax := maxBytes_lt
  have hlt := hat.ok.len_lt
  have hle := hat.ok.resid_le
  have hoff : x.uio.offset < offT (sfiSize (s.sv v).inode) := by
    rw [offT_size hv, if_pos hsize, hat.offset]
    omega
  -- the end position is negative or below the offset
  have hendpos : offT (x.uio.offset + x.uio.resid) ≤ offT (sfiSize (s.sv v).inode) := by
    rw [offT_size hv, if_pos hsize, hat.offset, offT, Int.bmod_def]
    split <;> omega
  refine (io_whole h hv hat hrw hoff hendpos).mono ?_
  rintro (e | _) t ⟨m, hf⟩
  · obtain ⟨rfl, -⟩ := hf.error e rfl
    obtain ⟨hge, hw⟩ := hf.stopped _ rfl
    refine ⟨rfl, fun hbelow => ?_⟩
    obtain rfl : m = maxBytes - P := by
      rcases hw with h0 | hw <;> omega
    exact hf.xfer
  · rcases (hf.ok rfl).1 with h0 | hw <;> omega

theorem io_inside (h : Own L s) (hv : v ∈ s.vnodes) (hat : At P x.uio) (hrw : x.uio.rw = .read)
    (hsize : sfiSize (inodeOf s v) < 2 ^ 31) (hin : P < sfiSize (inodeOf s v)) :
    wp (io v) (fun r t => (r = .ok () ∧ t = exactRead s v P x) ↔
      P + x.uio.resid < 2 ^ 31 ∧ (P + readLen s v P x.uio.resid ≤ maxBytes ∨
        x.uio.resid = 0 ∧ P % blockSize = 0)) ⟨s, x⟩ := by
  by_cases hend : P + x.uio.resid < 2 ^ 31
  · have hread := io_read_spec (C := fun _ => False) h hv hat hrw hsize hend
    by_cases hzero : x.uio.resid = 0
    · refine (hread.and (io_nothing h hv hat hrw hsize hin hzero)).mono ?_
      rintro r t ⟨⟨m, hf⟩, hr⟩
      rw [hf.exact_iff hat hsize, hr, hzero, readLen, Nat.zero_min]
      constructor
      · rintro (hmod | hlt)
        · exact ⟨by omega, .inr ⟨rfl, hmod⟩⟩
        · exact ⟨by omega, .inl (by omega)⟩
      rintro ⟨-, hle | ⟨-, hmod⟩⟩
      · rcases Nat.lt_or_eq_of_le hle with hlt | heq
        · exact .inr hlt
        refine .inl ?_
        rw [Nat.add_zero] at heq
        rw [heq]
        rfl
      · exact .inl hmod
    · refine hread.mono ?_
      rintro r t ⟨m, hf⟩
      rw [hf.exact_iff hat hsize]
      have hpos : 0 < readLen s v P x.uio.resid := by
        unfold readLen
        omega
      constructor
      · intro hr
        rcases (hf.ok hr).1 with h0 | hle
        · omega
        · exact ⟨hend, .inl hle⟩
      rintro ⟨-, hle | ⟨h0, -⟩⟩
      · cases r with
        | error e =>
          have hover := (hf.error e rfl).2
          omega
        | ok _ => rfl
      · exact absurd h0 hzero
  · refine (io_wrapped h hv hat hrw hsize hin (by omega)).mono ?_
    rintro r t ⟨rfl, -⟩
    exact ⟨fun hr => (by cases hr.1), fun hcond => absurd hcond.1 hend⟩

/-- `sfs_io` reads what there is between the offset and the end of the file, up to the amount asked
for, exactly if `StopsAtEof` holds of it. -/
theorem read_to_eof_iff (h : Own L s) (hv : v ∈ s.vnodes) (hat : At P x.uio)
    (hrw : x.uio.rw = .read) :
    io v ⟨s, x⟩ = .ok (.ok (), exactRead s v P x) ↔
      StopsAtEof (sfiSize (inodeOf s v)) P x.uio.resid := by
  have hP := hat.lt
  unfold StopsAtEof
  by_cases hsize : sfiSize (inodeOf s v) < 2 ^ 31
  · rw [if_pos hsize]
    by_cases hin : P < sfiSize (inodeOf s v)
    · obtain ⟨r, t, hrun, hiff⟩ := Call.wp_iff.mp (io_inside h hv hat hrw hsize hin)
      rw [hrun, Except.ok.injEq, Prod.mk.injEq, hiff, readLen]
      exact (or_iff_right (by omega)).symm
    have hzero : readLen s v P x.uio.resid = 0 := by
      unfold readLen
      omega
    rw [io_past hrw (by rw [offT_size hv, if_pos hsize, hat.offset]; omega),
      exactRead_of_zero hzero]
    exact ⟨fun _ => .inl (by omega), fun _ => rfl⟩
  · have hlt : sfiSize (inodeOf s v) < 256 ^ 4 := BigEndian.read_lt
    rw [if_neg hsize, io_past hrw (by rw [offT_size hv, if_neg hsize, hat.offset]; omega)]
    constructor
    · intro heq
      have hres := congrArg (fun e : Except SfsCrash (Except Errno Unit × Io) =>
        (e.toOption.map fun p => p.2.xfer.uio.resid)) heq
      simp only [Except.toOption, Option.map_some, exactRead, Uio.after, Option.some.injEq, readLen]
        at hres
      omega
    · intro hzero
      rw [exactRead_of_zero]
      rw [readLen, hzero, Nat.zero_min]

attribute [local irreducible] Call.Ensures

/-- A read from the start of a file into a buffer of `n` bytes. -/
def readAll (n : Nat) : Xfer := ⟨zeros, mkKuio n 0 .read⟩

theorem at_readAll {n : Nat} (hn : n < 2 ^ 32) : At 0 (readAll n).uio := at_mkKuio hn (by decide)

/-- The file of sixteen blocks is read into a larger buffer. -/
theorem read_to_eof_iff_spilled :
    io 3 ⟨spilled, readAll 10000⟩ = .ok (.ok (), exactRead spilled 3 0 (readAll 10000)) ∧
      readLen spilled 3 0 10000 = 16 * blockSize := by
  have hv : 3 ∈ spilled.vnodes := List.mem_singleton.mpr rfl
  have hread : StopsAtEof (16 * blockSize) 0 10000 := by
    exact .inr ⟨by decide, .inl (by decide)⟩
  refine ⟨(read_to_eof_iff own_spilled hv (at_readAll (by decide)) rfl).mpr ?_, ?_⟩
  · exact hread
  · rw [readLen, size_spilled]
    rfl

/-- With a buffer of `2 ^ 31` bytes the end position is negative: the read goes past the end of the
file, up to the offset 73216, and returns EINVAL. -/
theorem long_read_passes_eof :
    sfiSize (inodeOf spilled 3) = 8192 ∧
      ∃ t, io 3 ⟨spilled, readAll (2 ^ 31)⟩ = .ok (.error .einval, t) ∧
        t.xfer.uio.offset = maxBytes := by
  have hv : 3 ∈ spilled.vnodes := List.mem_singleton.mpr rfl
  have hsize : sfiSize (inodeOf spilled 3) = 8192 := size_spilled
  refine ⟨hsize, ?_⟩
  have hresid : (readAll (2 ^ 31)).uio.resid = 2 ^ 31 := rfl
  have hat : At 0 (readAll (2 ^ 31)).uio := at_readAll (by decide)
  have hsmall : sfiSize (inodeOf spilled 3) < 2 ^ 31 := by
    decide
  have hin : 0 < sfiSize (inodeOf spilled 3) := by
    decide
  have hwrap : 2 ^ 31 ≤ 0 + (readAll (2 ^ 31)).uio.resid := by rw [hresid, Nat.zero_add]
  obtain ⟨r, t, hrun, rfl, hx⟩ :=
    Call.wp_iff.mp (io_wrapped own_spilled hv hat rfl hsmall hin hwrap)
  refine ⟨t, hrun, ?_⟩
  have hoff : offT ((readAll (2 ^ 31)).uio.offset + (maxBytes - 0 : Nat)) = maxBytes := by decide
  rw [hx (by decide), Uio.advance, hoff]

end reads

end OS161.Sfs
