import OS161.Fs.Uio

/-! `lhd.c` and `sfs_io.c`: one thread uses the disk, whose answers nothing here decides. -/
namespace OS161

open Buffer
open Call (failIf attempt crash)

/-- The codes with which a command can complete. -/
inductive LhdCode where
  | ok | invsect | media
  deriving DecidableEq, Repr

/-- A completed command, with what was in the on-card buffer when it was issued. -/
structure Command where
  sector : Nat
  write : Bool
  data : Buf
  code : LhdCode

/-- The disk with its card; the log has the newest command first. -/
structure Lhd where
  blocks : Nat
  disk : Nat → Buf
  buf : Buf
  log : List Command

/-- The disk, and the transfer in progress. -/
structure LhdIo where
  lhd : Lhd
  xfer : Xfer

abbrev LhdCall := Call Crash LhdIo Errno

def sectSize : Nat := 512

section model
variable (answers : Nat → LhdCode)

/-- What the device does: it stores or fetches the sector exactly when it reports LHD_OK. -/
def Lhd.complete (h : Lhd) (sector : Nat) (write : Bool) : Lhd :=
  let code := answers h.log.length
  let log := ⟨sector, write, h.buf, code⟩ :: h.log
  match code, write with
  | .ok, true => { h with
      disk := Function.update h.disk sector (blit (h.disk sector) 0 h.buf 0 sectSize), log := log }
  | .ok, false => { h with buf := blit h.buf 0 (h.disk sector) 0 sectSize, log := log }
  | _, _ => { h with log := log }

/-- A command, and the code the interrupt handler saves. -/
def command (sector : Nat) (write : Bool) : LhdCall LhdCode := do
  let s ← Call.get
  Call.modify fun s => { s with lhd := s.lhd.complete answers sector write }
  pure (answers s.lhd.log.length)

/-- `lhd_code_to_errno`. -/
def codeToErrno : LhdCode → Except Errno Unit
  | .ok => .ok ()
  | .invsect => .error .einval
  | .media => .error .eio

/-- `uiomove(lh->lh_buf, LHD_SECTSIZE, uio)`. -/
def moveBuf : LhdCall Unit := fun s =>
  match uiomove s.lhd.buf sectSize s.xfer with
  | .error c => .error c
  | .ok (buf, xfer) => .ok (.ok (), ⟨{ s.lhd with buf := buf }, xfer⟩)

/-- The body of the loop of `lhd_io`. -/
def lhdSector (sector : Nat) : LhdCall Unit := do
  let s ← Call.get
  match s.xfer.uio.rw with
  | .write => do
    moveBuf
    let code ← command answers sector true
    Call.result (codeToErrno code)
  | .read => do
    let code ← command answers sector false
    Call.result (codeToErrno code)
    moveBuf

/-- The loop of `lhd_io`. -/
def lhdLoop (sector : Nat) : Nat → LhdCall Unit
  | 0 => pure ()
  | i + 1 => do
    lhdLoop sector i
    lhdSector answers (sector + i)

/-- The conversion of an `int` to `u_int32_t`. -/
def toU32 (n : Int) : Nat := (n % 2 ^ 32).toNat

def lhdIo : LhdCall Unit := do
  let s ← Call.get
  let sector := toU32 (s.xfer.uio.offset.tdiv sectSize)
  let sectoff := toU32 (s.xfer.uio.offset.tmod sectSize)
  let len := s.xfer.uio.resid / sectSize
  let lenoff := s.xfer.uio.resid % sectSize
  failIf .einval (sectoff ≠ 0 ∨ lenoff ≠ 0)
  failIf .einval (s.lhd.blocks < (sector + len) % 2 ^ 32)
  lhdLoop answers sector len

/-- `sfs_rwblock` with this many retries left. -/
def sfsRwblock : Nat → LhdCall Unit
  | 0 => do
    match ← attempt (lhdIo answers) with
    | .error .einval => crash .panic
    | result => Call.result result
  | retries + 1 => do
    match ← attempt (lhdIo answers) with
    | .error .einval => crash .panic
    | .error .eio => sfsRwblock retries
    | result => Call.result result

def maxRetries : Nat := 10

def sfsUio (block : Nat) (rw : UioRw) : Uio := mkKuio sectSize (offT (offT block * sectSize)) rw

def sfsRblock (data : Buf) (block : Nat) (h : Lhd) : Except Crash (Except Errno Unit × LhdIo) :=
  sfsRwblock answers maxRetries ⟨h, data, sfsUio block .read⟩

def sfsWblock (data : Buf) (block : Nat) (h : Lhd) : Except Crash (Except Errno Unit × LhdIo) :=
  sfsRwblock answers maxRetries ⟨h, data, sfsUio block .write⟩

end model

section sector
variable {answers : Nat → LhdCode} {s : LhdIo} {block sector retries : Nat}

/-- The transfer stands at the sector with as much to go. -/
structure AtSector (u : Uio) (sector : Nat) : Prop extends u.Ok where
  div : toU32 (u.offset.tdiv sectSize) = sector
  mod : toU32 (u.offset.tmod sectSize) = 0
  resid : u.resid = sectSize

theorem AtSector.len {u : Uio} (h : AtSector u sector) :
    u.resid / sectSize = 1 ∧ u.resid % sectSize = 0 := by
  rw [h.resid]
  decide

/-- `lhd_io` refuses the sector: `sector + len` is beyond the disk, and does not wrap around. -/
def Lhd.Refuses (h : Lhd) (sector : Nat) : Prop := h.blocks < (sector + 1) % 2 ^ 32

section
variable (h : AtSector s.xfer.uio sector)
include h

theorem lhdIo_eq (hin : ¬ s.lhd.Refuses sector) : lhdIo answers s = lhdSector answers sector s := by
  have hin : ¬ s.lhd.blocks < (sector + 1) % 4294967296 := hin
  simp [lhdIo, bind, Call.bind, Call.get, failIf, h.div, h.mod, h.len, hin, lhdLoop, pure,
    Call.pure]

theorem lhdIo_out (hout : s.lhd.Refuses sector) : lhdIo answers s = .ok (.error .einval, s) := by
  have hout : s.lhd.blocks < (sector + 1) % 4294967296 := hout
  simp [lhdIo, bind, Call.bind, Call.get, failIf, h.div, h.mod, h.len, hout, Call.fail, pure,
    Call.pure]

omit h in
/-- With nothing left to transfer only the sector is looked at. -/
theorem lhdIo_empty (hmod : toU32 (s.xfer.uio.offset.tmod sectSize) = 0)
    (hres : s.xfer.uio.resid = 0) : lhdIo answers s =
      if s.lhd.blocks < toU32 (s.xfer.uio.offset.tdiv sectSize) then .ok (.error .einval, s)
      else .ok (.ok (), s) := by
  have hlt : toU32 (s.xfer.uio.offset.tdiv sectSize) % 4294967296
      = toU32 (s.xfer.uio.offset.tdiv sectSize) := by
    refine Nat.mod_eq_of_lt ?_
    unfold toU32
    omega
  by_cases hout : s.lhd.blocks < toU32 (s.xfer.uio.offset.tdiv sectSize)
  · simp [lhdIo, bind, Call.bind, Call.get, failIf, hmod, hres, hlt, hout, Call.fail, pure,
      Call.pure]
  · simp [lhdIo, bind, Call.bind, Call.get, failIf, hmod, hres, hlt, hout, lhdLoop, pure, Call.pure]

theorem lhdSector_write (hrw : s.xfer.uio.rw = .write) :
    lhdSector answers sector s = .ok (codeToErrno (answers s.lhd.log.length),
      ⟨{ s.lhd with buf := blit s.lhd.buf 0 s.xfer.mem s.xfer.uio.base sectSize }.complete answers
          sector true, s.xfer.mem, s.xfer.uio.advance sectSize⟩) := by
  have hmove : uiomove s.lhd.buf sectSize s.xfer = _ :=
    uiomove_eq h.toOk (Nat.le_of_eq h.resid.symm)
  rw [Xfer.moved, hrw] at hmove
  simp only [lhdSector, bind, Call.bind, Call.get, hrw, moveBuf, hmove, command, Call.modify, pure,
    Call.pure, Call.result]

theorem lhdSector_read_ok (hrw : s.xfer.uio.rw = .read) (hok : answers s.lhd.log.length = .ok) :
    lhdSector answers sector s = .ok (.ok (), ⟨s.lhd.complete answers sector false,
      blit s.xfer.mem s.xfer.uio.base (s.lhd.complete answers sector false).buf 0 sectSize,
      s.xfer.uio.advance sectSize⟩) := by
  have hmove : uiomove (s.lhd.complete answers sector false).buf sectSize s.xfer = _ :=
    uiomove_eq h.toOk (Nat.le_of_eq h.resid.symm)
  rw [Xfer.moved, hrw] at hmove
  simp only [lhdSector, bind, Call.bind, Call.get, hrw, moveBuf, hmove, command, Call.modify, pure,
    Call.pure, Call.result, hok, codeToErrno]

omit h in
theorem lhdSector_read_error {e : Errno} (hrw : s.xfer.uio.rw = .read)
    (herr : codeToErrno (answers s.lhd.log.length) = .error e) :
    lhdSector answers sector s = .ok (.error e, ⟨s.lhd.complete answers sector false, s.xfer⟩) := by
  simp only [lhdSector, bind, Call.bind, Call.get, hrw, command, Call.modify, pure, Call.pure,
    Call.result, herr]

variable {t : LhdIo}

omit h in
/-- An attempt that succeeds is the last one. -/
theorem sfsRwblock_ok (h : lhdIo answers s = .ok (.ok (), t)) :
    sfsRwblock answers retries s = .ok (.ok (), t) := by
  cases retries <;> simp [sfsRwblock, bind, Call.bind, attempt, h, Call.result]

omit h in
theorem sfsRwblock_einval (h : lhdIo answers s = .ok (.error .einval, t)) :
    sfsRwblock answers retries s = .error .panic := by
  cases retries <;> simp [sfsRwblock, bind, Call.bind, attempt, h, crash]

/-- The state after a write command. -/
def LhdIo.written (s : LhdIo) (answers : Nat → LhdCode) (sector : Nat) : LhdIo :=
  ⟨{ s.lhd with buf := blit s.lhd.buf 0 s.xfer.mem s.xfer.uio.base sectSize }.complete answers
    sector true, s.xfer.mem, s.xfer.uio.advance sectSize⟩

/-- The retry of a write finds nothing left to transfer. -/
theorem sfsRwblock_write (hrw : s.xfer.uio.rw = .write) (hin : ¬ s.lhd.Refuses sector)
    (hmod : toU32 ((s.xfer.uio.advance sectSize).offset.tmod sectSize) = 0) :
    (answers s.lhd.log.length = .ok →
      sfsRwblock answers (retries + 1) s = .ok (.ok (), s.written answers sector)) ∧
    (answers s.lhd.log.length = .invsect → sfsRwblock answers (retries + 1) s = .error .panic) ∧
    (answers s.lhd.log.length = .media → sfsRwblock answers (retries + 1) s =
      if s.lhd.blocks < toU32 ((s.xfer.uio.advance sectSize).offset.tdiv sectSize)
      then .error .panic else .ok (.ok (), s.written answers sector)) := by
  have hio : lhdIo answers s = .ok (codeToErrno (answers s.lhd.log.length),
      s.written answers sector) := (lhdIo_eq h hin).trans (lhdSector_write h hrw)
  refine ⟨fun hcode => ?_, fun hcode => ?_, fun hcode => ?_⟩ <;> rw [hcode] at hio
  · exact sfsRwblock_ok hio
  · exact sfsRwblock_einval hio
  have hblocks : (s.written answers sector).lhd.blocks = s.lhd.blocks := by
    simp only [LhdIo.written, Lhd.complete, hcode]
  have hnext := @lhdIo_empty answers (s.written answers sector) hmod
    (by simp [LhdIo.written, Uio.advance, h.resid])
  simp only [sfsRwblock, bind, Call.bind, attempt, hio]
  show sfsRwblock answers retries _ = _
  rw [hblocks] at hnext
  split at hnext
  · rename_i hout
    rw [sfsRwblock_einval hnext, if_pos (by exact hout)]
  · rename_i hout
    rw [sfsRwblock_ok hnext, if_neg (by exact hout)]

/-- What a read does, after some attempts that failed. -/
structure Fetched (s : LhdIo) (sector retries : Nat) (t : LhdIo) : Prop where
  xfer : t.xfer = ⟨blit s.xfer.mem s.xfer.uio.base (s.lhd.disk sector) 0 sectSize,
    s.xfer.uio.advance sectSize⟩
  disk : t.lhd.disk = s.lhd.disk
  log : ∃ failed data, t.lhd.log = ⟨sector, false, data, .ok⟩ :: (failed ++ s.lhd.log) ∧
    failed.length ≤ retries ∧
    ∀ c ∈ failed, c.sector = sector ∧ c.write = false ∧ c.code = .media

omit h in
theorem fetched_ok (hok : answers s.lhd.log.length = .ok) :
    Fetched s sector retries ⟨s.lhd.complete answers sector false,
      blit s.xfer.mem s.xfer.uio.base (s.lhd.complete answers sector false).buf 0 sectSize,
      s.xfer.uio.advance sectSize⟩ := by
  simp only [Lhd.complete, hok, blit_through]
  exact ⟨rfl, rfl, [], _, rfl, Nat.zero_le _, by simp⟩

omit h in
/-- A failed attempt leaves the transfer where it was. -/
theorem Fetched.of_media (hmedia : answers s.lhd.log.length = .media)
    (h : Fetched ⟨s.lhd.complete answers sector false, s.xfer⟩ sector retries t) :
    Fetched s sector (retries + 1) t := by
  obtain ⟨hxfer, hdisk, failed, data, hlog, hlen, hfailed⟩ := h
  simp only [Lhd.complete, hmedia] at hxfer hdisk hlog
  refine ⟨hxfer, hdisk, failed ++ [⟨sector, false, s.lhd.buf, .media⟩], data, ?_, ?_, ?_⟩
  · simpa using hlog
  · simpa using hlen
  · simpa [or_imp, forall_and] using hfailed

/-- One attempt: the sector is read, or the transfer is as it was. -/
theorem lhdIo_read (retries : Nat) (hrw : s.xfer.uio.rw = .read) :
    ∃ r t, lhdIo answers s = .ok (r, t) ∧ (r = .ok () ∧ Fetched s sector retries t ∨
      r = .error .einval ∨ r = .error .eio ∧ answers s.lhd.log.length = .media ∧
        t = ⟨s.lhd.complete answers sector false, s.xfer⟩) := by
  by_cases hin : s.lhd.Refuses sector
  · exact ⟨_, _, lhdIo_out h hin, .inr (.inl rfl)⟩
  rw [lhdIo_eq h hin]
  cases hcode : answers s.lhd.log.length with
  | ok => exact ⟨_, _, lhdSector_read_ok h hrw hcode, .inl ⟨rfl, fetched_ok hcode⟩⟩
  | invsect =>
    exact ⟨_, _, lhdSector_read_error hrw (e := .einval) (by rw [hcode]; rfl), .inr (.inl rfl)⟩
  | media =>
    exact ⟨_, _, lhdSector_read_error hrw (e := .eio) (by rw [hcode]; rfl),
      .inr (.inr ⟨rfl, rfl, rfl⟩)⟩

theorem sfsRwblock_read (hrw : s.xfer.uio.rw = .read)
    (hrun : sfsRwblock answers retries s = .ok (.ok (), t)) : Fetched s sector retries t := by
  induction retries generalizing s with
  | zero =>
    obtain ⟨r, u, hio, hr⟩ := @lhdIo_read answers s sector h 0 hrw
    rcases hr with ⟨rfl, hf⟩ | rfl | ⟨rfl, -⟩
    · rw [sfsRwblock_ok hio] at hrun
      cases hrun
      exact hf
    · rw [sfsRwblock_einval hio] at hrun
      cases hrun
    · simp [sfsRwblock, bind, Call.bind, attempt, hio, Call.result] at hrun
  | succ retries ih =>
    obtain ⟨r, u, hio, hr⟩ := @lhdIo_read answers s sector h (retries + 1) hrw
    rcases hr with ⟨rfl, hf⟩ | rfl | ⟨rfl, hmedia, rfl⟩
    · rw [sfsRwblock_ok hio] at hrun
      cases hrun
      exact hf
    · rw [sfsRwblock_einval hio] at hrun
      cases hrun
    · simp only [sfsRwblock, bind, Call.bind, attempt, hio] at hrun
      exact (ih (s := ⟨s.lhd.complete answers sector false, s.xfer⟩) h hrw hrun).of_media hmedia

end

/-- The sector that a block's byte offset, an `off_t`, comes to. -/
def sectorOf (block : Nat) : Nat := toU32 ((offT (offT block * sectSize)).tdiv sectSize)

theorem offset_eq (block : Nat) :
    offT (offT block * sectSize) = Int.bmod block (2 ^ 23) * sectSize := by
  have hsect : ((sectSize : Nat) : Int) = 512 := rfl
  rw [offT, offT, Int.bmod_mul_bmod, hsect, Int.bmod_def, Int.bmod_def]
  omega

theorem sectorOf_eq (block : Nat) : sectorOf block = toU32 (Int.bmod block (2 ^ 23)) := by
  rw [sectorOf, offset_eq, Int.mul_tdiv_cancel _ (by decide)]

theorem sectorOf_eq_self (hblock : block < 2 ^ 32) :
    sectorOf block = block ↔ block < 2 ^ 22 ∨ 2 ^ 32 - 2 ^ 22 ≤ block := by
  rw [sectorOf_eq, toU32, Int.bmod_def]
  omega

theorem offT_tmod (n : Int) : toU32 ((offT (n * sectSize)).tmod sectSize) = 0 := by
  have hsect : ((sectSize : Nat) : Int) = 512 := rfl
  have hdvd : ((sectSize : Nat) : Int) ∣ offT (n * sectSize) := by
    rw [offT, hsect, Int.bmod_def]
    omega
  rw [Int.tmod_eq_zero_of_dvd hdvd]
  rfl

theorem sfsUio_atSector {rw : UioRw} : AtSector (sfsUio block rw) (sectorOf block) := by
  refine ⟨⟨?_, ?_, ?_⟩, ?_, ?_, ?_⟩ <;> simp only [sfsUio, mkKuio, sectorOf]
  · exact Nat.le_refl _
  · decide
  · exact offT_offT
  · exact offT_tmod _

theorem sfsUio_advance_mod {rw : UioRw} :
    toU32 (((sfsUio block rw).advance sectSize).offset.tmod sectSize) = 0 := by
  have hone := offT_tmod (Int.bmod block (2 ^ 23) + 1)
  rw [Int.add_mul, Int.one_mul, ← offset_eq] at hone
  simpa only [Uio.advance, sfsUio, mkKuio] using hone

-- its value is a large expression that no proof below needs
attribute [irreducible] sectorOf

end sector

section
variable {answers : Nat → LhdCode} {h : Lhd} {block : Nat}

theorem sfsRblock_fetched {data : Buf} {t : LhdIo}
    (ht : sfsRblock answers data block h = .ok (.ok (), t)) :
    Fetched ⟨h, data, sfsUio block .read⟩ (sectorOf block) maxRetries t ∧
      ∀ i < sectSize, t.xfer.mem i = h.disk (sectorOf block) i := by
  have hf := sfsRwblock_read sfsUio_atSector rfl ht
  refine ⟨hf, fun i hi => ?_⟩
  rw [hf.xfer]
  exact (blit_inside (Nat.zero_le i) (by rwa [Nat.zero_add])).trans (by simp)

end

end OS161
