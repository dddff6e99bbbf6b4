import OS161.Lib.Run
import OS161.Sfs.ReadWrite

/-! A file that is only read and written holds the byte written last, or zero. -/
namespace OS161.Sfs

open Buffer

/-- A call of `sfs_read` or `sfs_write`. -/
inductive FileCall where
  | read (x : Xfer)
  | write (x : Xfer)

/-- How many bytes of a request are below the limit of a file's size. -/
def stored (x : Xfer) : Nat := min x.uio.resid (maxBytes - x.uio.offset.toNat)

namespace FileCall

/-- The byte at a position after the call. -/
def put (q : Nat) : Byte → FileCall → Byte
  | b, .read _ => b
  | b, .write x =>
    if x.uio.offset.toNat ≤ q ∧ q < x.uio.offset.toNat + stored x then
      x.mem (x.uio.base + (q - x.uio.offset.toNat))
    else b

/-- The largest end offset after the call. A write that is refused past the limit moves it too, to
the limit or to where it starts. -/
def extend : Nat → FileCall → Nat
  | n, .read _ => n
  | n, .write x => max n (x.uio.offset.toNat + stored x)

end FileCall

/-- The byte that was written last at a position, or zero. -/
def lastWritten (calls : List FileCall) (q : Nat) : Byte := calls.foldl (FileCall.put q) 0#8

/-- The largest end offset of the writes, those past the limit included. -/
def lastEnd (calls : List FileCall) : Nat := calls.foldl FileCall.extend 0

section history
variable {calls : List FileCall} {c : FileCall} {x : Xfer} {q P : Nat}

theorem lastWritten_snoc : lastWritten (calls ++ [c]) q = c.put q (lastWritten calls q) := by
  simp [lastWritten]

theorem lastEnd_snoc : lastEnd (calls ++ [c]) = c.extend (lastEnd calls) := by
  simp [lastEnd]

theorem lastWritten_write (hat : At P x.uio) :
    lastWritten (calls ++ [.write x]) = blit (lastWritten calls) P x.mem x.uio.base (stored x) := by
  funext q
  rw [lastWritten_snoc, FileCall.put, hat.offset, Int.toNat_natCast]
  rfl

theorem lastEnd_write (hat : At P x.uio) :
    lastEnd (calls ++ [.write x]) = max (lastEnd calls) (P + stored x) := by
  rw [lastEnd_snoc, FileCall.extend, hat.offset, Int.toNat_natCast]

end history

/-- A read below the limit of a file's size, or a write that does not find the disk full. -/
inductive FileStep (v : Nat) : Fs → FileCall → Fs → Prop
  | read {s t : Fs} {x : Xfer} {P : Nat} {r : Except Errno Xfer} (hat : At P x.uio)
      (hrw : x.uio.rw = .read) (hlimit : P + x.uio.resid ≤ maxBytes)
      (hrun : read v x s = .ok (r, t)) : FileStep v s (.read x) t
  | write {s t : Fs} {x : Xfer} {P : Nat} {r : Except Errno Xfer} (hat : At P x.uio)
      (hrw : x.uio.rw = .write) (hrun : write v x s = .ok (r, t))
      (hroom : r ≠ .error .enospc) : FileStep v s (.write x) t

/-- No byte is in the file. -/
structure EmptyFile (s : Fs) (v : Nat) : Prop where
  size : sfiSize (inodeOf s v) = 0
  data : ∀ fb, ref s v (.data fb) = 0

/-- The file has this size, and reads below the limit return these bytes. -/
structure Holds (s : Fs) (v size : Nat) (bytes : Nat → Byte) : Prop where
  size_eq : sfiSize (inodeOf s v) = size
  read_eq : ∀ (P : Nat) (x : Xfer), At P x.uio → x.uio.rw = .read → P + x.uio.resid ≤ maxBytes →
    ∃ y, read v x s = .ok (.ok y, s) ∧ x.uio.resid - y.uio.resid = min x.uio.resid (size - P) ∧
      ∀ k < min x.uio.resid (size - P), y.mem (x.uio.base + k) = bytes (P + k)

section file
variable {L : Set Nat} {s t : Fs} {v P : Nat} {x : Xfer} {calls : List FileCall} {c : FileCall}

theorem read_below (h : Own L s) (hv : v ∈ s.vnodes) (hsize : sfiSize (inodeOf s v) < 2 ^ 31)
    (hat : At P x.uio) (hrw : x.uio.rw = .read) (hlimit : P + x.uio.resid ≤ maxBytes) :
    read v x s = .ok (.ok ⟨blit x.mem x.uio.base (fileByte s v) P (readLen s v P x.uio.resid),
      x.uio.advance (readLen s v P x.uio.resid)⟩, s) := by
  have hread : read v x = withUio x (io v) := by
    rw [read, Call.require, if_pos hrw]
    rfl
  rw [hread]
  exact withUio_read_below h hv hat hrw hsize hlimit

theorem holds_fileByte (h : Own L s) (hv : v ∈ s.vnodes) (hsize : sfiSize (inodeOf s v) < 2 ^ 31) :
    Holds s v (sfiSize (inodeOf s v)) (fileByte s v) := by
  refine ⟨rfl, fun P x hat hrw hlimit => ⟨_, read_below h hv hsize hat hrw hlimit, ?_, ?_⟩⟩
  · simp only [Uio.advance, readLen]
    omega
  intro k hk
  rw [← readLen] at hk
  simp only
  rw [blit_inside (by omega) (by omega), Nat.add_sub_cancel_left]

/-- Unless the disk is full, a write stores its bytes below the limit, and fails if it has more. -/
theorem write_stored (h : Own L s) (hv : v ∈ s.vnodes) (hsize : sfiSize (inodeOf s v) < 2 ^ 31)
    (hat : At P x.uio) (hrw : x.uio.rw = .write) :
    ∃ r t, write v x s = .ok (r, t) ∧ (r ≠ .error .enospc → Stored L v P (stored x) x s t ∧
      (P + x.uio.resid ≤ maxBytes → ∃ y, r = .ok y) ∧
      (0 < x.uio.resid → maxBytes < P + x.uio.resid → r = .error .einval)) := by
  have hstored : stored x = min x.uio.resid (maxBytes - P) := by
    rw [stored, hat.offset, Int.toNat_natCast]
  obtain ⟨r, t, hrun, hwritten⟩ :=
    Call.wp_iff.mp (write_spec (C := fun _ => False) h hv hat hrw hsize)
  refine ⟨r, t, hrun, fun hroom => ?_⟩
  cases r with
  | ok y =>
    obtain ⟨hst, hin, -⟩ := hwritten
    unfold Within at hin
    refine ⟨?_, fun _ => ⟨y, rfl⟩, fun _ _ => by omega⟩
    rw [hstored, Nat.min_eq_left (by omega)]
    exact hst
  | error e =>
    obtain ⟨m, hm, hst, hin, -, ⟨rfl, hover⟩ | rfl⟩ := hwritten
    · have hmin : stored x = m := by
        unfold Within at hin
        omega
      refine ⟨hmin ▸ hst, fun hlimit => ?_, fun _ _ => rfl⟩
      -- a request that ends at the limit has no bytes past it
      unfold maxBytes blockSize at hover hlimit
      unfold blockSize at hm
      omega
    · exact absurd rfl hroom

/-- What holds of the file after the calls. -/
structure Sparse (L : Set Nat) (v : Nat) (calls : List FileCall) (s : Fs) : Prop where
  own : Own L s
  loaded : v ∈ s.vnodes
  size : sfiSize (inodeOf s v) = lastEnd calls
  end_lt : lastEnd calls < 2 ^ 31
  bytes : fileByte s v = lastWritten calls

theorem Sparse.size_lt (h : Sparse L v calls s) : sfiSize (inodeOf s v) < 2 ^ 31 := by
  rw [h.size]
  exact h.end_lt

theorem Sparse.holds (h : Sparse L v calls s) : Holds s v (lastEnd calls) (lastWritten calls) := by
  rw [← h.size, ← h.bytes]
  exact holds_fileByte h.own h.loaded h.size_lt

theorem sparse_empty (h : Own L s) (hv : v ∈ s.vnodes) (hempty : EmptyFile s v) : Sparse L v [] s :=
  ⟨h, hv, hempty.size, Nat.two_pow_pos 31, funext fun _ => fileByte_hole (hempty.data _)⟩

theorem Sparse.write (h : Sparse L v calls s) (hat : At P x.uio)
    (hst : Stored L v P (stored x) x s t) : Sparse L v (calls ++ [.write x]) t := by
  refine ⟨hst.own, ?_, ?_, ?_, ?_⟩
  · rw [hst.frame.vnodes]
    exact h.loaded
  · rw [hst.size, h.size, lastEnd_write hat]
  · rw [lastEnd_write hat, stored, hat.offset, Int.toNat_natCast]
    have := hat.lt
    have := maxBytes_lt
    have := h.end_lt
    omega
  · rw [hst.bytes, h.bytes, lastWritten_write hat]

theorem sparse_step (h : Sparse L v calls s) (hs : FileStep v s c t) :
    Sparse L v (calls ++ [c]) t := by
  cases hs with
  | read hat hrw hlimit hrun =>
    rw [read_below h.own h.loaded h.size_lt hat hrw hlimit] at hrun
    cases hrun
    refine ⟨h.own, h.loaded, ?_, ?_, ?_⟩
    · rw [lastEnd_snoc]
      exact h.size
    · rw [lastEnd_snoc]
      exact h.end_lt
    · funext q
      rw [lastWritten_snoc, h.bytes]
      rfl
  | write hat hrw hrun hroom =>
    obtain ⟨r, t', hrun', hst⟩ := write_stored h.own h.loaded h.size_lt hat hrw
    rw [hrun] at hrun'
    cases hrun'
    exact h.write hat (hst hroom).1

theorem sparse_run (h : Own L s) (hv : v ∈ s.vnodes) (hempty : EmptyFile s v)
    (hrun : Lts.Run (FileStep v) s calls t) : Sparse L v calls t :=
  hrun.history (Sparse L v) (sparse_empty h hv hempty) fun _ _ _ _ hsparse hs =>
    sparse_step hsparse hs

end file

/-- The file 3 of this volume has no blocks. -/
def blank : Fs where
  nblocks := 8
  disk _ := zeros
  freemap := ⟨8, fun _ => 15#8⟩
  freemapdirty := false
  vnodes := [3]
  sv _ := ⟨setType zeros .file, true, 1⟩

theorem ref_blank {p : Place} : ref blank 3 p = if p = .self then 3 else 0 := by
  cases p with
  | self => rfl
  | indirect =>
    exact sfiIndirect_new
  | data fb =>
    exact blockAt_new

theorem own_blank : Own {3} blank where
  format := by
    refine ⟨?_, by decide, by decide, by decide, by decide⟩
    intro i hi hlt
    exact absurd hlt (Nat.not_lt.mpr hi)
  nodup := by decide
  loaded u hu := ⟨List.mem_singleton.mp hu, Nat.zero_lt_one⟩
  clean u _ hd := by cases hd
  ne_zero h0 := by cases h0
  owns := by
    constructor
    · rintro ⟨u, p⟩ rfl ⟨w, q⟩ rfl h0 heq
      simp only [ref_blank] at h0 heq
      grind
    · rintro ⟨u, p⟩ rfl h0
      simp only [ref_blank] at h0 ⊢
      rw [if_pos (by simpa using h0)]
      exact ⟨by decide, by decide, by decide⟩

theorem empty_blank : EmptyFile blank 3 :=
  ⟨(sfiSize_setType (i := zeros)).trans BigEndian.read_zero, fun _ => ref_blank⟩

section sparse
variable {L : Set Nat} {s t : Fs} {v P : Nat} {calls : List FileCall}

/-- After any reads and writes, the file is the array of what was written last. One more write
fails only when the disk is full or when it goes past the limit, and then it has stored the bytes
below the limit. -/
theorem file_is_sparse_array (h : Own L s) (hv : v ∈ s.vnodes) (hempty : EmptyFile s v)
    (hrun : Lts.Run (FileStep v) s calls t) :
    Holds t v (lastEnd calls) (lastWritten calls) ∧
      ∀ (P : Nat) (x : Xfer), At P x.uio → x.uio.rw = .write →
        ∃ r t', write v x t = .ok (r, t') ∧ (r ≠ .error .enospc →
          Holds t' v (lastEnd (calls ++ [.write x])) (lastWritten (calls ++ [.write x])) ∧
          (P + x.uio.resid ≤ maxBytes → ∃ y, r = .ok y) ∧
          (0 < x.uio.resid → maxBytes < P + x.uio.resid → r = .error .einval)) := by
  have hsparse := sparse_run h hv hempty hrun
  refine ⟨hsparse.holds, fun P x hat hrw => ?_⟩
  obtain ⟨r, t', hwrite, hst⟩ := write_stored hsparse.own hsparse.loaded hsparse.size_lt hat hrw
  refine ⟨r, t', hwrite, fun hroom => ?_⟩
  obtain ⟨hstored, hbelow, hbeyond⟩ := hst hroom
  exact ⟨(hsparse.write hat hstored).holds, hbelow, hbeyond⟩

/-- One byte, in the second block. -/
def oneByte : Xfer := ⟨fun _ => 65#8, mkKuio 1 600 .write⟩

theorem write_oneByte : (write 3 oneByte blank).toOption.map (fun r => r.1.toOption.isSome) =
    some true := by decide +kernel

theorem file_is_sparse_array_oneByte : EmptyFile blank 3 ∧ 3 ∈ blank.vnodes ∧
    ∃ t, Lts.Run (FileStep 3) blank [.write oneByte] t ∧
      Holds t 3 601 (lastWritten [.write oneByte]) := by
  have hv : 3 ∈ blank.vnodes := List.mem_singleton.mpr rfl
  have hat : At 600 oneByte.uio := at_mkKuio (by decide) (by decide)
  have hsize : sfiSize (inodeOf blank 3) < 2 ^ 31 := by decide
  obtain ⟨r, t, hwrite, -⟩ := write_stored own_blank hv hsize hat rfl
  have hroom : r ≠ .error .enospc := by
    rintro rfl
    have hok := write_oneByte
    rw [hwrite] at hok
    cases hok
  have hrun : Lts.Run (FileStep 3) blank [.write oneByte] t :=
    .single (.write hat rfl hwrite hroom)
  exact ⟨empty_blank, hv, t, hrun, (file_is_sparse_array own_blank hv empty_blank hrun).1⟩

end sparse

end OS161.Sfs
