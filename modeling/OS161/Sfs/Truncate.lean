import OS161.Sfs.ReadWrite

/-! `sfs_truncate`. The state to reason about is the one with the buffer written back. -/
namespace OS161.Sfs

open Function (update_self update_of_ne)
open Call (ensures_bind after_ok ensures_ite wp)

variable {L : Set Nat} {s t r : Fs} {v blocklen j k x b fb : Nat} {p : Place} {d : Buf}

/-- The file has given some of its blocks back, and the others are as they were. -/
structure Released (L : Set Nat) (v : Nat) (s t : Fs) : Prop where
  own : Own L t
  frame : Frame L v s t
  size : sfiSize (inodeOf t v) = sfiSize (inodeOf s v)
  refs : ∀ p, ref t v p = ref s v p ∨ ref t v p = 0
  isset : ∀ c, bitmapIsset t.freemap c = true ↔
    bitmapIsset s.freemap c = true ∧ ∀ p, ref s v p = c → c ≠ 0 → ref t v p = c
  disk : ∀ fb, ref t v (.data fb) ≠ 0 → t.disk (ref t v (.data fb)) = s.disk (ref t v (.data fb))

theorem Released.refl (h : Own L s) : Released L v s s :=
  ⟨h, .refl, rfl, fun _ => .inl rfl, fun _ => ⟨fun hc => ⟨hc, fun _ hp _ => hp⟩, And.left⟩,
    fun _ _ => rfl⟩

theorem Released.trans (h : Released L v s t) (h' : Released L v t r) : Released L v s r where
  own := h'.own
  frame := h.frame.trans h'.frame
  size := h'.size.trans h.size
  refs p := by
    rcases h'.refs p with hp | hp
    · rw [hp]
      exact h.refs p
    · exact .inr hp
  isset c := by
    rw [h'.isset, h.isset]
    constructor
    · rintro ⟨⟨hc, hst⟩, htr⟩
      exact ⟨hc, fun p hp h0 => htr p (hst p hp h0) h0⟩
    rintro ⟨hc, hsr⟩
    refine ⟨⟨hc, fun p hp h0 => ?_⟩, fun p hp h0 => ?_⟩
    · -- a place that is empty halfway is empty at the end
      rcases h.refs p with hpt | hpt
      · rw [hpt, hp]
      have hpr := hsr p hp h0
      rcases h'.refs p with hpr' | hpr'
      · rw [hpr', hpt] at hpr
        exact absurd hpr.symm h0
      · rw [hpr'] at hpr
        exact absurd hpr.symm h0
    · refine hsr p ?_ h0
      rcases h.refs p with hpt | hpt
      · rw [← hpt, hp]
      · rw [hpt] at hp
        exact absurd hp.symm h0
  disk fb h0 := by
    have heq := (h'.refs (.data fb)).resolve_right h0
    rw [h'.disk fb h0]
    rw [heq] at h0 ⊢
    exact h.disk fb h0

/-- One place lets go of its block. -/
theorem Repointed.released (ht : Repointed v p 0 s t) (h : Own L s) (hv : v ∈ L)
    (h0 : ref s v p ≠ 0) (hmap : t.freemap = s.freemap.unmark (ref s v p)) : Released L v s t where
  own := h.release hv ht.toTouch ht.clean h0 hmap ht.here fun q hq => .inl (ht.rest q hq)
  frame := ht.toTouch.frame h hv ht.type ht.linkcount
  size := ht.size
  refs q := by
    by_cases hq : q = p
    · rw [hq]
      exact .inr ht.here
    · exact .inl (ht.rest q hq)
  isset c := by
    have hset : bitmapIsset t.freemap c = (decide (c ≠ ref s v p) && bitmapIsset s.freemap c) := by
      rw [hmap]
      exact isset_unmark
    rw [hset, Bool.and_eq_true, decide_eq_true_iff]
    constructor
    · rintro ⟨hne, hc⟩
      refine ⟨hc, fun q hq _ => ?_⟩
      have hqp : q ≠ p := by
        rintro rfl
        exact hne hq.symm
      rw [ht.rest q hqp, hq]
    · rintro ⟨hc, hall⟩
      refine ⟨fun heq => ?_, hc⟩
      have hpc := hall p heq.symm (heq ▸ h0)
      rw [ht.here, heq] at hpc
      exact h0 hpc.symm
  disk fb hne := by
    have hq : .data fb ≠ p := by
      rintro rfl
      exact hne ht.here
    rw [ht.rest _ hq] at hne ⊢
    exact ht.data fb hne

theorem Repointed.data_eq (ht : Repointed v (.data k) b s t) (fb : Nat) :
    ref t v (.data fb) = if fb = k then b else ref s v (.data fb) := by
  split
  · rename_i heq
    rw [heq, ht.here]
  · rename_i hne
    exact ht.rest _ fun heq => hne (Place.data.inj heq)

theorem ref_data_direct (hv : v ∈ s.vnodes) (hfb : fb < ndirect) :
    ref s v (.data fb) = sfiDirect (s.sv v).inode fb := by
  rw [ref, inodeOf_loaded hv, blockAt_direct hfb]

theorem Own.released_direct (h : Own L s) (hv : v ∈ s.vnodes) (hk : k < ndirect)
    (h0 : ref s v (.data k) ≠ 0)
    (ht : t = (s.freeBlock (ref s v (.data k))).setInode v (setDirect (s.sv v).inode k 0)) :
    Released L v s t ∧ (∀ fb, ref t v (.data fb) = if fb = k then 0 else ref s v (.data fb)) ∧
      ref t v .indirect = ref s v .indirect := by
  have hrep : Repointed v (.data k) 0 s t :=
    ht ▸ repointed_direct hv h (fun _ _ => rfl) hk (by decide)
  refine ⟨hrep.released h (h.loaded v hv).1 h0 (by rw [ht]; rfl), hrep.data_eq, ?_⟩
  exact hrep.rest _ (by simp)

theorem truncateDirect_spec (h : Own L s) (hv : v ∈ s.vnodes) (hk : k ≤ ndirect) :
    wp (truncateDirect v blocklen k) (fun u t => u = .ok () ∧ Released L v s t ∧
      (∀ fb, ref t v (.data fb) = if blocklen ≤ fb ∧ fb < k then 0 else ref s v (.data fb)) ∧
      ref t v .indirect = ref s v .indirect) s := by
  induction k with
  | zero =>
    refine ⟨rfl, .refl h, fun fb => ?_, rfl⟩
    rw [if_neg fun hfb => Nat.not_lt_zero fb hfb.2]
  | succ k ih =>
    rw [truncateDirect, wp, ensures_bind]
    refine (ih (by omega)).mono ?_
    rintro _ t ⟨rfl, hrel, hdata, hind⟩
    have hvt : v ∈ t.vnodes := by rw [hrel.frame.vnodes]; exact hv
    have hblock : sfiDirect (t.sv v).inode k = ref t v (.data k) :=
      (ref_data_direct hvt (by omega)).symm
    simp only [after_ok, ensures_bind, Call.ensures_get, hblock, ensures_ite]
    refine ⟨?_, ?_⟩
    · rintro ⟨hlen, h0⟩
      obtain ⟨hrel', hdata', hind'⟩ := hrel.own.released_direct hvt (by omega) h0 rfl
      rw [ensures_bfree hrel.own.format (hrel.own.inUse (hrel.own.loaded v hvt).1 h0)]
      refine ⟨rfl, hrel.trans hrel', fun fb => ?_, hind'.trans hind⟩
      refine (hdata' fb).trans ?_
      rw [hdata]
      by_cases hfb : fb = k
      · rw [if_pos hfb, if_pos (by omega)]
      · rw [if_neg hfb]
        exact if_congr (by omega) rfl rfl
    · intro hstay
      refine ⟨rfl, hrel, fun fb => ?_, hind⟩
      by_cases hfb : fb = k
      · rw [hfb, hdata, if_neg (by omega)]
        by_cases hlen : blocklen ≤ k
        · rw [if_pos ⟨hlen, Nat.lt_succ_self k⟩]
          have hz : ref t v (.data k) = 0 := by
            by_contra hne
            exact hstay ⟨hlen, hne⟩
          rw [hdata, if_neg (by omega)] at hz
          exact hz
        · rw [if_neg fun hin => hlen hin.1]
      · rw [hdata]
        exact if_congr (by omega) rfl rfl

theorem Own.released_entry (h : Own L s) (hv : v ∈ s.vnodes) (hx : ref s v .indirect = x)
    (hx0 : x ≠ 0) (hk : k < dbperidb) (h0 : ref s v (.data (ndirect + k)) ≠ 0)
    (ht : t = (s.freeBlock (ref s v (.data (ndirect + k)))).putBlock x
      (setIdEntry (s.disk x) k 0)) :
    Released L v s t ∧
      (∀ fb, ref t v (.data fb) = if fb = ndirect + k then 0 else ref s v (.data fb)) ∧
      ref t v .indirect = x := by
  have hrep : Repointed v (.data (ndirect + k)) 0 s t :=
    ht ▸ repointed_entry hv h (fun _ _ => rfl) hx hx0 hk (by decide)
  refine ⟨hrep.released h (h.loaded v hv).1 h0 (by rw [ht]; rfl), hrep.data_eq, ?_⟩
  rw [hrep.rest _ (by simp), hx]

/-- The loop over the indirect block `x` after `j` turns. The buffer is ahead of the disk. -/
structure Entries (L : Set Nat) (v blocklen x j : Nat) (s t : Fs) (a : IdScan) : Prop where
  same : t = { s with freemap := t.freemap, freemapdirty := t.freemapdirty }
  rel : Released L v s (t.putBlock x a.idbuf)
  data : ∀ fb, ref (t.putBlock x a.idbuf) v (.data fb) =
    if blocklen < fb ∧ ndirect ≤ fb ∧ fb < ndirect + j then 0 else ref s v (.data fb)
  indirect : ref (t.putBlock x a.idbuf) v .indirect = x
  nonzero : a.hasnonzero = true ↔ ∃ i < j, idEntry a.idbuf i ≠ 0
  clean : a.iddirty = false → a.idbuf = s.disk x

variable {a : IdScan}

theorem Entries.entry (h : Entries L v blocklen x j s t a) (hx0 : x ≠ 0) (hk : k < dbperidb) :
    idEntry a.idbuf k = ref (t.putBlock x a.idbuf) v (.data (ndirect + k)) := by
  have hind := h.indirect
  have hdisk : (t.putBlock x a.idbuf).disk x = a.idbuf := update_self ..
  rw [ref] at hind
  rw [ref, blockAt_indirect (by omega), hind, if_pos ⟨Nat.add_lt_add_left hk _, hx0⟩,
    Nat.add_sub_cancel_left, hdisk]

theorem putBlock_self : s.putBlock x (s.disk x) = s := by
  rw [Fs.putBlock, Function.update_eq_self]

theorem entries_zero (h : Own L s) (hx : ref s v .indirect = x) :
    Entries L v blocklen x 0 s s ⟨s.disk x, false, false⟩ := by
  refine ⟨rfl, ?_, ?_, ?_, ?_, fun _ => rfl⟩
  · rw [putBlock_self]
    exact .refl h
  · intro fb
    rw [putBlock_self, if_neg (by omega)]
  · rw [putBlock_self, hx]
  · simp

theorem format_of_putBlock (h : Format (s.putBlock x d)) : Format s :=
  ⟨h.padded, h.nblocks_le, h.small, h.data, h.free⟩

theorem truncateEntries_spec (h : Own L s) (hv : v ∈ s.vnodes) (hx : ref s v .indirect = x)
    (hx0 : x ≠ 0) (hj : j ≤ dbperidb) :
    wp (truncateEntries blocklen (s.disk x) j)
      (fun u t => ∃ a, u = .ok a ∧ Entries L v blocklen x j s t a) s := by
  induction j with
  | zero => exact ⟨_, rfl, entries_zero h hx⟩
  | succ j ih =>
    rw [truncateEntries, wp, ensures_bind]
    refine (ih (by omega)).mono ?_
    rintro _ t ⟨a, rfl, hent⟩
    have hvt : v ∈ (t.putBlock x a.idbuf).vnodes := by
      rw [hent.rel.frame.vnodes]
      exact hv
    have hblock := hent.entry hx0 (k := j) (by omega)
    have hown := hent.rel.own
    rw [after_ok, hblock, ensures_ite]
    refine ⟨?_, ?_⟩
    · rintro ⟨hlen, h0⟩
      have huse := hown.inUse (hown.loaded v hvt).1 h0
      rw [ensures_bind, ensures_bfree (format_of_putBlock hown.format) huse]
      have hvirtual : (t.freeBlock (ref (t.putBlock x a.idbuf) v (.data (ndirect + j)))).putBlock x
          (setIdEntry a.idbuf j 0) =
          ((t.putBlock x a.idbuf).freeBlock
            (ref (t.putBlock x a.idbuf) v (.data (ndirect + j)))).putBlock x
            (setIdEntry ((t.putBlock x a.idbuf).disk x) j 0) := by
        simp only [Fs.putBlock, Fs.freeBlock, Function.update_idem, update_self]
      obtain ⟨hrel, hdata, hind⟩ := hown.released_entry hvt hent.indirect hx0 (by omega) h0 hvirtual
      refine ⟨_, rfl, ?_, hent.rel.trans hrel, fun fb => ?_, hind, ?_,
        fun hd => Bool.noConfusion hd⟩
      · rw [hent.same]
        rfl
      · rw [hdata, hent.data]
        by_cases hfb : fb = ndirect + j
        · rw [if_pos hfb, if_pos (by omega)]
        · rw [if_neg hfb]
          exact if_congr (by omega) rfl rfl
      · rw [hent.nonzero]
        constructor
        · rintro ⟨i, hi, hne⟩
          refine ⟨i, by omega, ?_⟩
          rwa [idEntry_setIdEntry_ne (by omega)]
        rintro ⟨i, hi, hne⟩
        by_cases hij : i = j
        · rw [hij, idEntry_setIdEntry (by decide)] at hne
          exact absurd rfl hne
        · rw [idEntry_setIdEntry_ne hij] at hne
          exact ⟨i, by omega, hne⟩
    · intro hstay
      refine ⟨_, rfl, hent.same, hent.rel, fun fb => ?_, hent.indirect, ?_, hent.clean⟩
      · have hold := hent.data fb
        refine hold.trans ?_
        by_cases hfb : fb = ndirect + j
        · rw [if_neg (by omega)]
          split
          · rename_i hin
            have hz : ref (t.putBlock x a.idbuf) v (.data (ndirect + j)) = 0 := by
              by_contra hne
              exact hstay ⟨hfb ▸ hin.1, hne⟩
            rwa [← hfb, hold, if_neg (by omega)] at hz
          · rfl
        · exact if_congr (by omega) rfl rfl
      · rw [← hblock, Bool.or_eq_true, hent.nonzero, bne_iff_ne]
        constructor
        · rintro (⟨i, hi, hne⟩ | hne)
          · exact ⟨i, by omega, hne⟩
          · exact ⟨j, by omega, hne⟩
        · rintro ⟨i, hi, hne⟩
          by_cases hij : i = j
          · exact .inr (hij ▸ hne)
          · exact .inl ⟨i, by omega, hne⟩

theorem ref_data_ge (hfb : maxBlocks ≤ fb) : ref s v (.data fb) = 0 := by
  have hnd : ¬ fb < ndirect := by
    unfold maxBlocks at hfb
    omega
  rw [ref, blockAt_indirect hnd, if_neg fun hin => absurd hin.1 (Nat.not_lt.mpr hfb)]

/-- The indirect block is given back when nothing is left in it. -/
theorem Own.released_indirect (h : Own L (t.putBlock x d)) (hv : v ∈ t.vnodes)
    (hx : ref (t.putBlock x d) v .indirect = x) (hx0 : x ≠ 0)
    (hzero : ∀ fb, ndirect ≤ fb → ref (t.putBlock x d) v (.data fb) = 0)
    (hr : r = (t.freeBlock x).setInode v (setIndirect (t.sv v).inode 0)) :
    Released L v (t.putBlock x d) r ∧
      (∀ fb, ref r v (.data fb) = ref (t.putBlock x d) v (.data fb)) ∧ ref r v .indirect = 0 := by
  have hvL := (h.loaded v hv).1
  have hdisk : ∀ c ≠ x, t.disk c = (t.putBlock x d).disk c :=
    fun c hc => (update_of_ne hc _ _).symm
  have hrep : Repointed v .indirect 0 (t.putBlock x d) r := by
    rw [hr]
    refine repointed_indirect (s := t.putBlock x d) hv ?_ ?_ (by decide) hzero
      fun h0 => absurd rfl h0
    · refine fun c hc => hdisk c ?_
      rintro rfl
      exact hc (.inr ⟨.indirect, hx, hx0⟩)
    · intro fb h0
      have hne := h.indirect_ne hvL hvL (p := .data fb) (by simp) h0
      exact hdisk _ fun heq => hne (hx.trans heq.symm)
  refine ⟨hrep.released h hvL (by rwa [hx]) ?_, fun fb => hrep.rest _ (by simp), hrep.here⟩
  rw [hr, hx]
  rfl

/-- What is left of the file's blocks in the indirect block, and whether it is kept. -/
structure Trimmed (L : Set Nat) (v blocklen : Nat) (s t : Fs) : Prop where
  rel : Released L v s t
  data : ∀ fb, ref t v (.data fb) =
    if blocklen < fb ∧ ndirect ≤ fb then 0 else ref s v (.data fb)
  dropped : blocklen < maxBlocks - 1 → (∀ fb, ndirect ≤ fb → ref t v (.data fb) = 0) →
    ref t v .indirect = 0
  kept : (maxBlocks - 1 ≤ blocklen ∨ ∃ fb, ndirect ≤ fb ∧ ref t v (.data fb) ≠ 0) →
    ref t v .indirect = ref s v .indirect

theorem trimmed_refl (h : Own L s)
    (hno : maxBlocks - 1 ≤ blocklen ∨ ref s v .indirect = 0) : Trimmed L v blocklen s s := by
  refine ⟨.refl h, fun fb => ?_, fun hlen _ => hno.resolve_left (Nat.not_le.mpr hlen), fun _ => rfl⟩
  split
  · rename_i hcut
    rcases hno with hlen | h0
    · exact ref_data_ge (by omega)
    · exact ref_data_noIndirect h0 hcut.2
  · rfl

section entries
variable {a : IdScan} (h : Entries L v blocklen x dbperidb s t a)
include h

theorem Entries.data_eq (fb : Nat) : ref (t.putBlock x a.idbuf) v (.data fb) =
    if blocklen < fb ∧ ndirect ≤ fb then 0 else ref s v (.data fb) := by
  rw [h.data]
  by_cases hfb : fb < maxBlocks
  · rw [maxBlocks] at hfb
    exact if_congr (by omega) rfl rfl
  · rw [ref_data_ge (Nat.not_lt.mp hfb), ite_self, ite_self]

theorem Entries.data_zero (hx0 : x ≠ 0) (hempty : a.hasnonzero = false) (fb : Nat)
    (hfb : ndirect ≤ fb) : ref (t.putBlock x a.idbuf) v (.data fb) = 0 := by
  by_cases hmax : fb < maxBlocks
  · rw [maxBlocks] at hmax
    have hk : fb - ndirect < dbperidb := by omega
    have hentry := h.entry hx0 hk
    rw [Nat.add_sub_cancel' hfb] at hentry
    rw [← hentry]
    by_contra hne
    have hnonzero := h.nonzero.mpr ⟨_, hk, hne⟩
    rw [hempty] at hnonzero
    cases hnonzero
  · exact ref_data_ge (Nat.not_lt.mp hmax)

end entries

theorem Entries.trimmed
    (h : Entries L v blocklen (ref s v .indirect) dbperidb s t a) (hx0 : ref s v .indirect ≠ 0)
    (hnonzero : a.hasnonzero = true) :
    Trimmed L v blocklen s (t.putBlock (ref s v .indirect) a.idbuf) := by
  refine ⟨h.rel, h.data_eq, fun _ hzero => ?_, fun _ => h.indirect⟩
  obtain ⟨k, hk, hne⟩ := h.nonzero.mp hnonzero
  rw [h.entry hx0 hk] at hne
  exact absurd (hzero _ (Nat.le_add_right ..)) hne

theorem truncateIndirect_end (hv : v ∈ s.vnodes) (hx0 : ref s v .indirect ≠ 0)
    (hlen : blocklen < maxBlocks - 1)
    (hent : Entries L v blocklen (ref s v .indirect) dbperidb s t a) :
    wp (if !a.hasnonzero then do
        bfree (ref s v .indirect)
        Call.modify fun s => s.setInode v (setIndirect (s.sv v).inode 0)
      else if a.iddirty then wblock a.idbuf (ref s v .indirect) else pure ())
      (fun u r => u = .ok () ∧ Trimmed L v blocklen s r) t := by
  have hown := hent.rel.own
  have hvt : v ∈ (t.putBlock (ref s v .indirect) a.idbuf).vnodes := by
    rw [hent.rel.frame.vnodes]
    exact hv
  have huse := hown.inUse (hown.loaded v hvt).1 (p := .indirect) (by rw [hent.indirect]; exact hx0)
  rw [hent.indirect] at huse
  simp only [wp, ensures_ite]
  refine ⟨fun hempty => ?_, fun hne => ⟨fun _ => ?_, fun hclean => ?_⟩⟩
  · have hzero := hent.data_zero hx0 (by simpa using hempty)
    obtain ⟨hrel, hdata, hind⟩ := hown.released_indirect hvt hent.indirect hx0 hzero rfl
    simp only [ensures_bind]
    rw [ensures_bfree (format_of_putBlock hown.format) huse, after_ok, Call.ensures_modify]
    refine ⟨rfl, hent.rel.trans hrel, fun fb => ?_, fun _ _ => hind, ?_⟩
    · exact (hdata fb).trans (hent.data_eq fb)
    rintro (hle | ⟨fb, hfb, hne⟩)
    · exact absurd hlen (Nat.not_lt.mpr hle)
    · exact absurd ((hdata fb).trans (hzero fb hfb)) hne
  · rw [ensures_wblock (by exact huse.2.1)]
    exact ⟨rfl, hent.trimmed hx0 (by simpa using hne)⟩
  have hsame : t.putBlock (ref s v .indirect) a.idbuf = t := by
    have hdisk : t.disk = s.disk := by rw [hent.same]
    rw [hent.clean (Bool.not_eq_true _ ▸ hclean), ← hdisk, putBlock_self]
  have htrim := hent.trimmed hx0 (by simpa using hne)
  rw [hsame] at htrim
  exact ⟨rfl, htrim⟩

theorem truncateIndirect_spec (h : Own L s) (hv : v ∈ s.vnodes) :
    wp (truncateIndirect v blocklen) (fun u t => u = .ok () ∧ Trimmed L v blocklen s t) s := by
  have hvL := (h.loaded v hv).1
  have hind : sfiIndirect (s.sv v).inode = ref s v .indirect := by rw [ref, inodeOf_loaded hv]
  -- The number of turns has a name, so that nothing evaluates the loop.
  obtain ⟨n, hn⟩ : ∃ n, n = dbperidb := ⟨_, rfl⟩
  simp only [truncateIndirect, wp, ensures_bind, Call.ensures_get, after_ok, hind, ← hn]
  rw [ensures_ite]
  refine ⟨?_, fun hno => ⟨rfl, trimmed_refl h ?_⟩⟩
  · rintro ⟨hlen, hx0⟩
    rw [ensures_bind, ensures_rblock (h.inUse hvL hx0).2.1, after_ok, ensures_bind]
    refine (truncateEntries_spec h hv rfl hx0 hn.le).mono ?_
    rintro _ t ⟨a, rfl, hent⟩
    rw [hn] at hent
    refine truncateIndirect_end hv hx0 ?_ hent
    rw [maxBlocks, ← hn]
    omega
  · rw [maxBlocks, ← hn]
    omega

/-- The length in blocks, as `sfs_truncate` computes it. -/
def blocklenOf (len : Int) : Nat := toU32 ((offT (len + blockSize - 1)).tdiv blockSize)

/-- The blocks `sfs_truncate` gives back. In the indirect block it leaves the first one that is past
the end. -/
def Cut (blocklen fb : Nat) : Prop :=
  blocklen ≤ fb ∧ fb < ndirect ∨ blocklen < fb ∧ ndirect ≤ fb

instance : Decidable (Cut blocklen fb) := inferInstanceAs (Decidable (_ ∨ _))

theorem cut_direct (hfb : fb < ndirect) : Cut blocklen fb ↔ blocklen ≤ fb := by
  unfold Cut
  omega

theorem cut_indirect (hfb : ¬ fb < ndirect) : Cut blocklen fb ↔ blocklen < fb := by
  unfold Cut
  omega

/-- What `sfs_truncate` makes of the file. -/
structure Truncated (L : Set Nat) (v blocklen size : Nat) (s t : Fs) : Prop where
  own : Own L t
  frame : Frame L v s t
  size : sfiSize (inodeOf t v) = size
  data : ∀ fb, ref t v (.data fb) = if Cut blocklen fb then 0 else ref s v (.data fb)
  dropped : blocklen < maxBlocks - 1 → (∀ fb, ndirect ≤ fb → ref t v (.data fb) = 0) →
    ref t v .indirect = 0
  kept : (maxBlocks - 1 ≤ blocklen ∨ ∃ fb, ndirect ≤ fb ∧ ref t v (.data fb) ≠ 0) →
    ref t v .indirect = ref s v .indirect
  isset : ∀ c, bitmapIsset t.freemap c = true ↔
    bitmapIsset s.freemap c = true ∧ ∀ p, ref s v p = c → c ≠ 0 → ref t v p = c
  disk : ∀ fb, ref t v (.data fb) ≠ 0 → t.disk (ref t v (.data fb)) = s.disk (ref t v (.data fb))

theorem truncate_spec (h : Own L s) (hv : v ∈ s.vnodes) (len : Int) :
    wp (truncate v len)
      (fun u t => u = .ok () ∧ Truncated L v (blocklenOf len) (toU32 len) s t) s := by
  have hlt : toU32 len < 2 ^ 32 := by
    rw [toU32]
    omega
  rw [truncate, wp, ensures_bind]
  refine (truncateDirect_spec h hv (Nat.le_refl _)).mono ?_
  rintro _ t₁ ⟨rfl, hrel₁, hdata₁, hind₁⟩
  have hv₁ : v ∈ t₁.vnodes := by rw [hrel₁.frame.vnodes]; exact hv
  rw [after_ok, ensures_bind]
  refine (truncateIndirect_spec hrel₁.own hv₁).mono ?_
  rintro _ t₂ ⟨rfl, htrim⟩
  have hrel := hrel₁.trans htrim.rel
  have hv₂ : v ∈ t₂.vnodes := by rw [hrel.frame.vnodes]; exact hv
  have hi := inodeOf_loaded hv₂
  have hi' : inodeOf (t₂.setInode v (setSize (t₂.sv v).inode (toU32 len))) v =
    setSize (t₂.sv v).inode (toU32 len) := inodeOf_setInode hv₂
  have hedit := hrel.own.setInode hv₂ (sameBlocks_setSize (n := toU32 len))
  have href := hedit.ref
  refine ⟨rfl, hedit.own, hrel.frame.trans ?_, ?_, fun fb => ?_, fun hlen hzero => ?_,
    fun hkeep => ?_, ?_, ?_⟩
  · refine hedit.touch.frame hrel.own (hrel.own.loaded v hv₂).1 ?_ ?_
    · rw [hi', hi, sfiType_setSize]
    · rw [hi', hi, sfiLinkcount_setSize]
  · rw [hi', sfiSize_setSize hlt]
  · rw [href, htrim.data, hdata₁]
    by_cases hfb : fb < ndirect
    · rw [if_neg fun hin => absurd hfb (Nat.not_lt.mpr hin.2)]
      exact if_congr ((and_iff_left hfb).trans (cut_direct hfb).symm) rfl rfl
    · exact if_congr ((and_iff_left (Nat.not_lt.mp hfb)).trans (cut_indirect hfb).symm) rfl
        (if_neg fun hin => hfb hin.2)
  · rw [href]
    refine htrim.dropped hlen fun fb hfb => ?_
    rw [← href]
    exact hzero fb hfb
  · rw [href, htrim.kept ?_, hind₁]
    refine hkeep.imp_right ?_
    rintro ⟨fb, hfb, hne⟩
    rw [href] at hne
    exact ⟨fb, hfb, hne⟩
  · simp only [href]
    exact hrel.isset
  · simp only [href]
    exact hrel.disk

/-- The bytes that are left. -/
theorem Truncated.fileByte_eq {size : Nat} (h : Truncated L v blocklen size s t) (pos : Nat) :
    fileByte t v pos = if Cut blocklen (pos / blockSize) then 0#8 else fileByte s v pos := by
  have hdata := h.data (pos / blockSize)
  rw [fileByte_eq_block, fileByte_eq_block, fileBlock, fileBlock]
  by_cases hcut : Cut blocklen (pos / blockSize)
  · rw [if_pos hcut] at hdata
    rw [if_pos hdata, if_pos hcut]
    rfl
  rw [if_neg hcut] at hdata
  rw [if_neg hcut, ← hdata]
  split
  · rfl
  · rename_i hne
    rw [h.disk _ hne]

end OS161.Sfs
