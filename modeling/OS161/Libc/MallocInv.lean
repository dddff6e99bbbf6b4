import Mathlib.Data.List.Chain
import OS161.Lib.Tiling
import OS161.Lib.Run
import OS161.Libc.Malloc

/-! The heap of `malloc.c` as a tiling, and what each function does to its blocks. -/
namespace OS161.Malloc

open Tiling
open Call (ensures_bind after_ok ensures_get ensures_require ensures_pure ensures_ite
  ensures_modify wp Ensures)

/-- A block: its length in units of the header, and what was asked for if it is in use. -/
structure Block where
  units : Nat
  req : Option Nat

def Block.len (b : Block) : Nat := b.units * mblocksize

/-- The header of block `b` at `a`, over a block of length `prev`. -/
structure Header (m : Mem) (a prev : Nat) (b : Block) : Prop where
  magic1 : magic (m a) = mmagic
  magic2 : magic (m (a + 4)) = mmagic
  prevblock : prevblock m a * mblocksize = prev
  nextblock : nextblock m a = b.units
  inuse : inuse m a = b.req.isSome
  pos : 0 < b.units
  room : ∀ n, b.req = some n → n + mblocksize ≤ b.len

open Block (len)

abbrev Tiled (m : Mem) (a prev : Nat) (bs : List Block) : Prop :=
  Tiles len (Header m) a prev bs

section headers
variable {m m' : Mem} {a prev n : Nat} {b : Block} {bs : List Block}

section
variable (h : Header m a prev b)
include h

theorem Header.congr (h₁ : m' a = m a) (h₂ : m' (a + 4) = m (a + 4)) : Header m' a prev b := by
  obtain ⟨hm1, hm2, hp, hn, hu, hpos, hroom⟩ := h
  unfold OS161.Malloc.prevblock at hp
  unfold OS161.Malloc.nextblock at hn
  unfold OS161.Malloc.inuse at hu
  rw [← h₁] at hm1 hp
  rw [← h₂] at hm2 hn hu
  exact ⟨hm1, hm2, hp, hn, hu, hpos, hroom⟩

theorem Header.len_pos : mblocksize ≤ b.len := by
  have := h.pos
  simp only [len, mblocksize]
  omega

theorem Header.units_lt : b.units < 2 ^ 29 := by
  rw [← h.nextblock]
  exact block_lt _

theorem Header.nextoff : nextoff m a = b.len := by
  rw [OS161.Malloc.nextoff, h.nextblock, len]

theorem Header.mSize : mSize m a + mblocksize = b.len := by
  have h₁ := h.pos
  have h₂ := h.units_lt
  rw [OS161.Malloc.mSize, h.nextoff]
  simp only [sub32, len, mblocksize]
  omega

theorem Header.mNext (hlt : a + b.len < 2 ^ 32) : mNext m a = a + b.len := by
  rw [OS161.Malloc.mNext, h.nextoff, add32, Nat.mod_eq_of_lt hlt]

theorem Header.mOk : mOk m a = true := by
  simp [OS161.Malloc.mOk, h.magic1, h.magic2]

end

theorem tiled_congr (h : Tiled m a prev bs)
    (hm : ∀ x ∈ placed len a bs, m' x.1 = m x.1 ∧ m' (x.1 + 4) = m (x.1 + 4)) :
    Tiled m' a prev bs :=
  h.mono fun x hx _ hH => hH.congr (hm x hx).1 (hm x hx).2

theorem tiled_outside (h : Tiled m a prev bs)
    (hm : ∀ w, a ≤ w → w < a + span len bs → m' w = m w) : Tiled m' a prev bs := by
  refine tiled_congr h fun x hx => ?_
  obtain ⟨p, hH⟩ := h.placed hx
  have hb := placed_bounds hx
  have hl := hH.len_pos
  simp only [mblocksize] at hl
  exact ⟨hm _ (by omega) (by omega), hm _ (by omega) (by omega)⟩

theorem tiled_data (h : Tiled m a prev bs)
    (hm : ∀ w, (∀ x ∈ placed len a bs, w < x.1 + mblocksize ∨ x.1 + x.2.len ≤ w) →
      m' w = m w) : Tiled m' a prev bs := by
  have hword : ∀ x ∈ placed len a bs, ∀ k, k < mblocksize → m' (x.1 + k) = m (x.1 + k) := by
    intro x hx k hk
    refine hm _ fun y hy => ?_
    rcases placed_apart hx hy with rfl | hxy | hyx
    · omega
    · omega
    · omega
  exact tiled_congr h fun x hx => ⟨hword x hx 0 (by decide), hword x hx 4 (by decide)⟩

theorem tiled_relink (h : Tiled m a prev (b :: bs)) (hn : n < 2 ^ 29)
    (ha : m' a = setBlock (m a) n) (hm : ∀ w, a < w → m' w = m w) :
    Tiled m' a (n * mblocksize) (b :: bs) := by
  have hH := h.1
  refine ⟨⟨?_, ?_, ?_, ?_, ?_, hH.pos, hH.room⟩, tiled_outside h.2 fun w hw _ => hm w ?_⟩
  · rw [ha, magic_setBlock]
    exact hH.magic1
  · rw [hm _ (by omega)]
    exact hH.magic2
  · rw [OS161.Malloc.prevblock, ha, block_setBlock, Nat.mod_eq_of_lt hn]
  · rw [OS161.Malloc.nextblock, hm _ (by omega)]
    exact hH.nextblock
  · rw [OS161.Malloc.inuse, hm _ (by omega)]
    exact hH.inuse
  · have := hH.len_pos
    simp only [mblocksize] at this
    omega

variable {n p w : Nat}

theorem newHeader_header (hp : p < 2 ^ 29) (hn : n < 2 ^ 29) (hpos : 0 < n) :
    Header (newHeader a p n m) a (p * mblocksize) ⟨n, none⟩ := by
  constructor <;> simp [newHeader, setPrevblock, setPad, setMagic1, setNextblock, setInuse,
    setMagic2, OS161.Malloc.prevblock, OS161.Malloc.nextblock, OS161.Malloc.inuse, mmagic,
    hpos] <;> omega

theorem newHeader_of_ne (h₁ : w ≠ a) (h₂ : w ≠ a + 4) : newHeader a p n m w = m w := by
  simp [newHeader, setPrevblock, setPad, setMagic1, setNextblock, setInuse, setMagic2, h₁, h₂]

theorem topHeader_header {k : Nat} (hp : p < 2 ^ 29) (hn : n < 2 ^ 29) (hpos : 0 < n)
    (hk : k + mblocksize ≤ n * mblocksize) :
    Header (topHeader a p n m) a (p * mblocksize) ⟨n, some k⟩ := by
  constructor <;> simp [topHeader, setPrevblock, setPad, setMagic1, setNextblock, setInuse,
    setMagic2, OS161.Malloc.prevblock, OS161.Malloc.nextblock, OS161.Malloc.inuse, mmagic,
    hpos, len, hk] <;> omega

theorem topHeader_of_ne (h₁ : w ≠ a) (h₂ : w ≠ a + 4) : topHeader a p n m w = m w := by
  simp [topHeader, setPrevblock, setPad, setMagic1, setNextblock, setInuse, setMagic2, h₁, h₂]

theorem Header.setNextblock (h : Header m a prev b) (hn : n < 2 ^ 29) (hpos : 0 < n)
    (hroom : ∀ k, b.req = some k → k + mblocksize ≤ n * mblocksize) :
    Header (setNextblock m a n) a prev ⟨n, b.req⟩ := by
  obtain ⟨hm1, hm2, hp, -, hu, -, -⟩ := h
  constructor <;> simp_all [OS161.Malloc.setNextblock, OS161.Malloc.prevblock,
    OS161.Malloc.nextblock, OS161.Malloc.inuse, len]

theorem Header.setInuse (h : Header m a prev b) {f : Bool} {req : Option Nat}
    (hf : req.isSome = f) (hroom : ∀ k, req = some k → k + mblocksize ≤ b.len) :
    Header (setInuse m a f) a prev ⟨b.units, req⟩ := by
  obtain ⟨hm1, hm2, hp, hn, -, hpos, -⟩ := h
  constructor <;> simp_all [OS161.Malloc.setInuse, OS161.Malloc.prevblock,
    OS161.Malloc.nextblock, OS161.Malloc.inuse, len]

end headers

section functions
variable {h g : Heap} {m : Mem} {a prev n mh size rp fuel i : Nat} {b : Block}
  {bs pre post : List Block}

/-- Memory is all that changed, and the blocks are now `bs`. -/
def Reblocked (h : Heap) (bs : List Block) (g : Heap) : Prop :=
  ∃ m, g = { h with mem := m } ∧ Tiled m h.heapbase 0 bs

theorem relink_spec (ht : Tiled h.mem mh prev bs) (htop : mh + span len bs = h.heaptop)
    (hn : n < 2 ^ 29) :
    wp (relink mh n) (fun r g => r = .ok () ∧ ∃ m, g = { h with mem := m } ∧
      Tiled m mh (n * mblocksize) bs ∧ ∀ w, w ≠ mh → m w = h.mem w) h := by
  simp only [relink, store, ensures_bind, ensures_get, after_ok, ensures_ite,
    ensures_modify, ensures_pure]
  refine ⟨fun hne => ⟨trivial, _, rfl, ?_, fun w hw => Function.update_of_ne hw ..⟩, fun heq => ?_⟩
  · cases bs with
    | nil => exact (hne htop).elim
    | cons b bs =>
      exact tiled_relink ht hn (Function.update_self ..) fun w hw =>
        Function.update_of_ne (by omega) ..
  · refine ⟨trivial, h.mem, rfl, ?_, fun _ _ => rfl⟩
    cases bs with
    | nil => trivial
    | cons b bs =>
      have := ht.1.len_pos
      simp only [span_cons, mblocksize] at htop this
      omega

/-- The loop finds a free block that is large enough, or ends at the top. -/
theorem search_spec (ht : Tiled h.mem i (rp * mblocksize) bs)
    (htop : i + span len bs = h.heaptop) (hlt : h.heaptop < 2 ^ 32) (hfuel : span len bs < fuel) :
    wp (search size fuel i rp) (fun r g => g = h ∧
      ((∃ pre b post rp', bs = pre ++ b :: post ∧ b.req = none ∧ size + mblocksize ≤ b.len ∧
        r = .ok (some (i + span len pre), rp')) ∨
      ∃ rp', r = .ok (none, rp') ∧ rp' * mblocksize = last len (rp * mblocksize) bs ∧
        ∀ b ∈ bs, b.req = none → b.len < size + mblocksize)) h := by
  induction bs generalizing fuel i rp with
  | nil =>
    obtain ⟨fuel, rfl⟩ : ∃ k, fuel = k + 1 := ⟨fuel - 1, by omega⟩
    simp only [span_nil, Nat.add_zero] at htop
    simp [search, htop, last]
  | cons b bs ih =>
    obtain ⟨fuel, rfl⟩ : ∃ k, fuel = k + 1 := ⟨fuel - 1, by omega⟩
    obtain ⟨hH, hrest⟩ := ht
    have hl := hH.len_pos
    have hs := hH.mSize
    simp only [span_cons, mblocksize] at htop hfuel hl hs
    have hnext : add32 i (nextoff h.mem i) = i + b.len := by
      rw [hH.nextoff, add32, Nat.mod_eq_of_lt (by omega)]
    simp only [search, ensures_bind, ensures_get, after_ok, ensures_ite,
      ensures_require, ensures_pure]
    refine ⟨fun _ => ⟨fun _ => ⟨fun _ => ⟨fun hskip => ?_, fun htake => ?_⟩, fun hp => ?_⟩,
      fun hok => hok hH.mOk⟩, fun hi => ?_⟩
    · have hlen : nextblock h.mem i * mblocksize = b.len := by rw [hH.nextblock, len]
      have hrest' : Tiled h.mem (i + b.len) (nextblock h.mem i * mblocksize) bs := by
        rw [hlen]
        exact hrest
      rw [hnext]
      refine (ih hrest' (by omega) (by omega)).mono ?_
      rintro r g ⟨rfl, hr⟩
      refine ⟨rfl, ?_⟩
      rcases hr with ⟨pre, c, post, rp', rfl, hc, hsize, rfl⟩ | ⟨rp', rfl, hrp, hnone⟩
      · refine .inl ⟨b :: pre, c, post, rp', rfl, hc, hsize, ?_⟩
        rw [span_cons, Nat.add_assoc]
      refine .inr ⟨rp', rfl, ?_, List.forall_mem_cons.mpr ⟨fun hb => ?_, hnone⟩⟩
      · rw [hrp, hlen, last]
      have hsmall := hskip.resolve_left (by rw [hH.inuse, hb]; simp)
      simp only [mblocksize]
      omega
    · refine ⟨trivial, .inl ⟨[], b, bs, _, rfl, ?_, ?_, rfl⟩⟩
      · have hfree : inuse h.mem i = false := by
          rw [← Bool.not_eq_true]
          exact fun hu => htake (.inl hu)
        rw [hH.inuse] at hfree
        exact Option.not_isSome_iff_eq_none.mp (by simp [hfree])
      · have : ¬ mSize h.mem i < size := fun hlt => htake (.inr hlt)
        simp only [mblocksize]
        omega
    · have := hH.prevblock
      simp only [mblocksize] at this
      omega
    · omega

/-- What `__malloc_split` makes of a block. -/
def cut (b : Block) (size : Nat) : List Block :=
  if b.len - mblocksize - size < 2 * mblocksize then [b]
  else [⟨size / mblocksize + 1, b.req⟩, ⟨b.units - (size / mblocksize + 1), none⟩]

theorem mallocSplit_spec (ht : Tiled h.mem h.heapbase 0 (pre ++ b :: post))
    (htop : h.heapbase + span len (pre ++ b :: post) = h.heaptop)
    (hlt : h.heaptop < 2 ^ 32) (hmh : h.heapbase + span len pre = mh)
    (hsize : size % mblocksize = 0) (hroom : size + mblocksize ≤ b.len) (hfree : b.req = none) :
    wp (mallocSplit mh size)
      (fun r g => r = .ok () ∧ Reblocked h (pre ++ cut b size ++ post) g) h := by
  obtain ⟨hpre, hH, hpost⟩ := tiles_append.mp ht
  rw [hmh] at hH hpost
  have hs := hH.mSize
  have hunits := hH.units_lt
  have hlen : b.len = b.units * 8 := rfl
  simp only [span_append, span_cons, mblocksize] at htop hsize hroom hs
  simp only [mallocSplit, ensures_bind, ensures_get, after_ok, ensures_ite,
    ensures_require, ensures_pure, store, ensures_modify]
  refine ⟨fun _ => ⟨fun hsmall => ⟨trivial, h.mem, rfl, ?_⟩, fun hbig => ?_⟩, fun hs => hs hsize⟩
  · rw [cut, if_pos (by simp only [sub32, mblocksize] at hsmall ⊢; omega), List.append_assoc]
    exact ht
  simp only [sub32, mblocksize] at hbig
  have hk : mkfield (size + mblocksize) = size / 8 + 1 := by
    simp only [mkfield, mblocksize]
    omega
  have hk' : mkfield (mSize h.mem mh - size) = b.units - (size / 8 + 1) := by
    simp only [mkfield, mblocksize]
    omega
  -- the header below with its new length, and the new header above it
  have hbelow := hH.setNextblock (n := size / 8 + 1) (by omega) (by omega) (by simp [hfree])
  have hwidth : (size / 8 + 1) * mblocksize = size + 8 := by
    simp only [mblocksize]
    omega
  have habove := newHeader_header (a := mh + (size + 8))
    (m := setNextblock h.mem mh (size / 8 + 1))
    (p := size / 8 + 1) (n := b.units - (size / 8 + 1)) (by omega) (by omega) (by omega)
  rw [hwidth] at habove
  have hnew : mNext (setNextblock h.mem mh (size / 8 + 1)) mh = mh + (size + 8) := by
    rw [hbelow.mNext (by rw [len, hwidth]; omega), len, hwidth]
  rw [hk, hk', hH.mNext (by omega), hnew]
  refine ⟨fun _ => ?_, fun hne => by omega⟩
  rw [habove.nextblock]
  have hsame : ∀ w, w ≠ mh + 4 → w ≠ mh + (size + 8) → w ≠ mh + (size + 8) + 4 →
      newHeader (mh + (size + 8)) (size / 8 + 1) (b.units - (size / 8 + 1))
        (setNextblock h.mem mh (size / 8 + 1)) w = h.mem w :=
    fun w h₁ h₂ h₃ => (newHeader_of_ne h₂ h₃).trans (Function.update_of_ne h₁ ..)
  refine (relink_spec (tiled_outside hpost fun w hw _ => hsame w (by omega) (by omega) (by omega))
    (by simp only; omega) (by simp only; omega)).mono ?_
  rintro _ g ⟨rfl, m, rfl, hm, hrest⟩
  simp only at hm hrest
  have hcut : cut b size = [⟨size / 8 + 1, b.req⟩, ⟨b.units - (size / 8 + 1), none⟩] :=
    if_neg (by simp only [mblocksize]; omega)
  refine ⟨rfl, m, rfl, ?_⟩
  rw [hcut, List.append_assoc]
  refine tiles_append.mpr ⟨tiled_outside hpre fun w _ hw => ?_, ?_, ?_, ?_⟩
  · rw [hrest w (by omega), hsame w (by omega) (by omega) (by omega)]
  · rw [hmh]
    refine hbelow.congr ?_ ?_
    · rw [hrest _ (by omega), newHeader_of_ne (by omega) (by omega)]
    · rw [hrest _ (by omega), newHeader_of_ne (by omega) (by omega)]
  · rw [hmh, len, hwidth]
    exact habove.congr (hrest _ (by omega)) (hrest _ (by omega))
  rw [hmh, show mh + len ⟨size / 8 + 1, b.req⟩ +
    len ⟨b.units - (size / 8 + 1), none⟩ = mh + b.len by
      simp only [len, mblocksize]
      omega]
  exact hm

/-- What `__malloc_trymerge` makes of two adjacent blocks. -/
def joined (b c : Block) : List Block :=
  if b.req = none ∧ c.req = none then [⟨b.units + c.units, none⟩] else [b, c]

theorem deadbeef_of_lt {ptr w : Nat} (hw : w < ptr) : deadbeef ptr size m w = m w :=
  if_neg fun hin => by omega

theorem deadbeef_of_le {ptr w : Nat} (hw : ptr + size ≤ w) : deadbeef ptr size m w = m w :=
  if_neg fun hin => by omega

theorem trymerge_spec {c : Block} {mhnext : Nat}
    (ht : Tiled h.mem h.heapbase 0 (pre ++ b :: c :: post))
    (htop : h.heapbase + span len (pre ++ b :: c :: post) = h.heaptop)
    (hlt : h.heaptop < 2 ^ 32) (hmh : h.heapbase + span len pre = mh)
    (hnext : mh + b.len = mhnext) :
    wp (trymerge mh mhnext)
      (fun r g => r = .ok () ∧ Reblocked h (pre ++ joined b c ++ post) g) h := by
  obtain ⟨hpre, hb, hc, hpost⟩ := tiles_append.mp ht
  rw [hmh] at hb hc hpost
  rw [hnext] at hc hpost
  have hbs := hb.mSize
  have hcs := hc.mSize
  have hblen : b.len = b.units * 8 := rfl
  have hclen : c.len = c.units * 8 := rfl
  simp only [span_append, span_cons, mblocksize] at htop hbs hcs
  simp only [trymerge, ensures_bind, ensures_get, after_ok, ensures_ite,
    ensures_require, ensures_pure, store, ensures_modify]
  refine ⟨fun _ => ⟨fun hused => ⟨trivial, h.mem, rfl, ?_⟩, fun hfree => ?_⟩, fun hne => hne ?_⟩
  · have hnot : ¬ (b.req = none ∧ c.req = none) := by
      rintro ⟨hbn, hcn⟩
      rw [hb.inuse, hc.inuse, hbn, hcn] at hused
      simp at hused
    rw [joined, if_neg hnot, List.append_assoc]
    exact ht
  · have hboth : b.req = none ∧ c.req = none := by
      rw [hb.inuse, hc.inuse] at hfree
      simpa using hfree
    have hlength : mkfield (add32 (mblocksize + mSize h.mem mh) (mblocksize + mSize h.mem mhnext)) =
        b.units + c.units := by
      simp only [mkfield, add32, mblocksize]
      omega
    have hjoin := hb.setNextblock (n := b.units + c.units) (by omega) (by omega) (by simp [hboth.1])
    rw [hlength, hjoin.nextblock, hc.mNext (by omega)]
    have hsame : ∀ w, w ≠ mh + 4 → setNextblock h.mem mh (b.units + c.units) w = h.mem w :=
      fun w hw => Function.update_of_ne hw ..
    refine (relink_spec (tiled_outside hpost fun w hw _ => hsame w (by omega)) (by simp only; omega)
      (by simp only; omega)).mono ?_
    rintro _ g ⟨rfl, m, rfl, hm, hrest⟩
    simp only at hm hrest
    refine ⟨rfl, deadbeef mhnext mblocksize m, rfl, ?_⟩
    rw [joined, if_pos hboth, List.append_assoc]
    refine tiles_append.mpr ⟨tiled_outside hpre fun w _ hw => ?_, ?_, ?_⟩
    · rw [deadbeef_of_lt (by omega), hrest w (by omega), hsame w (by omega)]
    · rw [hmh, ← hboth.1]
      refine hjoin.congr ?_ ?_
      · rw [deadbeef_of_lt (by omega), hrest _ (by omega)]
      · rw [deadbeef_of_lt (by omega), hrest _ (by omega)]
    rw [hmh, show mh + len ⟨b.units + c.units, none⟩ = mhnext + c.len by
        simp only [len, mblocksize] at hnext ⊢
        omega]
    refine tiled_outside hm fun w hw _ => deadbeef_of_le ?_
    simp only [mblocksize]
    omega
  · rw [hb.nextblock]
    have := hc.prevblock
    simp only [mblocksize] at this
    omega

theorem tiled_mark (ht : Tiled m a prev (pre ++ b :: post)) (hmh : a + span len pre = mh)
    {f : Bool} {req : Option Nat} (hf : req.isSome = f)
    (hroom : ∀ k, req = some k → k + mblocksize ≤ b.len) :
    Tiled (setInuse m mh f) a prev (pre ++ ⟨b.units, req⟩ :: post) := by
  obtain ⟨hpre, hb, hpost⟩ := tiles_append.mp ht
  rw [hmh] at hb hpost
  have hlen := hb.len_pos
  simp only [mblocksize] at hlen
  have hsame : ∀ w, w ≠ mh + 4 → setInuse m mh f w = m w := fun w hw => Function.update_of_ne hw ..
  refine tiles_append.mpr ⟨tiled_outside hpre fun w _ hw => hsame w (by omega), ?_, ?_⟩
  · rw [hmh]
    exact hb.setInuse hf hroom
  · rw [hmh]
    show Tiled _ (mh + b.len) b.len post
    exact tiled_outside hpost fun w hw _ => hsame w (by omega)

end functions

/-- The data areas of the blocks in use, with what was asked for. -/
def areas (a : Nat) (bs : List Block) : List (Nat × Nat) :=
  (placed len a bs).filterMap fun x => x.2.req.map fun n => (mData x.1, n)

/-- One of two neighbours is in use. -/
def Touch (b c : Block) : Prop := b.req ≠ none ∨ c.req ≠ none

/-- The heap consists of the blocks `bs`, and `live` is what the program has been given. -/
structure Shaped (h : Heap) (bs : List Block) (live : List (Nat × Nat)) : Prop where
  base : 0 < h.heapbase
  aligned : h.heapbase % mblocksize = 0
  tiled : Tiled h.mem h.heapbase 0 bs
  top : h.heapbase + span len bs = h.heaptop
  brk : h.brk = h.heaptop
  lt : h.brk < 2 ^ 32 - 1
  live : live.Perm (areas h.heapbase bs)

/-- The heap between two calls: what is free is in one piece. -/
structure Ok (h : Heap) (bs : List Block) (live : List (Nat × Nat)) : Prop
    extends Shaped h bs live where
  apart : bs.IsChain Touch

section invariant
variable {h g : Heap} {live : List (Nat × Nat)} {grant : Nat → Bool} {a n mh size : Nat}
  {b c : Block} {bs pre post : List Block}

theorem areas_append : areas a (pre ++ post) = areas a pre ++ areas (a + span len pre) post := by
  rw [areas, placed_append, List.filterMap_append]
  rfl

theorem areas_free (hb : b.req = none) : areas a (b :: bs) = areas (a + b.len) bs := by
  simp [areas, placed, hb]

theorem areas_used {k : Nat} (hb : b.req = some k) :
    areas a (b :: bs) = (mData a, k) :: areas (a + b.len) bs := by
  simp [areas, placed, hb]

theorem Shaped.lt_top (hs : Shaped h bs live) : h.heaptop < 2 ^ 32 := by
  have h₁ := hs.brk
  have h₂ := hs.lt
  omega

/-- A free block after `__malloc_split`: enough of it, and perhaps the rest. -/
theorem cut_cases (hb : b.req = none) (hroom : size + mblocksize ≤ b.len)
    (hsize : size % mblocksize = 0) :
    ∃ n rest, cut b size = ⟨n, none⟩ :: rest ∧ (rest = [] ∨ ∃ k, rest = [⟨k, none⟩]) ∧
      size + mblocksize ≤ n * mblocksize ∧ span len (⟨n, none⟩ :: rest) = b.len := by
  obtain ⟨units, req⟩ := b
  cases hb
  unfold cut
  split
  · exact ⟨units, [], rfl, .inl rfl, hroom, rfl⟩
  rename_i hbig
  refine ⟨_, _, rfl, .inr ⟨_, rfl⟩, ?_, ?_⟩
  · simp only [mblocksize] at *
    omega
  · simp only [span_cons, span_nil, len, mblocksize] at *
    omega

theorem chain_end {x : Block} (hc : (pre ++ [b]).IsChain Touch) (hx : x.req = none → b.req = none) :
    (pre ++ [x]).IsChain Touch := by
  rw [List.isChain_append] at hc ⊢
  refine ⟨hc.1, by simp, fun y hy z hz => ?_⟩
  cases Option.some.inj hz
  rcases hc.2.2 y hy b rfl with hy | hb
  · exact .inl hy
  · exact .inr fun hnone => hb (hx hnone)

theorem chain_start {x : Block} (hc : (b :: post).IsChain Touch)
    (hx : x.req = none → b.req = none) : (x :: post).IsChain Touch := by
  cases post with
  | nil => simp
  | cons y post =>
    rw [List.isChain_cons_cons] at hc ⊢
    refine ⟨?_, hc.2⟩
    rcases hc.1 with hb | hy
    · exact .inl fun hnone => hb (hx hnone)
    · exact .inr hy

theorem Ok.take {m : Mem} {rest : List Block} {k : Nat} (hok : Ok h (pre ++ b :: post) live)
    (hmh : h.heapbase + span len pre = mh) (hb : b.req = none)
    (hrest : rest = [] ∨ ∃ k, rest = [⟨k, none⟩])
    (hspan : span len (⟨n, none⟩ :: rest) = b.len) (hroom : k + mblocksize ≤ n * mblocksize)
    (ht : Tiled m h.heapbase 0 (pre ++ ⟨n, none⟩ :: rest ++ post)) :
    Ok { h with mem := setInuse m mh true } (pre ++ ⟨n, some k⟩ :: (rest ++ post))
      ((mData mh, k) :: live) := by
  obtain ⟨hbefore, hafter⟩ := List.isChain_split.mp hok.apart
  rw [List.append_assoc, List.cons_append] at ht
  refine ⟨⟨hok.base, hok.aligned, ?_, ?_, hok.brk, hok.lt, ?_⟩, ?_⟩
  · refine tiled_mark ht hmh rfl ?_
    rintro _ ⟨⟩
    exact hroom
  · rw [← hok.top]
    simp only [span_append, span_cons, len] at hspan ⊢
    omega
  · have hafter : areas (mh + len ⟨n, some k⟩) (rest ++ post) = areas (mh + b.len) post := by
      rw [← hspan]
      rcases hrest with rfl | ⟨j, rfl⟩
      · rfl
      · rw [List.singleton_append, areas_free rfl, Nat.add_assoc]
        rfl
    have hlive := hok.live
    rw [areas_append, hmh, areas_free hb] at hlive
    rw [areas_append, hmh, areas_used rfl, hafter]
    exact (hlive.cons _).trans List.perm_middle.symm
  · refine List.isChain_split.mpr ⟨chain_end hbefore (by simp), ?_⟩
    rcases hrest with rfl | ⟨j, rfl⟩
    · exact chain_start hafter (by simp)
    · exact List.isChain_cons_cons.mpr ⟨.inl (by simp), chain_start hafter fun _ => hb⟩

theorem Ok.extend {k rp : Nat} (hok : Ok h bs live)
    (hrp : rp * mblocksize = last len 0 bs) (hroom : k + mblocksize ≤ n * mblocksize)
    (hlt : h.brk + n * mblocksize < 2 ^ 32 - 1) :
    Ok { h with heaptop := h.heaptop + n * mblocksize, brk := h.brk + n * mblocksize,
                mem := topHeader h.heaptop rp n h.mem } (bs ++ [⟨n, some k⟩])
      ((mData h.heaptop, k) :: live) := by
  have htop := hok.top
  have hbrk := hok.brk
  have hlast : last len 0 bs ≤ 0 + span len bs := last_le
  rw [← hrp] at hlast
  simp only [mblocksize] at hroom hlt hlast
  refine ⟨⟨hok.base, hok.aligned, ?_, ?_, ?_, hlt, ?_⟩, ?_⟩
  · refine tiles_append.mpr ⟨tiled_outside hok.tiled fun w _ hw => ?_, ?_, trivial⟩
    · simp only at hw
      exact topHeader_of_ne (by omega) (by omega)
    · rw [htop, ← hrp]
      exact topHeader_header (by omega) (by omega) (by omega) (by simp only [mblocksize]; omega)
  · simp only [span_append, span_cons, span_nil, len]
    omega
  · simp only
    omega
  · rw [areas_append, htop, areas_used rfl]
    exact (hok.live.cons _).trans (List.perm_append_singleton _ _).symm
  · rw [List.isChain_append]
    exact ⟨hok.apart, by simp, fun y _ z hz => .inr (by cases Option.some.inj hz; simp)⟩

/-- The amounts `malloc` can ask `sbrk` for: positive in a signed 32-bit integer. -/
def Fits (size : Nat) : Prop := (size + 7) / 8 * 8 + mblocksize < 2 ^ 31

instance : DecidablePred Fits := fun _ => Nat.decLt _ _

theorem Fits.round (hfit : Fits size) : size ≤ roundSize size ∧ roundSize size % mblocksize = 0 ∧
    add32 (roundSize size) mblocksize = (roundSize size / mblocksize + 1) * mblocksize ∧
    mkfield (roundSize size + mblocksize) = roundSize size / mblocksize + 1 := by
  simp only [Fits, roundSize, add32, mkfield, mblocksize] at *
  omega

theorem Granted.moved {brk amount : Nat} (hg : Granted grant brk amount) (ha : amount < 2 ^ 31) :
    moved brk amount = brk + amount ∧ brk + amount < 2 ^ 32 - 1 := by
  refine ⟨if_pos ha, ?_⟩
  have := hg.2
  omega

/-- Some free block can take the request. -/
def Found (bs : List Block) (size : Nat) : Prop :=
  ∃ b ∈ bs, b.req = none ∧ roundSize size + mblocksize ≤ b.len

/-- What `malloc` asks `sbrk` for. -/
def amountFor (size : Nat) : Nat := add32 (roundSize size) mblocksize

/-- The heap after `malloc` had to extend it. -/
def extended (h : Heap) (size rp : Nat) : Heap :=
  { h with
    heaptop := add32 h.heaptop (amountFor size)
    brk := moved h.brk (amountFor size)
    mem := topHeader h.heaptop rp (mkfield (roundSize size + mblocksize)) h.mem }

/-- Whatever the size: `malloc` takes a block for the rounded request, extends the heap or returns
NULL. -/
theorem allocate_outcome (grant : Nat → Bool) (size : Nat) (hok : Ok h bs live) :
    wp (allocate grant size) (fun r g =>
      (Found bs size ∧ ∃ p, r = .ok p ∧
        ∀ k, k ≤ roundSize size → ∃ bs', Ok g bs' ((p, k) :: live)) ∨
      (¬ Found bs size ∧ Granted grant h.brk (amountFor size) ∧ r = .ok (mData h.heaptop) ∧
        ∃ rp, rp * mblocksize = last len 0 bs ∧ g = extended h size rp) ∨
      ¬ Found bs size ∧ ¬ Granted grant h.brk (amountFor size) ∧ r = .error () ∧ g = h) h := by
  have hdvd : roundSize size % mblocksize = 0 := Nat.mul_mod_left ..
  have hbase := hok.base
  have htop := hok.top
  simp only [allocate, ensures_bind, ensures_get, after_ok, ensures_require]
  refine ⟨fun _ => ?_, fun hne => hne (by omega)⟩
  have htiled : Tiled h.mem h.heapbase (0 * mblocksize) bs := hok.tiled
  refine (search_spec htiled htop hok.lt_top (by omega)).mono ?_
  rintro r g ⟨rfl, ⟨pre, b, post, rp, rfl, hfree, hroom, rfl⟩ | ⟨rp, rfl, hrp, hnone⟩⟩
  · simp only [after_ok, ensures_bind]
    refine (mallocSplit_spec hok.tiled htop hok.lt_top rfl hdvd hroom hfree).mono ?_
    rintro _ g' ⟨rfl, m, rfl, hm⟩
    obtain ⟨n, rest, hcut, hrest, hbig, hspan⟩ := cut_cases hfree hroom hdvd
    rw [hcut] at hm
    refine .inl ⟨⟨b, by simp, hfree, hroom⟩, _, rfl, fun k hk => ?_⟩
    exact ⟨_, hok.take rfl hfree hrest hspan (by omega) hm⟩
  · have hnot : ¬ Found bs size := by
      rintro ⟨b, hb, hfree, hroom⟩
      have := hnone b hb hfree
      omega
    simp only [after_ok, ensures_bind, mallocSbrk, sbrk, ensures_get, Call.ensures_failIf,
      ensures_modify, ensures_pure, ensures_require, store, not_not]
    refine ⟨fun hg => .inr (.inr ⟨hnot, hg, rfl, rfl⟩), fun hg => ⟨fun _ => ?_, fun hne => ?_⟩⟩
    · refine .inr (.inl ⟨hnot, hg, ?_, rp, hrp, ?_⟩)
      · rw [hok.brk]
      · rw [extended, hok.brk]
        rfl
    · exact hne hok.brk

theorem Ok.extended {rp : Nat} (hok : Ok h bs live) (hrp : rp * mblocksize = last len 0 bs)
    (hfit : Fits size) (hg : Granted grant h.brk (amountFor size)) :
    Ok (extended h size rp) (bs ++ [⟨roundSize size / mblocksize + 1, some size⟩])
      ((mData h.heaptop, size) :: live) := by
  obtain ⟨hle, hdvd, hamount, hfield⟩ := hfit.round
  have hsmall : amountFor size < 2 ^ 31 := by
    simp only [amountFor, Fits, mblocksize, roundSize, add32] at hfit ⊢
    omega
  obtain ⟨hbrk, hlt⟩ := hg.moved hsmall
  have htop : add32 h.heaptop (amountFor size) = h.heaptop + amountFor size := by
    rw [add32, Nat.mod_eq_of_lt]
    have := hok.brk
    omega
  rw [OS161.Malloc.extended, hbrk, htop, hfield, amountFor, hamount]
  rw [amountFor, hamount] at hlt
  exact hok.extend hrp (by simp only [mblocksize] at *; omega) hlt

theorem allocate_spec (hok : Ok h bs live) (hfit : Fits size) :
    wp (allocate grant size) (fun r g =>
      (∃ p bs', r = .ok p ∧ Ok g bs' ((p, size) :: live)) ∨ r = .error () ∧ g = h) h := by
  refine (allocate_outcome grant size hok).mono ?_
  rintro r g (⟨-, p, rfl, hp⟩ | ⟨-, hg, rfl, rp, hrp, rfl⟩ | ⟨-, -, rfl, rfl⟩)
  · obtain ⟨bs', hok'⟩ := hp size hfit.round.1
    exact .inl ⟨p, bs', rfl, hok'⟩
  · exact .inl ⟨_, _, rfl, hok.extended hrp hfit hg⟩
  · exact .inr ⟨rfl, rfl⟩

/-- Nothing has been allocated, and the break is where the program was loaded. -/
structure Fresh (h : Heap) (live : List (Nat × Nat)) : Prop where
  heapbase : h.heapbase = 0
  heaptop : h.heaptop = 0
  pos : 0 < h.brk
  lt : h.brk < 2 ^ 32 - 1
  live : live = []

theorem Ok.empty (hpos : 0 < h.heapbase) (hal : h.heapbase % mblocksize = 0)
    (htop : h.heaptop = h.heapbase) (hbrk : h.brk = h.heapbase) (hlt : h.brk < 2 ^ 32 - 1) :
    Ok h [] [] :=
  ⟨⟨hpos, hal, trivial, htop.symm, by rw [hbrk, htop], hlt, .refl _⟩, .nil⟩

theorem sbrkOrExit_spec {amount : Nat} (hamount : amount < 2 ^ 31) :
    Ensures (· = .sbrkFailed) (sbrkOrExit grant amount) (fun r g => r = .ok h.brk ∧
      g = { h with brk := h.brk + amount } ∧ h.brk + amount < 2 ^ 32 - 1) h := by
  simp only [sbrkOrExit, sbrk, ensures_bind, Call.ensures_attempt, ensures_get,
    after_ok, Call.ensures_failIf, Call.after_error, ensures_modify, not_not]
  refine ⟨fun _ => rfl, fun hgrant => ?_⟩
  obtain ⟨hbrk, hlt⟩ := hgrant.moved hamount
  exact ⟨rfl, by rw [hbrk], hlt⟩

theorem mallocInit_spec (hfresh : Fresh h live) :
    Ensures (· = .sbrkFailed) (mallocInit grant) (fun r g => r = .ok () ∧ Ok g [] live) h := by
  have hpos := hfresh.pos
  simp only [mallocInit, ensures_bind, ensures_get, after_ok, ensures_require]
  refine ⟨fun _ => ?_, fun hne => (hne ⟨hfresh.heapbase, hfresh.heaptop⟩).elim⟩
  refine (sbrkOrExit_spec (by decide)).mono ?_
  rintro _ g ⟨rfl, rfl, hlt⟩
  simp only [after_ok, ensures_bind, ensures_require, ensures_modify]
  refine ⟨fun _ => ?_, fun hne => (hne (by omega)).elim⟩
  simp only [alignBase, ensures_ite, ensures_pure, ensures_bind]
  refine ⟨fun hoff => ?_, fun hon => ⟨trivial, ?_⟩⟩
  · refine (sbrkOrExit_spec (by simp only [mblocksize]; omega)).mono ?_
    rintro _ g ⟨rfl, rfl, hlt⟩
    simp only [after_ok, ensures_bind, ensures_require, ensures_modify]
    refine ⟨fun _ => ⟨trivial, ?_⟩, fun hne => (hne rfl).elim⟩
    rw [hfresh.live]
    exact .empty (by simp only; omega) (by simp only [mblocksize]; omega) rfl rfl hlt
  · rw [hfresh.live]
    exact .empty (by simp only; omega) (not_not.mp hon) rfl rfl hlt

theorem initOnce_spec (hinv : Fresh h live ∨ ∃ bs, Ok h bs live) :
    Ensures (fun c => c = .sbrkFailed ∧ h.heapbase = 0) (initOnce grant)
      (fun r g => r = .ok () ∧ ∃ bs, Ok g bs live) h := by
  simp only [initOnce, ensures_bind, ensures_get, after_ok, ensures_ite, ensures_pure]
  refine ⟨fun hzero => ?_, fun hset => ⟨trivial, ?_⟩⟩
  · rcases hinv with hfresh | ⟨bs, hok⟩
    · refine ((mallocInit_spec hfresh).weaken fun c hc => ⟨hc, hzero⟩).mono ?_
      exact fun r g hg => ⟨hg.1, [], hg.2⟩
    · exact absurd hzero (Nat.pos_iff_ne_zero.mp hok.base)
  · rcases hinv with hfresh | hok
    · exact absurd hfresh.heapbase hset
    · exact hok

theorem malloc_spec (hinv : Fresh h live ∨ ∃ bs, Ok h bs live) (hfit : Fits size) :
    Ensures (fun c => c = .sbrkFailed ∧ h.heapbase = 0) (malloc grant size) (fun r g =>
      (∃ p bs, r = .ok p ∧ Ok g bs ((p, size) :: live)) ∨
        r = .error () ∧ ∃ bs, Ok g bs live) h := by
  rw [malloc, ensures_bind]
  refine (initOnce_spec hinv).mono ?_
  rintro _ g ⟨rfl, bs, hok⟩
  refine ((allocate_spec hok hfit).weaken fun _ hc => hc.elim).mono ?_
  rintro r g' (hp | ⟨rfl, rfl⟩)
  · exact .inl hp
  · exact .inr ⟨rfl, bs, hok⟩

/-- The two neighbours after `__malloc_trymerge` take the same room, and give out the same areas. -/
theorem joined_same : span len (joined b c) = b.len + c.len ∧
    ∀ a rest, areas a (joined b c ++ rest) = areas a (b :: c :: rest) := by
  unfold joined
  split
  · rename_i hnone
    refine ⟨by simp [len, Nat.add_mul], fun a rest => ?_⟩
    rw [areas_free hnone.1, areas_free hnone.2, List.singleton_append, areas_free rfl]
    simp [len, Nat.add_mul, Nat.add_assoc]
  · exact ⟨by simp, fun a rest => rfl⟩

theorem trymerge_shaped {mhnext : Nat} (hs : Shaped h (pre ++ b :: c :: post) live)
    (hmh : h.heapbase + span len pre = mh) (hnext : mh + b.len = mhnext) :
    wp (trymerge mh mhnext) (fun r g => r = .ok () ∧ g.heapbase = h.heapbase ∧
      Shaped g (pre ++ (joined b c ++ post)) live) h := by
  have hjoined := joined_same (b := b) (c := c)
  refine (trymerge_spec hs.tiled hs.top hs.lt_top hmh hnext).mono ?_
  rintro _ g ⟨rfl, m, rfl, hm⟩
  rw [List.append_assoc] at hm
  refine ⟨rfl, rfl, hs.base, hs.aligned, hm, ?_, hs.brk, hs.lt, ?_⟩
  · rw [← hs.top]
    simp only [span_append, span_cons, hjoined.1]
    omega
  · have hlive := hs.live
    rw [areas_append] at hlive ⊢
    rw [hjoined.2]
    exact hlive

/-- The block above is merged in if it is free. -/
theorem mergeAbove_spec (hs : Shaped h (pre ++ b :: post) live)
    (hmh : h.heapbase + span len pre = mh) (hb : b.req = none) (habove : post.IsChain Touch) :
    wp (mergeAbove mh) (fun r g => r = .ok () ∧ g.heapbase = h.heapbase ∧ ∃ b' post',
      b'.req = none ∧ (b' :: post').IsChain Touch ∧ Shaped g (pre ++ b' :: post') live) h := by
  have hH := (tiles_append.mp hs.tiled).2.1
  have htop := hs.top
  have hlt := hs.lt_top
  rw [hmh] at hH
  simp only [span_append, span_cons] at htop
  simp only [mergeAbove, ensures_bind, ensures_get, after_ok, ensures_ite, ensures_pure]
  rw [hH.mNext (by omega)]
  cases post with
  | nil =>
    simp only [span_nil] at htop
    refine ⟨fun hne => absurd (by omega) hne, fun _ => ⟨trivial, trivial, b, [], hb, by simp, hs⟩⟩
  | cons c post =>
    have hpos := (tiles_append.mp hs.tiled).2.2.1.len_pos
    simp only [span_cons, mblocksize] at htop hpos
    refine ⟨fun _ => ?_, fun heq => by omega⟩
    refine (trymerge_shaped hs hmh rfl).mono ?_
    rintro _ g ⟨rfl, hbase, hg⟩
    refine ⟨rfl, hbase, ?_⟩
    by_cases hc : c.req = none
    · rw [joined, if_pos ⟨hb, hc⟩] at hg
      exact ⟨_, _, rfl, chain_start habove fun _ => hc, hg⟩
    · rw [joined, if_neg fun hboth => hc hboth.2] at hg
      exact ⟨_, _, hb, List.isChain_cons_cons.mpr ⟨.inr hc, habove⟩, hg⟩

/-- The block below takes the block in if it is free. -/
theorem mergeBelow_spec (hs : Shaped h (pre ++ b :: post) live)
    (hmh : h.heapbase + span len pre = mh) (hb : b.req = none)
    (hbelow : pre.IsChain Touch) (habove : (b :: post).IsChain Touch) :
    wp (mergeBelow mh) (fun r g => r = .ok () ∧ ∃ bs, Ok g bs live) h := by
  simp only [mergeBelow, ensures_bind, ensures_get, after_ok, ensures_ite, ensures_pure]
  rcases List.eq_nil_or_concat' pre with rfl | ⟨pre, d, rfl⟩
  · exact ⟨fun hne => absurd hmh.symm hne, fun _ => ⟨trivial, _, hs, habove⟩⟩
  have hpos := (tiles_append.mp (tiles_append.mp hs.tiled).1).2.1.len_pos
  have hH := (tiles_append.mp hs.tiled).2.1
  have hlt := hs.lt_top
  have htop := hs.top
  rw [hmh] at hH
  have hprev : prevoff h.mem mh = d.len := by
    rw [prevoff, hH.prevblock]
    simp [last]
  simp only [span_append, span_cons, span_nil, mblocksize] at hmh hpos htop
  have hmhprev : mPrev h.mem mh = h.heapbase + span len pre := by
    rw [mPrev, hprev, sub32]
    omega
  refine ⟨fun _ => ?_, fun heq => by omega⟩
  rw [List.append_assoc, List.singleton_append] at hs
  rw [hmhprev]
  refine (trymerge_shaped hs rfl (by omega)).mono ?_
  rintro _ g ⟨rfl, -, hg⟩
  refine ⟨rfl, _, hg, ?_⟩
  by_cases hd : d.req = none
  · rw [joined, if_pos ⟨hd, hb⟩]
    exact List.isChain_split.mpr ⟨chain_end hbelow fun _ => hd, chain_start habove fun _ => hb⟩
  · rw [joined, if_neg fun hboth => hd hboth.1]
    exact List.isChain_append_cons_cons.mpr ⟨hbelow, .inl hd, habove⟩

theorem areas_split {x : Nat} (hx : (x, n) ∈ areas a bs) : ∃ pre b post,
    bs = pre ++ b :: post ∧ b.req = some n ∧ x = mData (a + span len pre) := by
  obtain ⟨y, hy, heq⟩ := List.mem_filterMap.mp hx
  obtain ⟨k, hk, hkx⟩ := Option.map_eq_some_iff.mp heq
  cases hkx
  obtain ⟨pre, post, rfl, haddr⟩ := placed_split hy
  exact ⟨pre, y.2, post, rfl, hk, by rw [haddr]⟩

/-- The block has been marked free and its data wiped. -/
theorem Ok.release {m : Mem} (hok : Ok h (pre ++ b :: post) live)
    (hmh : h.heapbase + span len pre = mh) (hb : b.req = some n)
    (hm : m = setInuse h.mem mh false) :
    Shaped { h with mem := deadbeef (mData mh) (mSize m mh) m } (pre ++ ⟨b.units, none⟩ :: post)
      (live.erase (mData mh, n)) := by
  have hfree : (none : Option Nat).isSome = false := rfl
  have ht := tiled_mark hok.tiled hmh hfree (by simp)
  rw [← hm] at ht
  have hsize := (tiles_append.mp ht).2.1.mSize
  rw [hmh] at hsize
  refine ⟨hok.base, hok.aligned, tiled_data ht fun w hw => ?_, ?_, hok.brk, hok.lt, ?_⟩
  · have hmem := hw _ (mem_placed (b := (⟨b.units, none⟩ : Block)))
    rw [hmh] at hmem
    rcases hmem with hlow | hhigh
    · exact deadbeef_of_lt hlow
    refine deadbeef_of_le ?_
    simp only [mData] at hhigh ⊢
    omega
  · rw [← hok.top]
    simp only [span_append, span_cons, len]
  have hlive := hok.live
  rw [areas_append, hmh, areas_used hb] at hlive
  have hx : (mData mh, n) ∈ live := hlive.mem_iff.mpr (by simp)
  rw [areas_append, hmh, areas_free rfl]
  exact ((List.perm_cons_erase hx).symm.trans (hlive.trans List.perm_middle)).cons_inv

theorem free_spec {x : Nat} (hok : Ok h bs live) (hx : (x, n) ∈ live) :
    Ensures (fun c => c = .invalidPointer ∧ x = h.heaptop) (free x)
      (fun r g => r = .ok () ∧ ∃ bs, Ok g bs (live.erase (x, n))) h := by
  obtain ⟨pre, b, post, rfl, hb, rfl⟩ := areas_split (hok.live.mem_iff.mp hx)
  obtain ⟨hbelow, habove⟩ := List.isChain_split.mp hok.apart
  obtain ⟨-, hH, -⟩ := tiles_append.mp hok.tiled
  have hbase := hok.base
  have htop := hok.top
  have hlen := hH.len_pos
  simp only [span_append, span_cons, mblocksize] at htop hlen
  have hdata : mData (h.heapbase + span len pre) - mblocksize =
      h.heapbase + span len pre := Nat.add_sub_cancel ..
  simp only [free, ensures_ite, ensures_bind, ensures_get, after_ok,
    ensures_require, ensures_pure, store, ensures_modify, hdata]
  refine ⟨fun hzero => ?_, fun _ => ⟨fun _ => ⟨fun _ => ⟨fun _ => ⟨fun _ => ?_,
    fun hne => ?_⟩, fun hne => (hne hH.mOk).elim⟩, fun hout => ⟨trivial, ?_⟩⟩,
    fun hne => (hne (by omega)).elim⟩⟩
  · simp only [mData, mblocksize] at hzero
    omega
  · refine ((mergeAbove_spec (hok.release rfl hb rfl) rfl rfl
      (habove.of_cons)).weaken fun _ hc => hc.elim).mono ?_
    rintro _ g ⟨rfl, hg, b', post', hb', hchain, hs⟩
    refine ((mergeBelow_spec hs (by rw [hg]) hb' ?_ hchain).weaken fun _ hc => hc.elim)
    exact hbelow.left_of_append
  · rw [hH.inuse, hb] at hne
    exact absurd rfl hne
  · simp only [mData, mblocksize] at hout ⊢
    omega

end invariant

end OS161.Malloc
