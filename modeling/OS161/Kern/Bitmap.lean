import OS161.Base

/-! `bitmap.c`: arrays of bits, eight to a byte. -/
namespace OS161

structure Bitmap where
  nbits : Nat
  v : Nat → Byte

def bitsPerWord : Nat := 8

def wordAllbits : Byte := 0xff#8

/-- `((WORD_TYPE)1) << offset`. -/
def bitMask (offset : Nat) : Byte := 1#8 <<< offset

/-- DIVROUNDUP(nbits, BITS_PER_WORD). -/
def Bitmap.words (b : Bitmap) : Nat := (b.nbits + bitsPerWord - 1) / bitsPerWord

def Bitmap.setWord (b : Bitmap) (ix : Nat) (w : Byte) : Bitmap :=
  { b with v := Function.update b.v ix w }

/-- The loop of `bitmap_create` over the leftover bits. -/
def bitmapOver (ix : Nat) : List Nat → Bitmap → Bitmap
  | [], b => b
  | j :: js, b => bitmapOver ix js (b.setWord ix (b.v ix ||| bitMask j))

def bitmapCreate (nbits : Nat) : Bitmap :=
  let b : Bitmap := ⟨nbits, fun _ => 0#8⟩
  if nbits / bitsPerWord < b.words then
    let ix := b.words - 1
    bitmapOver ix (List.range' (nbits - ix * bitsPerWord)
      (bitsPerWord - (nbits - ix * bitsPerWord))) b
  else b

/-- `bitmap_alloc`; ENOSPC is `none`. -/
def bitmapAlloc (b : Bitmap) : Except Crash (Option (Nat × Bitmap)) :=
  match (List.range b.words).find? fun ix => b.v ix ≠ wordAllbits with
  | none => .ok none
  | some ix =>
    match (List.range bitsPerWord).find? fun offset => b.v ix &&& bitMask offset = 0#8 with
    | none => .error .assertion
    | some offset =>
      let index := ix * bitsPerWord + offset
      if index < b.nbits then .ok (some (index, b.setWord ix (b.v ix ||| bitMask offset)))
      else .error .assertion

def bitmapUnmark (b : Bitmap) (index : Nat) : Except Crash Bitmap :=
  let ix := index / bitsPerWord
  let mask := bitMask (index % bitsPerWord)
  if index < b.nbits ∧ b.v ix &&& mask ≠ 0#8 then .ok (b.setWord ix (b.v ix &&& ~~~mask))
  else .error .assertion

def bitmapIsset (b : Bitmap) (index : Nat) : Bool :=
  b.v (index / bitsPerWord) &&& bitMask (index % bitsPerWord) != 0#8

section spec
variable {b : Bitmap} {i j offset : Nat} {w : Byte}

theorem and_bitMask (h : offset < bitsPerWord) :
    w &&& bitMask offset = 0#8 ↔ w.getLsbD offset = false := by
  rw [bitMask, ← BitVec.twoPow_eq, BitVec.and_twoPow]
  split
  · rename_i hset
    simp only [hset, Bool.true_eq_false, iff_false]
    intro hzero
    have hbit := congrArg (fun x : Byte => x.getLsbD offset) hzero
    simp [BitVec.getLsbD_twoPow] at hbit
    exact absurd h (Nat.not_lt.mpr hbit)
  · simp_all

theorem bitmapIsset_eq : bitmapIsset b i = (b.v (i / bitsPerWord)).getLsbD (i % bitsPerWord) := by
  have hbit := and_bitMask (w := b.v (i / bitsPerWord))
    (Nat.mod_lt i (show 0 < bitsPerWord by decide))
  rw [Bool.eq_iff_iff]
  simp [bitmapIsset, hbit]

theorem getLsbD_bitMask (h : offset < bitsPerWord) :
    (bitMask i).getLsbD offset = decide (offset = i) := by
  rw [bitMask, ← BitVec.twoPow_eq, BitVec.getLsbD_twoPow, Bool.eq_iff_iff]
  simp only [Bool.and_eq_true, decide_eq_true_eq]
  unfold bitsPerWord at h
  omega

theorem isset_setWord (hj : j / bitsPerWord = i / bitsPerWord) :
    bitmapIsset (b.setWord (i / bitsPerWord) w) j = w.getLsbD (j % bitsPerWord) := by
  rw [bitmapIsset_eq]
  simp only [Bitmap.setWord, hj, Function.update_self]

theorem isset_setWord_ne (hj : j / bitsPerWord ≠ i / bitsPerWord) :
    bitmapIsset (b.setWord (i / bitsPerWord) w) j = bitmapIsset b j := by
  rw [bitmapIsset_eq, bitmapIsset_eq]
  simp only [Bitmap.setWord, Function.update_of_ne hj]

/-- Setting the bit `i`. -/
def Bitmap.mark (b : Bitmap) (i : Nat) : Bitmap :=
  b.setWord (i / bitsPerWord) (b.v (i / bitsPerWord) ||| bitMask (i % bitsPerWord))

/-- Clearing it. -/
def Bitmap.unmark (b : Bitmap) (i : Nat) : Bitmap :=
  b.setWord (i / bitsPerWord) (b.v (i / bitsPerWord) &&& ~~~bitMask (i % bitsPerWord))

@[simp] theorem Bitmap.mark_nbits : (b.mark i).nbits = b.nbits := rfl

@[simp] theorem Bitmap.unmark_nbits : (b.unmark i).nbits = b.nbits := rfl

theorem mod_bitsPerWord_lt : j % bitsPerWord < bitsPerWord := Nat.mod_lt j (by decide)

theorem bit_eq_iff (hj : j / bitsPerWord = i / bitsPerWord) :
    j % bitsPerWord = i % bitsPerWord ↔ j = i := by
  constructor
  · intro hoff
    unfold bitsPerWord at hj hoff
    omega
  · rintro rfl
    rfl

theorem isset_mark : bitmapIsset (b.mark i) j = (decide (j = i) || bitmapIsset b j) := by
  by_cases hj : j / bitsPerWord = i / bitsPerWord
  · rw [Bitmap.mark, isset_setWord hj, BitVec.getLsbD_or, getLsbD_bitMask mod_bitsPerWord_lt,
      bitmapIsset_eq, hj, Bool.or_comm]
    simp only [bit_eq_iff hj]
  · have hne : j ≠ i := by
      rintro rfl
      exact hj rfl
    simp [Bitmap.mark, isset_setWord_ne hj, hne]

theorem isset_unmark : bitmapIsset (b.unmark i) j = (decide (j ≠ i) && bitmapIsset b j) := by
  by_cases hj : j / bitsPerWord = i / bitsPerWord
  · have hlt : j % bitsPerWord < 8 := mod_bitsPerWord_lt
    rw [Bitmap.unmark, isset_setWord hj, BitVec.getLsbD_and, BitVec.getLsbD_not,
      getLsbD_bitMask mod_bitsPerWord_lt, bitmapIsset_eq, hj, Bool.and_comm]
    simp only [bit_eq_iff hj, hlt, decide_true, Bool.true_and, decide_not]
  · have hne : j ≠ i := by
      rintro rfl
      exact hj rfl
    simp [Bitmap.unmark, isset_setWord_ne hj, hne]

theorem bitmapUnmark_of_isset (hlt : i < b.nbits) (hset : bitmapIsset b i = true) :
    bitmapUnmark b i = .ok (b.unmark i) := by
  have hmask : b.v (i / bitsPerWord) &&& bitMask (i % bitsPerWord) ≠ 0#8 := by
    simpa [bitmapIsset] using hset
  rw [bitmapUnmark, if_pos ⟨hlt, hmask⟩]
  rfl

/-- The bits after the last one, up to a whole word, are set. -/
def Bitmap.Padded (b : Bitmap) : Prop :=
  ∀ i, b.nbits ≤ i → i < b.words * bitsPerWord → bitmapIsset b i = true

/-- A word with all bits set. -/
theorem allbits_iff : w = wordAllbits ↔ ∀ offset < bitsPerWord, w.getLsbD offset = true := by
  constructor
  · rintro rfl
    decide
  intro h
  refine BitVec.eq_of_getLsbD_eq fun offset hlt => ?_
  rw [h offset hlt]
  revert offset
  decide

/-- What a search finds: the lowest clear bit, or no clear bit. -/
def Bitmap.Lowest (b : Bitmap) : Option (Nat × Bitmap) → Prop
  | none => ∀ j < b.nbits, bitmapIsset b j = true
  | some (i, b') => i < b.nbits ∧ bitmapIsset b i = false ∧ (∀ j < i, bitmapIsset b j = true) ∧
      b' = b.mark i

theorem word_mul_add (h : offset < bitsPerWord) :
    (i * bitsPerWord + offset) / bitsPerWord = i ∧
      (i * bitsPerWord + offset) % bitsPerWord = offset := by
  unfold bitsPerWord at h ⊢
  omega

theorem isset_of_allbits (h : b.v (j / bitsPerWord) = wordAllbits) : bitmapIsset b j = true := by
  rw [bitmapIsset_eq]
  exact allbits_iff.mp h _ mod_bitsPerWord_lt

theorem bitmapAlloc_spec (hpad : b.Padded) : ∃ r, bitmapAlloc b = .ok r ∧ b.Lowest r := by
  unfold bitmapAlloc
  cases hword : (List.range b.words).find? fun ix => b.v ix ≠ wordAllbits with
  | none =>
    refine ⟨none, rfl, fun j hj => isset_of_allbits ?_⟩
    have hlt : j / bitsPerWord < b.words := by
      unfold Bitmap.words bitsPerWord
      omega
    simpa using List.find?_range_eq_none.mp hword (j / bitsPerWord) hlt
  | some ix =>
    obtain ⟨hne, hmem, hbefore⟩ := List.find?_range_eq_some.mp hword
    cases hoff : (List.range bitsPerWord).find? fun offset => b.v ix &&& bitMask offset = 0#8 with
    | none =>
      -- a word that is not full has a clear bit
      refine absurd (allbits_iff.mpr fun offset hlt => ?_) (of_decide_eq_true hne)
      have hclear := List.find?_range_eq_none.mp hoff offset hlt
      rw [Bool.not_eq_true', decide_eq_false_iff_not, and_bitMask hlt] at hclear
      simpa using hclear
    | some offset =>
      obtain ⟨hclear, hmem', hlower⟩ := List.find?_range_eq_some.mp hoff
      have hlt : offset < bitsPerWord := List.mem_range.mp hmem'
      obtain ⟨hdiv, hmod⟩ := word_mul_add (i := ix) hlt
      have hunset : bitmapIsset b (ix * bitsPerWord + offset) = false := by
        rw [bitmapIsset_eq, hdiv, hmod]
        exact (and_bitMask hlt).mp (of_decide_eq_true hclear)
      have hnbits : ix * bitsPerWord + offset < b.nbits := by
        by_contra hge
        have hword : ix < b.words := List.mem_range.mp hmem
        have hbound : ix * bitsPerWord + offset < b.words * bitsPerWord := by
          unfold bitsPerWord at hlt ⊢
          omega
        rw [hpad _ (Nat.le_of_not_lt hge) hbound] at hunset
        cases hunset
      have hmark : b.setWord ix (b.v ix ||| bitMask offset)
          = b.mark (ix * bitsPerWord + offset) := by
        rw [Bitmap.mark, hdiv, hmod]
      refine ⟨some (_, b.mark (ix * bitsPerWord + offset)), ?_, hnbits, hunset, ?_, rfl⟩
      · simp only [hoff, if_pos hnbits, hmark]
      intro j hj
      by_cases hix : j / bitsPerWord = ix
      · have hjoff : j % bitsPerWord < offset := by
          unfold bitsPerWord at hix hj ⊢
          omega
        have hjset := hlower _ hjoff
        rw [Bool.not_eq_true', decide_eq_false_iff_not, and_bitMask mod_bitsPerWord_lt] at hjset
        rw [bitmapIsset_eq, hix]
        simpa using hjset
      · have hjix : j / bitsPerWord < ix := by
          unfold bitsPerWord at hix hj hlt ⊢
          omega
        exact isset_of_allbits (by simpa using hbefore _ hjix)

end spec

end OS161
