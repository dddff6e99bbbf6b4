import Mathlib.Order.Bounds.Basic
import OS161.Kern.Bitmap
import OS161.Lib.Run

/-! A bitmap under any calls, against the set of the indices that are marked. -/
namespace OS161

/-- `bitmap_create` with its assertions, in 32-bit arithmetic. -/
def bitmapCreateChecked (nbits : Nat) : Except Crash Bitmap :=
  let words := (nbits + bitsPerWord - 1) % 2 ^ 32 / bitsPerWord
  let b : Bitmap := ⟨nbits, fun _ => 0#8⟩
  if nbits / bitsPerWord < words then
    let ix := words - 1
    let overbits := nbits - ix * bitsPerWord
    if nbits / bitsPerWord = words - 1 ∧ 0 < overbits ∧ overbits < bitsPerWord then
      .ok (bitmapOver ix (List.range' overbits (bitsPerWord - overbits)) b)
    else .error .assertion
  else .ok b

def bitmapMark (b : Bitmap) (index : Nat) : Except Crash Bitmap :=
  let ix := index / bitsPerWord
  let mask := bitMask (index % bitsPerWord)
  if index < b.nbits ∧ b.v ix &&& mask = 0#8 then .ok (b.setWord ix (b.v ix ||| mask))
  else .error .assertion

inductive BitmapOp where
  | alloc
  | mark (index : Nat)
  | unmark (index : Nat)
  deriving DecidableEq, Repr

/-- A call, with the index that `bitmap_alloc` stored; it stores none with ENOSPC. -/
def Bitmap.op (b : Bitmap) : BitmapOp → Except Crash (Option Nat × Bitmap)
  | .alloc => do
    match ← bitmapAlloc b with
    | none => .ok (none, b)
    | some (index, b) => .ok (some index, b)
  | .mark index => do .ok (none, ← bitmapMark b index)
  | .unmark index => do .ok (none, ← bitmapUnmark b index)

/-- What callers keep to. -/
def Bitmap.Allowed (b : Bitmap) : BitmapOp → Prop
  | .alloc => True
  | .mark index => index < b.nbits ∧ bitmapIsset b index = false
  | .unmark index => index < b.nbits ∧ bitmapIsset b index = true

def Bitmap.Step (b : Bitmap) (a : BitmapOp × Option Nat) (b' : Bitmap) : Prop :=
  b.op a.1 = .ok (a.2, b') ∧ b.Allowed a.1

/-- The set of indices that a call makes of one. -/
def BitmapOp.onSet (s : Set Nat) : BitmapOp × Option Nat → Set Nat
  | (.alloc, some index) => insert index s
  | (.alloc, none) => s
  | (.mark index, _) => insert index s
  | (.unmark index, _) => s \ {index}

/-- The indices marked and not since unmarked. -/
def marked (as : List (BitmapOp × Option Nat)) : Set Nat := as.foldl BitmapOp.onSet ∅

section spec
variable {b b' : Bitmap} {i j ix nbits : Nat} {s : Set Nat} {js : List Nat}

theorem isset_bitmapOver (hjs : ∀ j ∈ js, j < bitsPerWord) :
    bitmapIsset (bitmapOver ix js b) i = true ↔
      bitmapIsset b i = true ∨ ∃ j ∈ js, i = ix * bitsPerWord + j := by
  induction js generalizing b with
  | nil => simp [bitmapOver]
  | cons j js ih =>
    obtain ⟨hdiv, hmod⟩ := word_mul_add (i := ix) (hjs j List.mem_cons_self)
    have hmark : b.setWord ix (b.v ix ||| bitMask j) = b.mark (ix * bitsPerWord + j) := by
      rw [Bitmap.mark, hdiv, hmod]
    rw [bitmapOver, ih fun k hk => hjs k (List.mem_cons_of_mem j hk), hmark, isset_mark]
    simp only [Bool.or_eq_true, decide_eq_true_eq, List.mem_cons, exists_eq_or_imp]
    tauto

theorem nbits_bitmapOver : (bitmapOver ix js b).nbits = b.nbits := by
  induction js generalizing b with
  | nil => rfl
  | cons j js ih => exact ih

/-- The bitmap stands for the set `s`. -/
structure Bitmap.Marks (b : Bitmap) (nbits : Nat) (s : Set Nat) : Prop where
  size : b.nbits = nbits
  isset : ∀ i < nbits, bitmapIsset b i = true ↔ i ∈ s
  padded : b.Padded
  below : ∀ i ∈ s, i < nbits

theorem bitmapCreateChecked_eq (hn : nbits ≤ 2 ^ 32 - 8) :
    bitmapCreateChecked nbits = .ok (bitmapCreate nbits) := by
  have hwords : (nbits + bitsPerWord - 1) % 2 ^ 32 / bitsPerWord
      = Bitmap.words ⟨nbits, fun _ => 0#8⟩ := by
    rw [Nat.mod_eq_of_lt (by unfold bitsPerWord; omega)]
    rfl
  unfold bitmapCreateChecked bitmapCreate
  rw [hwords]
  dsimp only
  split
  · rename_i hover
    refine if_pos ?_
    simp only [Bitmap.words, bitsPerWord] at hover ⊢
    omega
  · rfl

theorem marks_bitmapCreate : (bitmapCreate nbits).Marks nbits ∅ := by
  have hzero : ∀ i, bitmapIsset ⟨nbits, fun _ => 0#8⟩ i = false := by
    intro i
    rw [bitmapIsset_eq]
    exact BitVec.getLsbD_zero
  unfold bitmapCreate
  dsimp only
  split <;> rename_i hover <;> simp only [Bitmap.words, bitsPerWord] at hover ⊢
  · refine ⟨nbits_bitmapOver, fun i hi => ?_, fun i hge hlt => ?_, fun i hi => absurd hi id⟩
    · rw [isset_bitmapOver, hzero]
      · simp only [Bool.false_eq_true, false_or, Set.mem_empty_iff_false, iff_false]
        rintro ⟨j, hj, heq⟩
        rw [List.mem_range'_1] at hj
        unfold bitsPerWord at heq
        omega
      · intro j hj
        rw [List.mem_range'_1] at hj
        unfold bitsPerWord
        omega
    · simp only [Bitmap.words, nbits_bitmapOver, bitsPerWord] at hge hlt
      rw [isset_bitmapOver]
      · refine .inr ⟨i - ((nbits + 8 - 1) / 8 - 1) * 8, ?_, ?_⟩
        · rw [List.mem_range'_1]
          omega
        · unfold bitsPerWord
          omega
      · intro j hj
        rw [List.mem_range'_1] at hj
        unfold bitsPerWord
        omega
  · refine ⟨rfl, fun i hi => ?_, fun i hge hlt => ?_, fun i hi => absurd hi id⟩
    · rw [hzero]
      simp
    · simp only [Bitmap.words, bitsPerWord] at hge hlt
      omega

theorem bitmapMark_of_clear (hlt : i < b.nbits) (hclear : bitmapIsset b i = false) :
    bitmapMark b i = .ok (b.mark i) := by
  have hmask : b.v (i / bitsPerWord) &&& bitMask (i % bitsPerWord) = 0#8 := by
    simpa [bitmapIsset] using hclear
  rw [bitmapMark, if_pos ⟨hlt, hmask⟩]
  rfl

namespace Bitmap.Marks
variable (hb : b.Marks nbits s)
include hb

theorem mark (hi : i < nbits) : (b.mark i).Marks nbits (insert i s) := by
  refine ⟨hb.size, fun j hj => ?_, fun j hge hlt => ?_, fun j hj => ?_⟩
  · rw [isset_mark, Bool.or_eq_true, decide_eq_true_eq, hb.isset j hj]
    rfl
  · rw [isset_mark, hb.padded j hge hlt, Bool.or_true]
  rcases hj with rfl | hj
  · exact hi
  · exact hb.below j hj

theorem unmark (hi : i < nbits) : (b.unmark i).Marks nbits (s \ {i}) := by
  refine ⟨hb.size, fun j hj => ?_, fun j hge hlt => ?_, fun j hj => hb.below j hj.1⟩
  · rw [isset_unmark, Bool.and_eq_true, decide_eq_true_eq, hb.isset j hj, and_comm]
    rfl
  have hsize := hb.size
  have hne : j ≠ i := by
    simp only [Bitmap.unmark_nbits] at hge
    omega
  rw [isset_unmark, hb.padded j hge hlt, decide_eq_true hne, Bool.true_and]

/-- `bitmap_alloc` takes the least index that is not in the set. -/
theorem alloc : bitmapAlloc b = .ok none ∧ (∀ i < nbits, i ∈ s) ∨
    ∃ i, bitmapAlloc b = .ok (some (i, b.mark i)) ∧ IsLeast {i | i < nbits ∧ i ∉ s} i := by
  obtain ⟨r, hrun, hr⟩ := bitmapAlloc_spec hb.padded
  have hsize := hb.size
  cases r with
  | none => exact .inl ⟨hrun, fun i hi => (hb.isset i hi).mp (hr i (by omega))⟩
  | some r =>
    obtain ⟨i, b'⟩ := r
    obtain ⟨hlt, hclear, hlower, rfl⟩ := hr
    refine .inr ⟨i, hrun, ⟨by omega, fun hi => ?_⟩, fun j hj => not_lt.mp fun hji => ?_⟩
    · rw [(hb.isset i (by omega)).mpr hi] at hclear
      cases hclear
    · exact hj.2 ((hb.isset j hj.1).mp (hlower j hji))

theorem op {a : BitmapOp} (hallowed : b.Allowed a) :
    ∃ r b', b.op a = .ok (r, b') ∧ b'.Marks nbits (BitmapOp.onSet s (a, r)) := by
  cases a with
  | alloc =>
    rcases hb.alloc with ⟨hrun, -⟩ | ⟨i, hrun, hleast⟩
    · refine ⟨none, b, ?_, hb⟩
      rw [Bitmap.op, hrun]
      rfl
    · refine ⟨some i, b.mark i, ?_, hb.mark hleast.1.1⟩
      rw [Bitmap.op, hrun]
      rfl
  | mark i =>
    refine ⟨none, b.mark i, ?_, hb.mark (hb.size ▸ hallowed.1)⟩
    rw [Bitmap.op, bitmapMark_of_clear hallowed.1 hallowed.2]
    rfl
  | unmark i =>
    refine ⟨none, b.unmark i, ?_, hb.unmark (hb.size ▸ hallowed.1)⟩
    rw [Bitmap.op, bitmapUnmark_of_isset hallowed.1 hallowed.2]
    rfl

end Bitmap.Marks

theorem Bitmap.Marks.run {b₀ : Bitmap} {as : List (BitmapOp × Option Nat)}
    (h0 : b₀.Marks nbits ∅) (hrun : Lts.Run Bitmap.Step b₀ as b) : b.Marks nbits (marked as) := by
  refine hrun.history (fun as b => b.Marks nbits (marked as)) h0 ?_
  rintro as b ⟨a, r⟩ b' hb ⟨hop, hallowed⟩
  obtain ⟨r', b'', hop', hb''⟩ := hb.op hallowed
  cases hop.symm.trans hop'
  rw [marked, List.foldl_append]
  exact hb''

/-- A bitmap answers `bitmap_isset` with its set, `bitmap_alloc` takes the least index that is
missing, the bits past the end stay set and no assertion fails. -/
theorem bitmap_is_set (hn : nbits ≤ 2 ^ 32 - 8) :
    ∃ b₀, bitmapCreateChecked nbits = .ok b₀ ∧ ∀ as b, Lts.Run Bitmap.Step b₀ as b →
      (∀ i < nbits, bitmapIsset b i = true ↔ i ∈ marked as) ∧
      (∃ r, bitmapAlloc b = .ok r) ∧
      (bitmapAlloc b = .ok none ↔ ∀ i < nbits, i ∈ marked as) ∧
      (∀ i b', bitmapAlloc b = .ok (some (i, b')) → IsLeast {i | i < nbits ∧ i ∉ marked as} i) ∧
      (∀ i, nbits ≤ i → i < (nbits + bitsPerWord - 1) / bitsPerWord * bitsPerWord →
        bitmapIsset b i = true) ∧ ∀ a, b.Allowed a → ∃ r b', b.op a = .ok (r, b') := by
  refine ⟨_, bitmapCreateChecked_eq hn, fun as b hrun => ?_⟩
  have hb := marks_bitmapCreate.run hrun
  refine ⟨hb.isset, ?_, ?_, fun i b' hi => ?_, fun i hge hlt => ?_, fun a hallowed => ?_⟩
  · rcases hb.alloc with ⟨hnone, -⟩ | ⟨i, hsome, -⟩
    · exact ⟨_, hnone⟩
    · exact ⟨_, hsome⟩
  · rcases hb.alloc with ⟨hnone, hall⟩ | ⟨i, hsome, hleast⟩
    · exact ⟨fun _ => hall, fun _ => hnone⟩
    · rw [hsome]
      exact ⟨fun h => (by cases h), fun hall => absurd (hall i hleast.1.1) hleast.1.2⟩
  · rcases hb.alloc with ⟨hnone, -⟩ | ⟨j, hsome, hleast⟩
    · cases hnone.symm.trans hi
    · cases hsome.symm.trans hi
      exact hleast
  · rw [← hb.size] at hge hlt
    exact hb.padded i hge hlt
  · obtain ⟨r, b', hop, -⟩ := hb.op hallowed
    exact ⟨r, b', hop⟩

/-- Three bits, all of them taken, and one given back and taken again. -/
theorem bitmap_is_set_three :
    ∃ b₀ b, bitmapCreateChecked 3 = .ok b₀ ∧ Lts.Run Bitmap.Step b₀
        [(.alloc, some 0), (.mark 2, none), (.alloc, some 1), (.alloc, none), (.unmark 1, none)] b ∧
      bitmapIsset b 2 = true ∧ bitmapIsset b 7 = true := by
  obtain ⟨b₀, hcreate, hall⟩ := bitmap_is_set (show 3 ≤ 2 ^ 32 - 8 by decide)
  obtain ⟨b, hrun⟩ : ∃ b, Lts.Run Bitmap.Step b₀ [(.alloc, some 0), (.mark 2, none),
      (.alloc, some 1), (.alloc, none), (.unmark 1, none)] b := by
    cases hcreate
    exact ⟨_, .head ⟨rfl, trivial⟩ (.head ⟨rfl, by decide, by decide⟩ (.head ⟨rfl, trivial⟩
      (.head ⟨rfl, trivial⟩ (.head ⟨rfl, by decide, by decide⟩ .refl))))⟩
  obtain ⟨hisset, -, -, -, hpad, -⟩ := hall _ b hrun
  refine ⟨b₀, b, hcreate, hrun, (hisset 2 (by decide)).mpr ?_, hpad 7 (by decide) (by decide)⟩
  simp [marked, BitmapOp.onSet]

end spec

end OS161
