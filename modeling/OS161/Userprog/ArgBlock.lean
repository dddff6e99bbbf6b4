import OS161.Vm.System

/-! The block of arguments at the top of the first stack page, read as the new program reads it. -/
namespace OS161

open BitVec (ofNat toNat_add toNat_ofNat le_def)
open List (getElem?_append_left take_succ_cons map_cons sum_cons length_cons length_append)

/-- The byte at an offset into a page of big-endian words. -/
def pageByte (pg : Nat → Word) (k : Nat) : Byte := (pg (k / 4)).extractLsb' (24 - 8 * (k % 4)) 8

theorem pageByte_packPage (b : Nat → Byte) (k : Nat) : pageByte (packPage b) k = b k := by
  have hk := Nat.div_add_mod k 4
  have hlt := Nat.mod_lt k (by omega : 4 > 0)
  unfold pageByte packPage
  generalize k / 4 = q at hk
  generalize k % 4 = r at hk hlt
  subst hk
  have hcases : r = 0 ∨ r = 1 ∨ r = 2 ∨ r = 3 := by omega
  rcases hcases with rfl | rfl | rfl | rfl
  · rw [BitVec.extractLsb'_append_eq_of_le (by omega),
      BitVec.extractLsb'_append_eq_of_le (by omega), BitVec.extractLsb'_append_eq_of_le (by omega)]
    simp
  · rw [BitVec.extractLsb'_append_eq_of_le (by omega), BitVec.extractLsb'_append_eq_of_le (by
      omega), BitVec.extractLsb'_append_eq_of_add_le (by omega)]
    simp
  · rw [BitVec.extractLsb'_append_eq_of_le (by omega),
      BitVec.extractLsb'_append_eq_of_add_le (by omega)]
    simp
  · rw [BitVec.extractLsb'_append_eq_of_add_le (by omega)]
    simp

theorem packPage_wordBytes {b : Nat → Byte} {k : Nat} {w : Word}
    (h : ∀ r, r < 4 → b (4 * k + r) = (wordBytes w).getD r 0#8) : packPage b k = w := by
  have h₀ := h 0 (by omega)
  have h₁ := h 1 (by omega)
  have h₂ := h 2 (by omega)
  have h₃ := h 3 (by omega)
  rw [Nat.add_zero] at h₀
  unfold packPage
  rw [h₀, h₁, h₂, h₃]
  ext i hi
  simp only [wordBytes, List.getD_cons_zero, List.getD_cons_succ, BitVec.getElem_append]
  grind

theorem getElem?_flatMap_part {α β : Type*} (f : α → List β) (l : List α) {i k : Nat} {x : α}
    (hx : l[i]? = some x) (hk : k < (f x).length) :
    (l.flatMap f)[((l.take i).map fun y => (f y).length).sum + k]? = (f x)[k]? := by
  induction l generalizing i with
  | nil => cases hx
  | cons y l ih =>
    cases i with
    | zero =>
      simp only [List.getElem?_cons_zero, Option.some.injEq] at hx
      subst hx
      simp [getElem?_append_left hk]
    | succ i =>
      rw [List.flatMap_cons, take_succ_cons, map_cons, sum_cons, Nat.add_assoc,
        List.getElem?_append_right (by omega), Nat.add_sub_cancel_left]
      exact ih hx

/-- Where the `i`th string starts. -/
def argStart (strings : List (List Byte)) (i : Nat) : Nat :=
  ((strings.take i).map fun s => s.length + 1).sum

variable {strings : List (List Byte)} {str : List Byte} {i k n : Nat} {page : Vaddr}

theorem argOffsets_getElem? (hx : strings[i]? = some str) :
    (argOffsets strings n)[i]? = some (n + argStart strings i) := by
  induction strings generalizing i n with
  | nil => cases hx
  | cons s ss ih =>
    cases i with
    | zero => simp [argOffsets, argStart]
    | succ i =>
      rw [argOffsets, List.getElem?_cons_succ, ih hx]
      simp only [argStart, take_succ_cons, map_cons, sum_cons]
      congr 1
      omega

theorem length_argOffsets : (argOffsets strings n).length = strings.length := by
  induction strings generalizing n with
  | nil => rfl
  | cons s ss ih => simp [argOffsets, ih]

theorem argStart_lt (hx : strings[i]? = some str) :
    argStart strings i + str.length + 1 ≤ argStart strings strings.length := by
  induction strings generalizing i with
  | nil => cases hx
  | cons s ss ih =>
    cases i with
    | zero =>
      simp only [List.getElem?_cons_zero, Option.some.injEq] at hx
      subst hx
      simp [argStart]
    | succ i =>
      have h := ih hx
      simp only [argStart, take_succ_cons, length_cons, map_cons, sum_cons]
        at h ⊢
      omega

theorem argStart_le (h : ∀ str ∈ strings, str.length < 30) :
    argStart strings strings.length ≤ 30 * strings.length := by
  induction strings with
  | nil => simp [argStart]
  | cons s ss ih =>
    have hs := h s (by simp)
    have hss := ih fun str hmem => h str (by simp [hmem])
    simp only [argStart, length_cons, take_succ_cons, map_cons, sum_cons]
      at hss ⊢
    omega

theorem length_argStrings :
    (strings.flatMap (· ++ [0#8])).length = argStart strings strings.length := by
  simp [List.length_flatMap, argStart]

theorem length_argPointers (l : List Nat) :
    (l.flatMap fun n => wordBytes (page + ofNat 32 n)).length = 4 * l.length := by
  simp [List.length_flatMap, wordBytes, Nat.mul_comm]

theorem length_argBlock : (argBlock strings page).length
    = argStart strings strings.length + 4 * (strings.length + 1) := by
  simp only [argBlock, length_append, length_argStrings, length_argPointers, length_argOffsets]
  simp only [wordBytes, length_cons, List.length_nil]
  omega

theorem argBlock_string (hx : strings[i]? = some str) (hk : k < str.length + 1) :
    (argBlock strings page)[argStart strings i + k]? = (str ++ [0#8])[k]? := by
  have hlt := argStart_lt hx
  have hpart := getElem?_flatMap_part (· ++ [0#8]) strings hx (k := k) (by simpa using hk)
  simp only [length_append, length_cons, List.length_nil] at hpart
  simp only [argBlock]
  rw [getElem?_append_left (by
      rw [length_append, length_argStrings]
      omega),
    getElem?_append_left (by
      rw [length_argStrings]
      omega)]
  exact hpart

theorem argBlock_pointer (hx : strings[i]? = some str) (hk : k < 4) :
    (argBlock strings page)[argStart strings strings.length + (4 * i + k)]? =
      (wordBytes (page + ofNat 32 (pageSize - (argBlock strings page).length
        + argStart strings i)))[k]? := by
  have hi : i < strings.length := by
    rw [List.getElem?_eq_some_iff] at hx
    exact hx.1
  have hoff := argOffsets_getElem? (n := pageSize - (argBlock strings page).length) hx
  have hpart := getElem?_flatMap_part (fun n => wordBytes (page + ofNat 32 n)) _ hoff
    (k := k) (by simpa [wordBytes] using hk)
  have hsum : (((argOffsets strings (pageSize - (argBlock strings page).length)).take i).map
      fun n => (wordBytes (page + ofNat 32 n)).length).sum = 4 * i := by
    simp [wordBytes, length_argOffsets, Nat.min_eq_left (Nat.le_of_lt hi), Nat.mul_comm]
  rw [hsum, length_argBlock] at hpart
  simp only [length_argBlock]
  simp only [argBlock, length_argStrings]
  rw [getElem?_append_left (by
      rw [length_append, length_argStrings, length_argPointers, length_argOffsets]
      omega),
    List.getElem?_append_right (by
      rw [length_argStrings]
      omega), length_argStrings, Nat.add_sub_cancel_left]
  exact hpart

theorem argBlock_last (hk : k < 4) :
    (argBlock strings page)[argStart strings strings.length + (4 * strings.length + k)]? =
      (wordBytes 0#32)[k]? := by
  simp only [argBlock]
  rw [List.getElem?_append_right (by
      rw [length_append, length_argStrings, length_argPointers, length_argOffsets]
      omega), length_append, length_argStrings, length_argPointers, length_argOffsets]
  congr 1
  omega

theorem toNat_wordIndex (va : Vaddr) : wordIndex va = va.toNat % 4096 / 4 := by
  have hand : wordIndex va = va.toNat / 4 % 1024 := by
    unfold wordIndex
    rw [BitVec.toNat_and, BitVec.toNat_ushiftRight, Nat.shiftRight_eq_div_pow]
    exact Nat.and_two_pow_sub_one_eq_mod _ 10
  omega

variable {a : Args}

/-- How many bytes the block takes. -/
def Args.size (a : Args) : Nat :=
  argStart a.strings a.strings.length + 4 * (a.strings.length + 1)

theorem Args.size_le (a : Args) : a.size ≤ 4096 := by
  have h := a.fits
  rw [length_argStrings] at h
  exact h

theorem Args.page_eq (a : Args) (page : Vaddr) : a.page page = packPage fun n =>
    if n < 4096 - a.size then 0#8
    else (argBlock a.strings page).getD (n - (4096 - a.size)) 0#8 := by
  have hlen : (argBlock a.strings page).length = a.size := length_argBlock
  simp only [Args.page, hlen, pageSize]

theorem Args.pageByte_page {b : Byte} (h : (argBlock a.strings page)[k]? = some b) :
    pageByte (a.page page) (4096 - a.size + k) = b := by
  rw [Args.page_eq, pageByte_packPage, if_neg (by omega), Nat.add_sub_cancel_left,
    List.getD_eq_getElem?_getD, h, Option.getD_some]

/-- The words of the block that follow the strings. -/
theorem Args.page_word {w : Word} (hi : i < a.strings.length + 1)
    (h : ∀ k, k < 4 → (argBlock a.strings page)[argStart a.strings a.strings.length + (4 * i + k)]?
      = (wordBytes w)[k]?) : a.page page (1023 - a.strings.length + i) = w := by
  have hle := a.size_le
  have hsize : a.size = argStart a.strings a.strings.length + 4 * (a.strings.length + 1) := rfl
  rw [Args.page_eq]
  refine packPage_wordBytes ?_
  intro r hr
  rw [if_neg (by omega), List.getD_eq_getElem?_getD, List.getD_eq_getElem?_getD, ← h r hr]
  congr 2
  omega

/-- The byte a program reads at an address of the page. -/
def byteAt (pg : Nat → Word) (va : Vaddr) : Byte := pageByte pg (va.toNat % 4096)

def wordAt (pg : Nat → Word) (va : Vaddr) : Word := pg (wordIndex va)

/-- What a program finds that is started with `stackptr` and `argv`: at `argv` a pointer to each of
the strings and a last 0, and everything in the page below USERSTACK and above `stackptr`. -/
structure Args.Delivered (a : Args) (stackptr argv : Vaddr) (pg : Nat → Word) : Prop where
  low : userstack - pageSizeW ≤ stackptr
  high : argv.toNat + 4 * (a.strings.length + 1) = userstack.toNat
  pointer : ∀ i str, a.strings[i]? = some str → ∃ ptr : Vaddr,
    wordAt pg (argv + ofNat 32 (4 * i)) = ptr ∧ stackptr ≤ ptr ∧
      ptr.toNat + str.length < argv.toNat ∧
      (∀ k b, str[k]? = some b → byteAt pg (ptr + ofNat 32 k) = b) ∧
      byteAt pg (ptr + ofNat 32 str.length) = 0#8
  last : wordAt pg (argv + ofNat 32 (4 * a.strings.length)) = 0#32

/-- The block is where the stack pointer was put for it. -/
theorem Args.delivered (a : Args) {stackptr argv : Vaddr}
    (hsp : stackptr.toNat + a.size = userstack.toNat)
    (hargv : argv.toNat + 4 * (a.strings.length + 1) = userstack.toNat) :
    a.Delivered stackptr argv (a.page (userstack - pageSizeW)) := by
  have hle := a.size_le
  have hsize : a.size = argStart a.strings a.strings.length + 4 * (a.strings.length + 1) := rfl
  have htop : userstack.toNat = 2147483648 := rfl
  have hpage : (userstack - pageSizeW).toNat = 2147479552 := rfl
  have hword : ∀ i, i < a.strings.length + 1 →
      wordIndex (argv + ofNat 32 (4 * i)) = 1023 - a.strings.length + i := by
    intro i hi
    rw [toNat_wordIndex, toNat_add, toNat_ofNat]
    omega
  refine ⟨?_, hargv, ?_, ?_⟩
  · rw [le_def, hpage]
    omega
  · intro i str hx
    have hi : i < a.strings.length := (List.getElem?_eq_some_iff.mp hx).1
    have hlt := argStart_lt hx
    have hlen : (argBlock a.strings (userstack - pageSizeW)).length = a.size := length_argBlock
    have hptr : ((userstack - pageSizeW) + ofNat 32 (4096 - a.size + argStart a.strings i)
        : Vaddr).toNat = 2147479552 + (4096 - a.size + argStart a.strings i) := by
      rw [toNat_add, hpage, toNat_ofNat]
      omega
    have hbyte : ∀ k b, k < str.length + 1 → (str ++ [0#8])[k]? = some b →
        byteAt (a.page (userstack - pageSizeW)) ((userstack - pageSizeW) +
          ofNat 32 (4096 - a.size + argStart a.strings i) + ofNat 32 k) = b := by
      intro k b hk hb
      rw [← argBlock_string hx hk] at hb
      rw [← Args.pageByte_page hb, byteAt, toNat_add, hptr, toNat_ofNat]
      congr 1
      omega
    refine ⟨_, ?_, ?_, ?_, ?_, hbyte _ _ (by omega) ?_⟩
    · rw [wordAt, hword i (by omega)]
      refine Args.page_word (by omega) ?_
      intro k hk
      rw [argBlock_pointer hx hk, hlen]
      rfl
    · rw [le_def, hptr]
      omega
    · rw [hptr]
      omega
    · intro k b hb
      have hk := (List.getElem?_eq_some_iff.mp hb).1
      exact hbyte k b (by omega) (by rw [getElem?_append_left hk]; exact hb)
    · simp
  · rw [wordAt, hword _ (by omega)]
    exact Args.page_word (by omega) fun k hk => argBlock_last hk

end OS161
