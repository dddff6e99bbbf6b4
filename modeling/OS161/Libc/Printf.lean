import OS161.Base
import OS161.Lib.Numeral

/-! `__printf.c`: what is printed goes out in pieces through the callback `send`. -/
namespace OS161

/-- `sizeof(long) * CHAR_BIT / 3 + 2`. -/
def numberBufSize : Nat := 4 * 8 / 3 + 2

/-- What `va_arg` finds: `int`, `long` and pointers all take a word. -/
structure VaList where
  word : Nat → Word
  /-- The string at an address, up to its NUL. -/
  str : Word → List Char

inductive IntSize where
  | intsz | longsz
  deriving DecidableEq, Repr

/-- The part of `PF` that describes the %-format being read; `prefixed` is `baseprefix`. -/
structure PfField where
  inPct : Bool
  size : IntSize
  num : Word
  sign : Int
  spacing : Int
  rightspc : Bool
  fillchar : Char
  base : Nat
  prefixed : Bool
  altformat : Bool

/-- As `__pf_endfield` leaves it. -/
def PfField.reset : PfField :=
  { inPct := false, size := .intsz, num := 0#32, sign := 0, spacing := 0, rightspc := false,
    fillchar := ' ', base := 0, prefixed := false, altformat := false }

def pfModifier (f : PfField) (ch : Char) : Except Crash PfField :=
  match ch with
  | '#' => .ok { f with altformat := true }
  | '-' => .ok { f with rightspc := true }
  | 'l' => .ok (if f.size = .longsz then f else { f with size := .longsz })
  | 'q' => .ok { f with size := .longsz }
  | '0' =>
    if 0 < f.spacing then .ok { f with spacing := int32 (f.spacing * 10) }
    else .ok { f with fillchar := '0' }
  | ch =>
    if '0' < ch ∧ ch ≤ '9' then
      .ok { f with spacing := int32 (f.spacing * 10 + ((ch.toNat : Int) - '0'.toNat)) }
    else .error .assertion

/-- `-signednum` is computed in the two's complement, and `num` is unsigned. -/
def pfGetnum (f : PfField) (arg : Word) (ch : Char) : PfField :=
  if ch = 'p' then { f with num := arg }
  else if ch = 'd' then
    if arg.toInt < 0 then { f with sign := -1, num := -arg } else { f with num := arg }
  else { f with num := arg }

def pfSetbase (f : PfField) (ch : Char) : PfField :=
  let base :=
    if ch = 'd' ∨ ch = 'u' then 10
    else if ch = 'x' ∨ ch = 'p' then 16
    else if ch = 'o' then 8
    else f.base
  { f with base := base, prefixed := f.prefixed || (f.altformat || ch = 'p') }

/-- `"0123456789abcdef"`. -/
def digitTable : List Char :=
  ['0', '1', '2', '3', '4', '5', '6', '7', '8', '9', 'a', 'b', 'c', 'd', 'e', 'f']

/-- The loop of `__pf_printnum`, which works from right to left: `x` is the text from the slot after
the next one on, and `slots` counts the slots of the buffer that are left. -/
def digitLoop (base : Nat) : Nat → Nat → List Char → Except Crash (List Char)
  | 0, _, _ => .error .outOfBounds
  | slots + 1, xnum, x =>
    let x := digitTable.getD (xnum % base) '\x00' :: x
    let xnum := xnum / base
    if 0 < xnum then digitLoop base slots xnum x else .ok x

/-- The state of `printf`; `ap` is the number of the next argument. -/
structure PF (σ : Type) extends PfField where
  clientdata : σ
  ap : Nat
  charcount : Int

def PF.setField {σ : Type} (pf : PF σ) (f : PfField) : PF σ :=
  { toPfField := f, clientdata := pf.clientdata, ap := pf.ap, charcount := pf.charcount }

@[simp] theorem PF.setField_toPfField {σ : Type} (pf : PF σ) (f : PfField) :
    (pf.setField f).toPfField = f := rfl

def pfEndfield {σ : Type} (pf : PF σ) : PF σ := pf.setField .reset

section printing
variable {σ : Type} (send : σ → List Char → σ) (pf : PF σ)

def pfPrint (txt : List Char) : PF σ :=
  { pf with
    clientdata := send pf.clientdata txt
    charcount := int32 (pf.charcount + txt.length) }

def pfFill : Nat → PF σ → PF σ
  | 0, pf => pf
  | spc + 1, pf => pfFill spc (pfPrint send pf [pf.fillchar])

/-- `if (p) __pf_fill(pf, spc)` -/
def pfFillIf (p : Prop) [Decidable p] (spc : Int) : PF σ :=
  if p then pfFill send spc.toNat pf else pf

def pfPrintstuff (pre pre2 stuff : List Char) : PF σ :=
  let len := int32 (pre.length + pre2.length + stuff.length)
  let spc := if pf.spacing > len then int32 (pf.spacing - len) else 0
  let pf := pfFillIf send pf (0 < spc ∧ pf.rightspc = false ∧ pf.fillchar ≠ '0') spc
  let pf := pfPrint send pf pre
  let pf := pfPrint send pf pre2
  let pf := pfFillIf send pf (0 < spc ∧ pf.rightspc = false ∧ pf.fillchar = '0') spc
  let pf := pfPrint send pf stuff
  pfFillIf send pf (0 < spc ∧ pf.rightspc = true) spc

/-- The base prefix. -/
def basePre (requested : Bool) (base : Nat) : List Char :=
  if requested = true ∧ base = 16 then ['0', 'x']
  else if requested = true ∧ base = 8 then ['0']
  else []

def signPre (sign : Int) : List Char := if sign ≠ 0 then ['-'] else []

/-- One slot of the buffer is the NUL's. -/
def pfPrintnum : Except Crash (PF σ) :=
  (digitLoop pf.base (numberBufSize - 1) pf.num.toNat []).map fun x =>
    pfPrintstuff send pf (signPre pf.sign) (basePre pf.prefixed pf.base) x

/-- A `char` as a string. -/
def charString (c : Char) : List Char := if c = '\x00' then [] else [c]

def modifierChars : List Char :=
  ['#', '-', 'q', 'l', '0', '1', '2', '3', '4', '5', '6', '7', '8', '9']

/-- `va_arg`. -/
def nextArg (pf : PF σ) : PF σ := { pf with ap := pf.ap + 1 }

variable (args : VaList)

/-- `%d` and the others. -/
def pfNumber (ch : Char) : Except Crash (PF σ) :=
  pfPrintnum send
    ((nextArg pf).setField (pfSetbase (pfGetnum pf.toPfField (args.word pf.ap) ch) ch))

def pfString : PF σ :=
  let addr := args.word pf.ap
  let str := if addr = 0#32 then ['(', 'n', 'u', 'l', 'l', ')'] else args.str addr
  pfPrintstuff send (nextArg pf) [] [] str

/-- `%c`; any other character is printed as it is. -/
def pfChar (ch : Char) : PF σ :=
  if ch = 'c' then
    pfPrintstuff send (nextArg pf) [] []
      (charString (Char.ofNat ((args.word pf.ap).toNat % 256)))
  else pfPrintstuff send pf [] [] (charString ch)

def pfSend (ch : Char) : Except Crash (PF σ) :=
  if ch = '\x00' then .error .assertion
  else if pf.inPct = false ∧ ch ≠ '%' then .ok (pfPrint send pf [ch])
  else if pf.inPct = false then .ok { pf with inPct := true }
  else if ch ∈ modifierChars then
    (pfModifier pf.toPfField ch).map pf.setField
  else if ch ∈ ['d', 'o', 'u', 'p', 'x'] then (pfNumber send pf args ch).map pfEndfield
  else if ch = 's' then .ok (pfEndfield (pfString send pf args))
  else .ok (pfEndfield (pfChar send pf args ch))

/-- The loop of `__vprintf`. -/
def pfFormat : List Char → PF σ → Except Crash (PF σ)
  | [], pf => .ok pf
  | ch :: format, pf => if ch = '\x00' then .ok pf else pfSend send pf args ch >>= pfFormat format

/-- `PF pf` as `__vprintf` sets it up. -/
def pfStart (clientdata : σ) : PF σ :=
  { toPfField := .reset, clientdata := clientdata, ap := 0, charcount := 0 }

/-- The characters counted, and the client's data after the session. -/
def vprintf (clientdata : σ) (format : List Char) : Except Crash (Int × σ) :=
  (pfFormat send args format (pfStart clientdata)).map fun pf => (pf.charcount, pf.clientdata)

end printing

section callback
variable {σ : Type} (send : σ → List Char → σ) (d : σ)

/-- The callback that keeps the pieces it is called with. -/
def keep (pieces : List (List Char)) (txt : List Char) : List (List Char) := pieces ++ [txt]

/-- The session with `send` that has sent the pieces. -/
def PF.replay (pf : PF (List (List Char))) : PF σ :=
  { toPfField := pf.toPfField, clientdata := pf.clientdata.foldl send d, ap := pf.ap,
    charcount := pf.charcount }

variable {send d} {pf : PF (List (List Char))} {args : VaList} {ch : Char} {format : List Char}

theorem pfPrint_replay (txt : List Char) :
    pfPrint send (pf.replay send d) txt = (pfPrint keep pf txt).replay send d := by
  simp [pfPrint, PF.replay, keep, List.foldl_append]

theorem pfFill_replay (spc : Nat) :
    pfFill send spc (pf.replay send d) = (pfFill keep spc pf).replay send d := by
  induction spc generalizing pf with
  | zero => rfl
  | succ spc ih =>
    rw [pfFill, pfFill, pfPrint_replay, ih]
    rfl

theorem pfFillIf_replay (p : Prop) [Decidable p] (spc : Int) :
    pfFillIf send (pf.replay send d) p spc = (pfFillIf keep pf p spc).replay send d := by
  unfold pfFillIf
  split
  · exact pfFill_replay _
  · rfl

theorem pfPrintstuff_replay (pf : PF (List (List Char))) (pre pre2 stuff : List Char) :
    pfPrintstuff send (pf.replay send d) pre pre2 stuff =
      (pfPrintstuff keep pf pre pre2 stuff).replay send d := by
  unfold pfPrintstuff
  simp only [pfFillIf_replay, pfPrint_replay]
  rfl

theorem pfPrintnum_replay (pf : PF (List (List Char))) :
    pfPrintnum send (pf.replay send d) = (pfPrintnum keep pf).map (PF.replay send d) := by
  change Except.map _ (digitLoop pf.base _ pf.num.toNat []) = Except.map _ (Except.map _ _)
  cases digitLoop pf.base (numberBufSize - 1) pf.num.toNat [] with
  | error e => rfl
  | ok x => exact congrArg Except.ok (pfPrintstuff_replay pf _ _ _)

theorem pfNumber_replay :
    pfNumber send (pf.replay send d) args ch =
      (pfNumber keep pf args ch).map (PF.replay send d) := by
  exact pfPrintnum_replay ((nextArg pf).setField _)

theorem pfString_replay :
    pfString send (pf.replay send d) args = (pfString keep pf args).replay send d :=
  pfPrintstuff_replay (nextArg pf) _ _ _

theorem pfChar_replay :
    pfChar send (pf.replay send d) args ch = (pfChar keep pf args ch).replay send d := by
  unfold pfChar
  split
  · exact pfPrintstuff_replay (nextArg pf) _ _ _
  · exact pfPrintstuff_replay pf _ _ _

theorem pfSend_replay :
    pfSend send (pf.replay send d) args ch = (pfSend keep pf args ch).map (PF.replay send d) := by
  have hfield : (pf.replay send d).toPfField = pf.toPfField := rfl
  unfold pfSend
  rw [hfield]
  split
  · rfl
  split
  · exact congrArg Except.ok (pfPrint_replay _)
  split
  · rfl
  split
  · cases pfModifier pf.toPfField ch <;> rfl
  split
  · rw [pfNumber_replay]
    cases pfNumber keep pf args ch <;> rfl
  split
  · rw [pfString_replay]
    rfl
  · rw [pfChar_replay]
    rfl

theorem pfFormat_replay :
    pfFormat send args format (pf.replay send d) =
      (pfFormat keep args format pf).map (PF.replay send d) := by
  induction format generalizing pf with
  | nil => rfl
  | cons ch format ih =>
    unfold pfFormat
    split
    · rfl
    rw [pfSend_replay]
    cases pfSend keep pf args ch with
    | error e => rfl
    | ok pf => exact ih

/-- A session with `send` is the session that keeps the pieces, with `send` called for each. -/
theorem vprintf_replay : vprintf send args d format =
    (vprintf keep args [] format).map fun r => (r.1, r.2.foldl send d) := by
  change (pfFormat send args format (PF.replay send d (pfStart []))).map _ = _
  rw [pfFormat_replay, vprintf]
  cases pfFormat keep args format (pfStart []) <;> rfl

end callback

theorem digitTable_fin : ∀ d : Fin 16, digitTable.getD d.val '\x00' = d.val.digitChar := by
  decide

theorem digitTable_digitChar {d : Nat} (h : d < 16) :
    digitTable.getD d '\x00' = d.digitChar := digitTable_fin ⟨d, h⟩

variable {x : List Char} {base n slots : Nat}

/-- The loop writes one digit in front of `x` and goes on with the others. -/
theorem digitLoop_succ (hb : 1 < base) (hb' : base ≤ 16) :
    digitLoop base (slots + 1) n x =
      if n < base then .ok (base.toDigits n ++ x)
      else digitLoop base slots (n / base) ((n % base).digitChar :: x) := by
  have hmod : n % base < base := Nat.mod_lt n (by omega)
  rw [digitLoop, digitTable_digitChar (by omega)]
  by_cases hlt : n < base
  · rw [if_pos hlt, Nat.div_eq_of_lt hlt, Nat.toDigits_of_lt_base hlt, Nat.mod_eq_of_lt hlt]
    rfl
  · have hpos : 0 < n / base := Nat.div_pos (by omega) (by omega)
    rw [if_neg hlt]
    simp only [hpos, if_true]

/-- It stays within the slots that the number needs. -/
theorem digitLoop_eq (hb : 1 < base) (hb' : base ≤ 16) (hn : n < base ^ (slots + 1)) :
    digitLoop base (slots + 1) n x = .ok (base.toDigits n ++ x) := by
  induction slots generalizing n x with
  | zero => rw [digitLoop_succ hb hb', if_pos (by simpa using hn)]
  | succ slots ih =>
    rw [digitLoop_succ hb hb']
    split
    · rfl
    rename_i hge
    have hdiv : n / base < base ^ (slots + 1) :=
      Nat.div_lt_of_lt_mul (by rwa [Nat.mul_comm, ← Nat.pow_succ])
    rw [ih hdiv, Nat.toDigits_of_base_le hb (Nat.not_lt.1 hge), List.append_assoc,
      List.singleton_append]

/-- The buffer is large enough for 32 bits in base 8. -/
theorem digitLoop_word (hb : 8 ≤ base) (hb' : base ≤ 16) (n : Word) :
    digitLoop base (numberBufSize - 1) n.toNat [] = .ok (base.toDigits n.toNat) := by
  have hpow : 8 ^ (10 + 1) ≤ base ^ (10 + 1) := Nat.pow_le_pow_left hb _
  have hlt : n.toNat < base ^ (10 + 1) :=
    Nat.lt_of_lt_of_le (Nat.lt_trans n.isLt (by decide)) hpow
  rw [show numberBufSize - 1 = 10 + 1 from rfl, digitLoop_eq (by omega) hb' hlt, List.append_nil]

theorem pfSetbase_base {f : PfField} {ch : Char} (h : ch ∈ ['d', 'o', 'u', 'p', 'x']) :
    8 ≤ (pfSetbase f ch).base ∧ (pfSetbase f ch).base ≤ 16 := by
  simp only [List.mem_cons, List.not_mem_nil, or_false] at h
  obtain rfl | rfl | rfl | rfl | rfl := h <;> simp [pfSetbase]

/-- The callback that puts the text together. -/
def collect (out txt : List Char) : List Char := out ++ txt

/-- The session after more text. -/
def PF.extend (pf : PF (List Char)) (txt : List Char) : PF (List Char) :=
  { pf with
    clientdata := pf.clientdata ++ txt
    charcount := int32 (pf.clientdata ++ txt).length }

/-- The count is that of the text, as an `int`. -/
def PF.Counted (pf : PF (List Char)) : Prop := pf.charcount = int32 pf.clientdata.length

/-- How `__pf_printstuff` lays out the parts of a field. -/
def layout (f : PfField) (pre pre2 stuff : List Char) : List Char :=
  let len := int32 (pre.length + pre2.length + stuff.length)
  let spc := if f.spacing > len then int32 (f.spacing - len) else 0
  let pad := List.replicate spc.toNat f.fillchar
  (if 0 < spc ∧ f.rightspc = false ∧ f.fillchar ≠ '0' then pad else []) ++ pre ++ pre2 ++
    (if 0 < spc ∧ f.rightspc = false ∧ f.fillchar = '0' then pad else []) ++ stuff ++
    (if 0 < spc ∧ f.rightspc = true then pad else [])

section text
variable {pf : PF (List Char)} {txt txt' : List Char} {args : VaList} {ch : Char}

theorem PF.extend_extend : (pf.extend txt).extend txt' = pf.extend (txt ++ txt') := by
  simp [PF.extend]

theorem PF.counted_extend : (pf.extend txt).Counted := by
  simp only [PF.Counted, PF.extend]

section
variable (h : pf.Counted)
include h

theorem PF.Counted.extend_nil : pf.extend [] = pf := by
  unfold PF.extend
  rw [List.append_nil, ← h]

theorem PF.Counted.print : pfPrint collect pf txt = pf.extend txt := by
  unfold pfPrint PF.extend collect
  rw [h, int32_add, List.length_append, Nat.cast_add]

theorem PF.Counted.fill (spc : Nat) :
    pfFill collect spc pf = pf.extend (List.replicate spc pf.fillchar) := by
  induction spc generalizing pf with
  | zero => exact h.extend_nil.symm
  | succ spc ih =>
    rw [pfFill, h.print, ih PF.counted_extend, PF.extend_extend, List.replicate_succ]
    rfl

theorem PF.Counted.fillIf (p : Prop) [Decidable p] (spc : Int) :
    pfFillIf collect pf p spc =
      pf.extend (if p then List.replicate spc.toNat pf.fillchar else []) := by
  unfold pfFillIf
  split
  · exact h.fill _
  · exact h.extend_nil.symm

theorem PF.Counted.printstuff (pre pre2 stuff : List Char) :
    pfPrintstuff collect pf pre pre2 stuff = pf.extend (layout pf.toPfField pre pre2 stuff) := by
  unfold pfPrintstuff
  simp only [h.fillIf, PF.counted_extend.print, PF.counted_extend.fillIf, PF.extend_extend]
  rfl

theorem PF.Counted.number (hch : ch ∈ ['d', 'o', 'u', 'p', 'x']) {f : PfField}
    (hf : pfSetbase (pfGetnum pf.toPfField (args.word pf.ap) ch) ch = f) :
    pfNumber collect pf args ch = .ok (((nextArg pf).setField f).extend
      (layout f (signPre f.sign) (basePre f.prefixed f.base) (f.base.toDigits f.num.toNat))) := by
  have hbase := pfSetbase_base (f := pfGetnum pf.toPfField (args.word pf.ap) ch) hch
  have hcounted : ((nextArg pf).setField f).Counted := h
  rw [hf] at hbase
  unfold pfNumber
  rw [hf, pfPrintnum]
  simp only [PF.setField] at hcounted ⊢
  rw [digitLoop_word hbase.1 hbase.2, Except.map, hcounted.printstuff]

/-- What holds of every session: the count, and that nothing is left of a format that is over. -/
structure PF.Inv (pf : PF (List Char)) : Prop where
  counted : pf.Counted
  idle : pf.inPct = false → pf.toPfField = .reset

omit h in
theorem pfModifier_ok {f : PfField} (hch : ch ∈ modifierChars) :
    ∃ f', pfModifier f ch = .ok f' ∧ f'.inPct = f.inPct := by
  simp only [modifierChars, List.mem_cons, List.not_mem_nil, or_false] at hch
  obtain rfl | rfl | rfl | rfl | rfl | rfl | rfl | rfl | rfl | rfl | rfl | rfl | rfl | rfl := hch
  case inr.inr.inr.inl =>
    refine ⟨_, rfl, ?_⟩
    split <;> rfl
  case inr.inr.inr.inr.inl =>
    by_cases hs : 0 < f.spacing
    · exact ⟨_, if_pos hs, rfl⟩
    · exact ⟨_, if_neg hs, rfl⟩
  all_goals exact ⟨_, rfl, rfl⟩

theorem PF.Inv.endfield : (pfEndfield pf).Inv := ⟨h, fun _ => rfl⟩

end

theorem PF.Inv.send (h : pf.Inv) (args : VaList) (hch : ch ≠ '\x00') :
    ∃ pf', pfSend collect pf args ch = .ok pf' ∧ pf'.Inv := by
  have hnext : (nextArg pf).Counted := h.counted
  unfold pfSend
  rw [if_neg hch]
  split
  · rw [h.counted.print]
    exact ⟨_, rfl, PF.counted_extend, h.idle⟩
  split
  · exact ⟨_, rfl, h.counted, fun hin => (by cases hin)⟩
  split
  · rename_i hstart hmod
    obtain ⟨f, hf, hin⟩ := pfModifier_ok (f := pf.toPfField) hmod
    rw [hf]
    refine ⟨_, rfl, h.counted, fun hidle => ?_⟩
    exact absurd (hin.symm.trans hidle) hstart
  split
  · rename_i hconv
    rw [h.counted.number hconv rfl]
    exact ⟨_, rfl, .endfield PF.counted_extend⟩
  split
  · rw [pfString, hnext.printstuff]
    exact ⟨_, rfl, .endfield PF.counted_extend⟩
  unfold pfChar
  split
  · rw [hnext.printstuff]
    exact ⟨_, rfl, .endfield PF.counted_extend⟩
  · rw [h.counted.printstuff]
    exact ⟨_, rfl, .endfield PF.counted_extend⟩

theorem PF.Inv.format (h : pf.Inv) (args : VaList) (format : List Char) :
    ∃ pf', pfFormat collect args format pf = .ok pf' ∧ pf'.Inv := by
  induction format generalizing pf with
  | nil => exact ⟨pf, rfl, h⟩
  | cons ch format ih =>
    unfold pfFormat
    split
    · exact ⟨pf, rfl, h⟩
    rename_i hch
    obtain ⟨pf', hsend, hinv⟩ := h.send args hch
    rw [hsend]
    exact ih hinv

theorem PF.inv_start : (pfStart []).Inv := ⟨by simp [PF.Counted, pfStart, int32], fun _ => rfl⟩

/-- Every session ends, and returns the length of its text as an `int`. -/
theorem vprintf_text (args : VaList) (format : List Char) :
    ∃ text, vprintf collect args [] format = .ok (int32 text.length, text) := by
  obtain ⟨pf, hformat, hinv⟩ := PF.inv_start.format args format
  refine ⟨pf.clientdata, ?_⟩
  rw [vprintf, hformat, ← hinv.counted]
  rfl

end text

end OS161
