import Mathlib.Tactic.IntervalCases
import OS161.Libc.Printf

/-! What the conversions `d`, `u`, `x`, `o` and `p` send, and the number read back from it. -/
namespace OS161

open Numeral (IsDigit digitValue)

inductive Conv where
  | d | u | x | o | p
  deriving DecidableEq, Repr

def Conv.char : Conv → Char
  | .d => 'd' | .u => 'u' | .x => 'x' | .o => 'o' | .p => 'p'

def Conv.base : Conv → Nat
  | .d | .u => 10
  | .x | .p => 16
  | .o => 8

/-- The number that a word is to the conversion. -/
def Conv.value (conv : Conv) (v : Word) : Int := if conv = .d then v.toInt else v.toNat

inductive Flag where
  | alt | left | zero
  deriving DecidableEq, Repr

def Flag.char : Flag → Char
  | .alt => '#' | .left => '-' | .zero => '0'

structure Conversion where
  flags : List Flag
  width : Nat
  conv : Conv

namespace Conversion
variable (c : Conversion) (v : Word)

/-- The conversion as it stands in a format. -/
def chars : List Char :=
  '%' :: (c.flags.map Flag.char ++ ((if c.width = 0 then [] else Nat.toDigits 10 c.width) ++
    [c.conv.char]))

def sign : List Char := if c.conv.value v < 0 then ['-'] else []

/-- The base prefix, if it is requested; `p` always requests it. -/
def pre : List Char := basePre (decide (Flag.alt ∈ c.flags ∨ c.conv = .p)) c.conv.base

def digits : List Char := c.conv.base.toDigits (c.conv.value v).natAbs

/-- The number of sign, prefix and digit characters. -/
def numberChars : Nat := (c.sign v).length + c.pre.length + (c.digits v).length

end Conversion

/-- A number without a sign: the prefix and then digits, which may begin with zeros. -/
def readUnsigned (base : Nat) (pre text : List Char) : Option Nat :=
  let digits := text.drop pre.length
  if text.take pre.length = pre ∧ digits ≠ [] ∧ digits.all (IsDigit base ·) then
    some (Numeral.value base digits)
  else none

/-- The number that a text is, after the blanks in it have been removed. -/
def readBack (base : Nat) (pre text : List Char) : Option Int :=
  let text := text.filter (· ≠ ' ')
  if text.head? = some '-' then (readUnsigned base pre text.tail).map fun n : Nat => -(n : Int)
  else (readUnsigned base pre text).map fun n : Nat => (n : Int)

/-- What the text of a conversion is to be. -/
structure Conversion.Exact (c : Conversion) (v : Word) (text : List Char) : Prop where
  length : text.length = max c.width (c.numberChars v)
  reads : readBack c.conv.base c.pre text = some (c.conv.value v)

section reading
variable {base : Nat} {pre ds : List Char} {c : Char}

theorem not_isDigit_blank (hb : base ≤ 16) : ¬IsDigit base ' ' := by
  have : digitValue ' ' = 16 := rfl
  unfold IsDigit
  omega

theorem not_isDigit_minus (hb : base ≤ 16) : ¬IsDigit base '-' := by
  have : digitValue '-' = 16 := rfl
  unfold IsDigit
  omega

theorem readUnsigned_append (hne : ds ≠ []) (hds : ∀ c ∈ ds, IsDigit base c) :
    readUnsigned base pre (pre ++ ds) = some (Numeral.value base ds) := by
  unfold readUnsigned
  simp only [List.take_left, List.drop_left]
  rw [if_pos ⟨trivial, hne, by simpa using hds⟩]

theorem readBack_append (hb : base ≤ 16) (hpre : ∀ c ∈ pre, c ≠ ' ' ∧ c ≠ '-') (hne : ds ≠ [])
    (hds : ∀ c ∈ ds, IsDigit base c) (i j : Nat) (neg : Prop) [Decidable neg] :
    readBack base pre (List.replicate i ' ' ++ (if neg then ['-'] else []) ++ pre ++ ds ++
      List.replicate j ' ') =
      some (if neg then -(Numeral.value base ds : Int) else Numeral.value base ds) := by
  have hfilter : ∀ l : List Char, (∀ c ∈ l, c ≠ ' ') → l.filter (· ≠ ' ') = l := fun l hl =>
    List.filter_eq_self.2 fun c hc => by simpa using hl c hc
  have hblank : ∀ n, (List.replicate n ' ').filter (· ≠ ' ') = [] := fun n => by simp
  have hpre' := hfilter pre fun c hc => (hpre c hc).1
  have hds' := hfilter ds fun c hc he => not_isDigit_blank hb (he ▸ hds c hc)
  have hnum : ∀ c ∈ pre ++ ds, c ≠ '-' := fun c hc => by
    obtain hc | hc := List.mem_append.1 hc
    · exact (hpre c hc).2
    · intro he
      exact not_isDigit_minus hb (he ▸ hds c hc)
  unfold readBack
  simp only [List.filter_append, hblank, hpre', hds', List.nil_append, List.append_nil]
  by_cases hneg : neg
  · simp only [if_pos hneg]
    rw [List.append_assoc]
    rw [show ['-'].filter (· ≠ ' ') = ['-'] from rfl, List.singleton_append, List.head?_cons,
      if_pos rfl, List.tail_cons, readUnsigned_append hne hds]
    rfl
  · simp only [if_neg hneg, List.filter_nil, List.nil_append]
    rw [if_neg, readUnsigned_append hne hds]
    · rfl
    · intro hhead
      exact hnum '-' (List.mem_of_mem_head? hhead) rfl

end reading

section layouts
variable {f : PfField} {pre pre2 stuff : List Char} {n : Nat} (hs : f.spacing < 2 ^ 31)
  (hn : pre.length + pre2.length + stuff.length = n) (hlen : n < 2 ^ 31)
include hs hn hlen

/-- The padding fills the field, on the side that the flags say. -/
theorem layout_eq : layout f pre pre2 stuff =
    let pad := List.replicate (f.spacing.toNat - n) f.fillchar
    if f.rightspc then pre ++ pre2 ++ stuff ++ pad
    else if f.fillchar = '0' then pre ++ pre2 ++ pad ++ stuff
    else pad ++ pre ++ pre2 ++ stuff := by
  have hsum : (pre.length + pre2.length + stuff.length : Int) = n := by omega
  have hint : int32 n = n := int32_eq (by omega) (by omega)
  unfold layout
  simp only [hsum, hint]
  by_cases hpos : f.spacing > n
  · have hspc : int32 (f.spacing - n) = f.spacing - n := int32_eq (by omega) (by omega)
    have hlt : 0 < f.spacing - n := by omega
    have hnat : (f.spacing - n).toNat = f.spacing.toNat - n := by omega
    simp only [if_pos hpos, hspc, hlt, hnat, true_and]
    cases f.rightspc <;> by_cases hz : f.fillchar = '0' <;> simp [hz]
  · have hzero : f.spacing.toNat - n = 0 := by omega
    simp only [if_neg hpos, hzero]
    simp

theorem length_layout : (layout f pre pre2 stuff).length = max f.spacing.toNat n := by
  rw [layout_eq hs hn hlen]
  split
  · simp only [List.length_append, List.length_replicate]
    omega
  · split <;> simp only [List.length_append, List.length_replicate] <;> omega

end layouts

/-- A format that has been read up to here. -/
def openField (alt left zero : Bool) (spacing : Int) : PfField :=
  { PfField.reset with
    inPct := true, altformat := alt, rightspc := left, spacing := spacing
    fillchar := if zero then '0' else ' ' }

section run
variable {pf : PF (List Char)} {args : VaList} {ch : Char} {format rest : List Char}
  {alt left zero : Bool} {spacing : Int}

theorem pfFormat_cons (hch : ch ≠ '\x00') :
    pfFormat collect args (ch :: rest) pf =
      pfSend collect pf args ch >>= pfFormat collect args rest :=
  if_neg hch

theorem pfFormat_append (hnul : '\x00' ∉ format) :
    pfFormat collect args (format ++ rest) pf =
      pfFormat collect args format pf >>= pfFormat collect args rest := by
  induction format generalizing pf with
  | nil => rfl
  | cons ch format ih =>
    have hch : ch ≠ '\x00' := fun h => hnul (by simp [h])
    have hformat : '\x00' ∉ format := fun h => hnul (List.mem_cons_of_mem ch h)
    rw [List.cons_append, pfFormat_cons hch, pfFormat_cons hch]
    cases pfSend collect pf args ch with
    | error e => rfl
    | ok pf' => exact ih hformat

variable {d : Nat} {f : PfField}

theorem pfFormat_modifier {f' : PfField} (hin : f.inPct = true) (hch : ch ∈ modifierChars)
    (hf : pfModifier f ch = .ok f') :
    pfFormat collect args (ch :: rest) (pf.setField f) =
      pfFormat collect args rest (pf.setField f') := by
  have hnul : ch ≠ '\x00' := fun h => absurd hch (h ▸ by decide)
  have hin' : (pf.setField f).inPct ≠ false := by
    rw [PF.setField_toPfField, hin]
    decide
  rw [pfFormat_cons hnul, pfSend, if_neg hnul, if_neg fun h => hin' h.1, if_neg hin', if_pos hch,
    PF.setField_toPfField, hf]
  rfl

theorem pfFormat_flag (flag : Flag) :
    pfFormat collect args (flag.char :: rest) (pf.setField (openField alt left zero 0)) =
      pfFormat collect args rest (pf.setField
        (openField (alt || flag = .alt) (left || flag = .left) (zero || flag = .zero) 0)) := by
  apply pfFormat_modifier rfl
  · cases flag <;> decide
  · cases flag <;> simp [Flag.char, pfModifier, openField]

theorem pfFormat_flags (flags : List Flag) :
    pfFormat collect args (flags.map Flag.char ++ rest) (pf.setField (openField alt left zero 0)) =
      pfFormat collect args rest (pf.setField
        (openField (alt || .alt ∈ flags) (left || .left ∈ flags) (zero || .zero ∈ flags) 0)) := by
  induction flags generalizing alt left zero with
  | nil => simp
  | cons flag flags ih =>
    rw [List.map_cons, List.cons_append, pfFormat_flag, ih]
    simp [Bool.or_assoc, eq_comm]

theorem pfModifier_digit (hd : d < 10) :
    pfModifier (openField alt left zero spacing) d.digitChar =
      .ok (if d = 0 ∧ spacing ≤ 0 then openField alt left true spacing
        else openField alt left zero (int32 (spacing * 10 + d))) := by
  interval_cases d
  · by_cases hs : 0 < spacing
    · simp [Nat.digitChar, pfModifier, openField, hs, Int.not_le.2 hs]
    · simp [Nat.digitChar, pfModifier, openField, hs, Int.not_lt.1 hs]
  all_goals simp [Nat.digitChar, pfModifier, openField]

theorem nul_not_mem_toDigits (w : Nat) : '\x00' ∉ Nat.toDigits 10 w := fun h =>
  absurd (Numeral.isDigit_of_mem_toDigits (by decide) (by decide) h) (by decide)

theorem digitChar_mem_modifierChars : ∀ d : Fin 10, d.val.digitChar ∈ modifierChars := by decide

theorem pfFormat_digit (hd : d < 10) :
    pfFormat collect args [d.digitChar] (pf.setField (openField alt left zero spacing)) =
      .ok (pf.setField (if d = 0 ∧ spacing ≤ 0 then openField alt left true spacing
          else openField alt left zero (int32 (spacing * 10 + d)))) :=
  pfFormat_modifier rfl (digitChar_mem_modifierChars ⟨d, hd⟩) (pfModifier_digit hd)

/-- Reading the field width. One that is no `int` leaves some `int` or other; where it has wrapped
to 0 or below, a 0 in it is taken for the flag. -/
theorem pfFormat_width (args : VaList) (pf : PF (List Char)) (alt left zero : Bool) {w : Nat}
    (hw : 0 < w) : ∃ (zero' : Bool) (spacing : Int), spacing < 2 ^ 31 ∧
    (w < 2 ^ 31 → zero' = zero ∧ spacing = w) ∧
    pfFormat collect args (Nat.toDigits 10 w) (pf.setField (openField alt left zero 0)) =
      .ok (pf.setField (openField alt left zero' spacing)) := by
  induction w using Nat.strong_induction_on with
  | _ w ih =>
    by_cases hlt : w < 10
    · refine ⟨zero, int32 w, int32_lt _, fun _ => ⟨rfl, int32_eq (by omega) (by omega)⟩, ?_⟩
      rw [Nat.toDigits_of_lt_base hlt, pfFormat_digit hlt, if_neg (by omega)]
      simp
    obtain ⟨zero', spacing, hs, hfit, hrun⟩ := ih (w / 10) (by omega) (by omega)
    have hmod : w % 10 < 10 := Nat.mod_lt w (by decide)
    rw [Nat.toDigits_of_base_le (by decide) (by omega),
      pfFormat_append (nul_not_mem_toDigits _), hrun]
    change ∃ zero'' spacing', _ ∧ _ ∧ pfFormat collect args [(w % 10).digitChar] _ = _
    rw [pfFormat_digit hmod]
    by_cases hflag : w % 10 = 0 ∧ spacing ≤ 0
    · refine ⟨true, spacing, hs, fun hsmall => ?_, by rw [if_pos hflag]⟩
      omega
    refine ⟨zero', _, int32_lt _, fun hsmall => ?_, by rw [if_neg hflag]⟩
    obtain ⟨hz, hsp⟩ := hfit (by omega)
    refine ⟨hz, ?_⟩
    rw [int32_eq (by omega) (by omega)]
    omega

theorem pfFormat_open (args : VaList) (h : pf.Inv) (hin : pf.inPct = false) (c : Conversion) :
    ∃ (zero : Bool) (spacing : Int), spacing < 2 ^ 31 ∧
      (c.width < 2 ^ 31 → zero = decide (.zero ∈ c.flags) ∧ spacing = c.width) ∧
      pfFormat collect args c.chars pf = pfFormat collect args [c.conv.char]
        (pf.setField (openField (.alt ∈ c.flags) (.left ∈ c.flags) zero spacing)) := by
  have hpct : pfSend collect pf args '%' =
      .ok (pf.setField (openField false false false 0)) := by
    rw [pfSend, if_neg (by decide), if_neg (by simp), if_pos hin, h.idle hin]
    rfl
  rw [Conversion.chars, pfFormat_cons (by decide), hpct]
  change ∃ zero spacing, _ ∧ _ ∧ pfFormat collect args _ _ = _
  rw [pfFormat_flags]
  simp only [Bool.false_or]
  by_cases hw : c.width = 0
  · refine ⟨_, 0, by decide, fun _ => ⟨rfl, by rw [hw]; rfl⟩, ?_⟩
    rw [if_pos hw, List.nil_append]
  obtain ⟨zero', spacing, hs, hfit, hrun⟩ := pfFormat_width args pf
    (.alt ∈ c.flags) (.left ∈ c.flags) (.zero ∈ c.flags) (Nat.pos_of_ne_zero hw)
  refine ⟨zero', spacing, hs, hfit, ?_⟩
  rw [if_neg hw, pfFormat_append (nul_not_mem_toDigits _), hrun]
  rfl

theorem toNat_neg_eq {v : Word} (h : v.toInt < 0) : (-v).toNat = v.toInt.natAbs := by
  rw [BitVec.toInt_eq_toNat_cond] at h ⊢
  split at h
  · omega
  rename_i hge
  rw [if_neg hge, BitVec.toNat_neg]
  omega

/-- `__pf_getnum` takes the argument apart into sign and magnitude. -/
theorem pfGetnum_conv (conv : Conv) (v : Word) (hf : f.sign = 0) :
    signPre (pfGetnum f v conv.char).sign = (if conv.value v < 0 then ['-'] else []) ∧
      (pfGetnum f v conv.char).num.toNat = (conv.value v).natAbs := by
  have hunsigned : ∀ f' : PfField, f'.sign = 0 → f'.num = v → conv.value v = v.toNat →
      signPre f'.sign = (if conv.value v < 0 then ['-'] else []) ∧
        f'.num.toNat = (conv.value v).natAbs := by
    intro f' hsign hnum hvalue
    rw [hsign, hnum, hvalue, if_neg (by omega)]
    exact ⟨rfl, rfl⟩
  cases conv with
  | d =>
    by_cases hneg : v.toInt < 0
    · have hget : pfGetnum f v 'd' = { f with sign := -1, num := -v } := by simp [pfGetnum, hneg]
      have hvalue : Conv.d.value v = v.toInt := rfl
      rw [Conv.char, hget, hvalue, if_pos hneg]
      exact ⟨rfl, toNat_neg_eq hneg⟩
    have hget : pfGetnum f v 'd' = { f with num := v } := by simp [pfGetnum, hneg]
    rw [Conv.char, hget]
    refine hunsigned _ hf rfl ?_
    rw [Conv.value, if_pos rfl, BitVec.toInt_eq_toNat_cond] at *
    split
    · rfl
    · omega
  | u | x | o | p => exact hunsigned _ hf rfl rfl

theorem pfSetbase_conv (conv : Conv) (f : PfField) : pfSetbase f conv.char =
    { f with
      base := conv.base, prefixed := f.prefixed || (f.altformat || decide (conv = .p)) } := by
  cases conv <;> rfl

theorem pfGetnum_layout (f : PfField) (v : Word) (ch : Char) :
    layout (pfGetnum f v ch) = layout f ∧ (pfGetnum f v ch).prefixed = f.prefixed ∧
      (pfGetnum f v ch).altformat = f.altformat := by
  unfold pfGetnum
  split
  · exact ⟨rfl, rfl, rfl⟩
  split
  · split <;> exact ⟨rfl, rfl, rfl⟩
  · exact ⟨rfl, rfl, rfl⟩

theorem number_parts (c : Conversion) (v : Word) (hf : pfSetbase (pfGetnum
    (openField (.alt ∈ c.flags) left zero spacing) v c.conv.char) c.conv.char = f) :
    layout f = layout (openField (.alt ∈ c.flags) left zero spacing) ∧
      signPre f.sign = c.sign v ∧ basePre f.prefixed f.base = c.pre ∧
      f.base.toDigits f.num.toNat = c.digits v := by
  obtain ⟨hsign, hnum⟩ := pfGetnum_conv c.conv v
    (show (openField (.alt ∈ c.flags) left zero spacing).sign = 0 from rfl)
  obtain ⟨hlay, hpre, halt⟩ :=
    pfGetnum_layout (openField (.alt ∈ c.flags) left zero spacing) v c.conv.char
  rw [pfSetbase_conv, hpre, halt] at hf
  subst hf
  refine ⟨hlay, hsign, ?_, ?_⟩
  · rw [Conversion.pre, Bool.decide_or]
    rfl
  · rw [Conversion.digits, ← hnum]

/-- The letter of a conversion prints the number with its sign and prefix. -/
theorem pfSend_conv (c : Conversion) (h : pf.Counted) :
    pfSend collect (pf.setField (openField (.alt ∈ c.flags) left zero spacing)) args c.conv.char =
      .ok (((nextArg pf).extend (layout (openField (.alt ∈ c.flags) left zero spacing)
        (c.sign (args.word pf.ap)) c.pre (c.digits (args.word pf.ap)))).setField .reset) := by
  have hconv : c.conv.char ∈ ['d', 'o', 'u', 'p', 'x'] := by cases c.conv <;> decide
  have hletter : c.conv.char ≠ '\x00' ∧ c.conv.char ∉ modifierChars := by cases c.conv <;> decide
  have hcounted : (pf.setField (openField (.alt ∈ c.flags) left zero spacing)).Counted := h
  obtain ⟨f, hf⟩ : ∃ f, pfSetbase (pfGetnum (openField (.alt ∈ c.flags) left zero spacing)
      (args.word pf.ap) c.conv.char) c.conv.char = f := ⟨_, rfl⟩
  obtain ⟨hlay, hsign, hpre, hdigits⟩ := number_parts c _ hf
  rw [pfSend, if_neg hletter.1, if_neg (by simp [openField]), if_neg (by simp [openField]), if_neg
    hletter.2, if_pos hconv, hcounted.number hconv hf, hlay, hsign, hpre, hdigits, Except.map]
  simp only [pfEndfield, PF.extend, PF.setField, nextArg]

theorem pfFormat_conversion (args : VaList) (h : pf.Inv) (hin : pf.inPct = false) (c : Conversion) :
    ∃ (zero : Bool) (spacing : Int), spacing < 2 ^ 31 ∧
      (c.width < 2 ^ 31 → zero = decide (.zero ∈ c.flags) ∧ spacing = c.width) ∧
      pfFormat collect args c.chars pf = .ok ((nextArg pf).extend
        (layout (openField (.alt ∈ c.flags) (.left ∈ c.flags) zero spacing)
          (c.sign (args.word pf.ap)) c.pre (c.digits (args.word pf.ap)))) := by
  obtain ⟨zero, spacing, hs, hfit, hrun⟩ := pfFormat_open args h hin c
  have hletter : c.conv.char ≠ '\x00' := by cases c.conv <;> decide
  have hself : ∀ txt, ((nextArg pf).extend txt).setField pf.toPfField = (nextArg pf).extend txt :=
    fun txt => by simp only [PF.extend, PF.setField, nextArg]
  refine ⟨zero, spacing, hs, hfit, ?_⟩
  rw [hrun, pfFormat_cons hletter, pfSend_conv c h.counted, ← h.idle hin, hself]
  rfl

end run

namespace Conversion
variable (c : Conversion) (v : Word)

theorem base_bounds (conv : Conv) : 8 ≤ conv.base ∧ conv.base ≤ 16 := by cases conv <;> decide

theorem mem_pre {ch : Char} (h : ch ∈ c.pre) : ch ≠ ' ' ∧ ch ≠ '-' := by
  have hcases : c.pre = ['0', 'x'] ∨ c.pre = ['0'] ∨ c.pre = [] := by
    unfold Conversion.pre basePre
    split
    · exact .inl rfl
    split
    · exact .inr (.inl rfl)
    · exact .inr (.inr rfl)
  obtain hpre | hpre | hpre := hcases <;> rw [hpre] at h <;> simp at h
  · obtain rfl | rfl := h <;> decide
  · rw [h]
    decide

theorem length_pre : c.pre.length ≤ 2 := by
  unfold Conversion.pre basePre
  split
  · exact Nat.le_refl 2
  split <;> simp

theorem natAbs_value_lt (conv : Conv) : (conv.value v).natAbs < 8 ^ 11 := by
  have hle := BitVec.toInt_lt (x := v)
  have hge := BitVec.le_toInt (x := v)
  unfold Conv.value
  split <;> omega

theorem numberChars_le : c.numberChars v ≤ 14 := by
  have hsign : (c.sign v).length ≤ 1 := by
    unfold Conversion.sign
    split <;> simp
  have hdigits : (c.digits v).length ≤ 11 := by
    refine Nat.toDigits_length _ _ _ (by decide) (Nat.lt_of_lt_of_le (natAbs_value_lt v c.conv) ?_)
    exact Nat.pow_le_pow_left (base_bounds c.conv).1 11
  have hpre := c.length_pre
  unfold numberChars
  omega

theorem readBack_numeral {ds : List Char} (hne : ds ≠ [])
    (hds : ∀ ch ∈ ds, IsDigit c.conv.base ch) (i j : Nat) :
    readBack c.conv.base c.pre
        (List.replicate i ' ' ++ c.sign v ++ c.pre ++ ds ++ List.replicate j ' ') =
      some (if c.conv.value v < 0 then -(Numeral.value c.conv.base ds : Int)
        else Numeral.value c.conv.base ds) :=
  readBack_append (base_bounds c.conv).2 (fun _ h => c.mem_pre h) hne hds i j _

theorem value_digits : Numeral.value c.conv.base (c.digits v) = (c.conv.value v).natAbs := by
  have := base_bounds c.conv
  exact Numeral.value_toDigits (by omega) this.2

theorem isDigit_digits {ch : Char} (h : ch ∈ c.digits v) : IsDigit c.conv.base ch := by
  have := base_bounds c.conv
  exact Numeral.isDigit_of_mem_toDigits (by omega) this.2 h

theorem isDigit_zero (conv : Conv) : IsDigit conv.base '0' := by cases conv <;> decide

theorem eq_zero_of_value (conv : Conv) (h : (conv.value v).natAbs = 0) : v = 0#32 := by
  rw [Int.natAbs_eq_zero, Conv.value] at h
  split at h
  · exact BitVec.toInt_inj.1 h
  · exact BitVec.eq_of_toNat_eq (Int.ofNat.inj h)

theorem value_zero (conv : Conv) : conv.value 0#32 = 0 := by cases conv <;> rfl

theorem readBack_value {ds : List Char} (hne : ds ≠ []) (hds : ∀ ch ∈ ds, IsDigit c.conv.base ch)
    (hvalue : Numeral.value c.conv.base ds = (c.conv.value v).natAbs) (i j : Nat) :
    readBack c.conv.base c.pre
        (List.replicate i ' ' ++ c.sign v ++ c.pre ++ ds ++ List.replicate j ' ') =
      some (c.conv.value v) := by
  rw [c.readBack_numeral v hne hds, hvalue]
  congr 1
  split <;> omega

theorem zeros_isDigit {ds : List Char} (hds : ∀ ch ∈ ds, IsDigit c.conv.base ch) {k : Nat}
    {ch : Char} (h : ch ∈ ds ∨ ch ∈ List.replicate k '0') : IsDigit c.conv.base ch := by
  obtain h | h := h
  · exact hds ch h
  · rw [List.eq_of_mem_replicate h]
    exact isDigit_zero c.conv

/-- Zeros behind the digits: the number is right only where there are none, or it is 0. -/
theorem readBack_zeros_iff (k : Nat) :
    readBack c.conv.base c.pre (c.sign v ++ c.pre ++ c.digits v ++ List.replicate k '0') =
      some (c.conv.value v) ↔ (0 < k → v = 0#32) := by
  have hread := c.readBack_numeral v
    (show c.digits v ++ List.replicate k '0' ≠ [] by simp [digits])
    (fun ch h => c.zeros_isDigit (fun ch => c.isDigit_digits v) (List.mem_append.1 h)) 0 0
  simp only [List.replicate_zero, List.nil_append, List.append_nil, ← List.append_assoc] at hread
  have hsome : ∀ x : Nat, some (if c.conv.value v < 0 then -(x : Int) else x) =
      some (c.conv.value v) ↔ x = (c.conv.value v).natAbs := by
    intro x
    rw [Option.some.injEq]
    split <;> omega
  rw [hread, Numeral.value_append_zeros, value_digits, hsome]
  have hbase := (base_bounds c.conv).1
  constructor
  · intro heq hk
    have hpow : 1 < c.conv.base ^ k := Nat.one_lt_pow (by omega) (by omega)
    refine eq_zero_of_value v c.conv (Nat.eq_zero_of_not_pos fun hpos => ?_)
    have := Nat.mul_lt_mul_of_pos_right hpow hpos
    omega
  · intro hzero
    obtain rfl | hk := Nat.eq_zero_or_pos k
    · rw [Nat.pow_zero, Nat.one_mul]
    · rw [hzero hk, value_zero]
      rfl

/-- The text of a field is right exactly if the width is an `int` and no zeros are put behind a
number other than 0. -/
theorem exact_layout_iff {zero : Bool} {spacing : Int} (hs : spacing < 2 ^ 31)
    (hfit : c.width < 2 ^ 31 → zero = decide (.zero ∈ c.flags) ∧ spacing = c.width) :
    c.Exact v (layout (openField (.alt ∈ c.flags) (.left ∈ c.flags) zero spacing) (c.sign v) c.pre
        (c.digits v)) ↔
      c.width < 2 ^ 31 ∧
        (.left ∈ c.flags → .zero ∈ c.flags → c.numberChars v < c.width → v = 0#32) := by
  have hn : c.numberChars v < 2 ^ 31 := Nat.lt_of_le_of_lt (c.numberChars_le v) (by decide)
  have hlen : (layout (openField (.alt ∈ c.flags) (.left ∈ c.flags) zero spacing) (c.sign v) c.pre
      (c.digits v)).length = max spacing.toNat (c.numberChars v) := length_layout hs rfl hn
  by_cases hw : c.width < 2 ^ 31
  swap
  · refine ⟨fun h => ?_, fun h => absurd h.1 hw⟩
    have := hlen.symm.trans h.length
    omega
  obtain ⟨rfl, rfl⟩ := hfit hw
  have hlay := layout_eq
    (f := openField (.alt ∈ c.flags) (.left ∈ c.flags) (.zero ∈ c.flags) c.width) hs
    (show _ = c.numberChars v from rfl) hn
  have hexact : c.Exact v _ ↔ _ := ⟨Exact.reads, Exact.mk hlen⟩
  rw [hexact, hlay]
  simp only [openField, Int.toNat_natCast, hw, true_and, decide_eq_true_eq]
  generalize hk : c.width - c.numberChars v = k
  have hlt : c.numberChars v < c.width ↔ 0 < k := by omega
  have hds : ∀ ch ∈ c.digits v, IsDigit c.conv.base ch := fun ch => c.isDigit_digits v
  have hne : c.digits v ≠ [] := Nat.toDigits_ne_nil
  by_cases hleft : Flag.left ∈ c.flags <;> by_cases hzero : Flag.zero ∈ c.flags
  · simp only [hleft, hzero, if_true, hlt, true_imp_iff]
    exact c.readBack_zeros_iff v k
  · simp only [hleft, hzero, if_true, if_false, false_imp_iff, implies_true, iff_true]
    simpa using c.readBack_value v hne hds (c.value_digits v) 0 k
  · simp only [hleft, hzero, if_true, if_false, false_imp_iff, iff_true]
    have h := c.readBack_value v (show List.replicate k '0' ++ c.digits v ≠ [] by simp [hne])
      (fun ch h => c.zeros_isDigit hds (List.mem_append.1 h).symm)
      (by rw [Numeral.value_zeros_append, value_digits]) 0 0
    simpa using h
  · simp only [hleft, hzero, if_false, false_imp_iff, iff_true]
    simpa using c.readBack_value v hne hds (c.value_digits v) k 0

end Conversion

/-- For every format, the count returned is the number of characters sent exactly if that is an
`int`. Wherever a conversion stands in a format, it sends a text that fills the field and is the
number when it is read back, exactly if the width is an `int` and the flags do not put zeros
behind a number other than 0. -/
theorem printed_numbers_read_back_iff (args : VaList) :
    (∀ format, ∃ n text, vprintf collect args [] format = .ok (n, text) ∧
      (n = text.length ↔ text.length < 2 ^ 31)) ∧
    ∀ before pf, pfFormat collect args before (pfStart []) = .ok pf → pf.inPct = false →
      ∀ c : Conversion, ∃ text, pfFormat collect args c.chars pf = .ok ((nextArg pf).extend text) ∧
        (c.Exact (args.word pf.ap) text ↔ c.width < 2 ^ 31 ∧ (.left ∈ c.flags → .zero ∈ c.flags →
          c.numberChars (args.word pf.ap) < c.width → args.word pf.ap = 0#32)) := by
  constructor
  · intro format
    obtain ⟨text, htext⟩ := vprintf_text args format
    exact ⟨_, text, htext, int32_natCast_iff text.length⟩
  intro before pf hbefore hin c
  obtain ⟨pf', hpf', hinv⟩ := PF.inv_start.format args before
  obtain rfl : pf = pf' := Except.ok.inj (hbefore.symm.trans hpf')
  obtain ⟨zero, spacing, hs, hfit, hrun⟩ := pfFormat_conversion args hinv hin c
  exact ⟨_, hrun, c.exact_layout_iff _ hs hfit⟩

/-- Every argument is 5, and every string is empty. -/
def fives : VaList := ⟨fun _ => 5#32, fun _ => []⟩

theorem printed_numbers_read_back_iff_five :
    ∃ text, pfFormat collect fives ['%', '#', '0', '1', '0', 'x'] (pfStart []) =
        .ok ((nextArg (pfStart [])).extend text) ∧
      (⟨[.alt, .zero], 10, .x⟩ : Conversion).Exact 5#32 text := by
  obtain ⟨text, hrun, hexact⟩ := (printed_numbers_read_back_iff fives).2 [] (pfStart []) rfl rfl
    ⟨[.alt, .zero], 10, .x⟩
  exact ⟨text, hrun, hexact.2 ⟨by decide, fun h => absurd h (by decide)⟩⟩

/-- `printf("%-05d", 5)` prints `50000`. -/
theorem left_zero_changes_number :
    vprintf collect fives [] ['%', '-', '0', '5', 'd'] = .ok (5, ['5', '0', '0', '0', '0']) ∧
      ¬(⟨[.left, .zero], 5, .d⟩ : Conversion).Exact 5#32 ['5', '0', '0', '0', '0'] := by
  refine ⟨by decide +kernel, fun h => ?_⟩
  have hzero := ((⟨[.left, .zero], 5, .d⟩ : Conversion).readBack_zeros_iff 5#32 4).mp h.reads
  exact absurd (hzero (by decide)) (by decide)

end OS161
