import Mathlib.Data.List.Induction
import OS161.Libc.PrintNumber

/-! `snprintf.c`: the callback stores what fits into the buffer. -/
namespace OS161

/-- `SNP`; `buflen` leaves out the place of the NUL. -/
structure SNP where
  buf : Nat → Char
  buflen : Nat
  bufpos : Nat

/-- The body of the loop of `__snprintf_send`. -/
def SNP.put (snp : SNP) (c : Char) : SNP :=
  if snp.bufpos < snp.buflen then
    { snp with buf := Function.update snp.buf snp.bufpos c, bufpos := snp.bufpos + 1 }
  else snp

def snprintfSend (snp : SNP) (data : List Char) : SNP := data.foldl SNP.put snp

/-- The count returned and the memory from `buf` on. -/
def vsnprintf (buf : Nat → Char) (len : Word) (fmt : List Char) (args : VaList) :
    Except Crash (Int × (Nat → Char)) :=
  let buflen := if len = 0#32 then 0 else len.toNat - 1
  (vprintf snprintfSend args ⟨buf, buflen, 0⟩ fmt).map fun r =>
    (r.1, if 0 < len.toNat then Function.update r.2.buf r.2.bufpos '\x00' else r.2.buf)

/-- What `snprintf` is to do with the text. -/
structure Truncates (buf : Nat → Char) (len : Word) (text : List Char) (chars : Int)
    (buf' : Nat → Char) : Prop where
  within : ∀ i, len.toNat ≤ i → buf' i = buf i
  stored : 0 < len.toNat → ∀ i < min text.length (len.toNat - 1), text[i]? = some (buf' i)
  terminated : 0 < len.toNat → buf' (min text.length (len.toNat - 1)) = '\x00'
  count : chars = text.length

section
variable {args : VaList} {fmt text : List Char} {snp : SNP} {i : Nat} {n : Int}

/-- The pieces do not matter: all of the text goes through the loop. -/
theorem vprintf_snprintfSend (h : vprintf collect args [] fmt = .ok (n, text)) :
    vprintf snprintfSend args snp fmt = .ok (n, text.foldl SNP.put snp) := by
  rw [vprintf_replay] at h ⊢
  cases hkeep : vprintf keep args [] fmt with
  | error e =>
    rw [hkeep] at h
    cases h
  | ok r =>
    rw [hkeep] at h
    obtain ⟨rfl, htext⟩ := Prod.mk.inj (Except.ok.inj h)
    have hflat : ∀ out, r.2.foldl collect out = out ++ r.2.flatten := by
      induction r.2 with
      | nil => simp
      | cons txt pieces ih => simp [ih, collect]
    rw [hflat, List.nil_append] at htext
    rw [← htext, List.foldl_flatten]
    rfl

/-- What is in the buffer after the text, and where the next character would go. -/
theorem foldl_put (buf : Nat → Char) (buflen : Nat) (text : List Char) :
    text.foldl SNP.put ⟨buf, buflen, 0⟩ =
      ⟨fun i => if i < buflen then text.getD i (buf i) else buf i, buflen,
        min text.length buflen⟩ := by
  induction text using List.reverseRecOn with
  | nil => simp
  | append_singleton text c ih =>
    rw [List.foldl_append, ih, List.foldl_cons, List.foldl_nil, SNP.put, List.length_append,
      List.length_singleton]
    simp only
    by_cases hlt : text.length < buflen
    · rw [if_pos (by omega), Nat.min_eq_left (by omega), Nat.min_eq_left (by omega)]
      congr 1
      funext i
      by_cases hi : i = text.length
      · subst hi
        simp [hlt]
      rw [Function.update_of_ne hi]
      obtain hi' | hi' := Nat.lt_or_gt_of_ne hi
      · simp [List.getElem?_append_left hi']
      · simp [List.getElem?_append_right (Nat.le_of_lt hi'), Nat.le_of_lt hi',
          show i - text.length ≠ 0 by omega]
    · rw [if_neg (by omega), Nat.min_eq_right (by omega), Nat.min_eq_right (by omega)]
      congr 1
      funext i
      split
      · simp [List.getElem?_append_left (show i < text.length by omega)]
      · rfl

/-- The memory after `vsnprintf`. -/
def truncated (buf : Nat → Char) (len : Nat) (text : List Char) : Nat → Char :=
  if 0 < len then
    Function.update (fun i => if i < len - 1 then text.getD i (buf i) else buf i)
      (min text.length (len - 1)) '\x00'
  else buf

theorem vsnprintf_eq (h : vprintf collect args [] fmt = .ok (n, text)) (buf : Nat → Char)
    (len : Word) : vsnprintf buf len fmt args = .ok (n, truncated buf len.toNat text) := by
  have hbuflen : (if len = 0#32 then 0 else len.toNat - 1) = len.toNat - 1 := by
    split
    · rename_i hzero
      rw [hzero]
      rfl
    · rfl
  rw [vsnprintf, vprintf_snprintfSend h, foldl_put, hbuflen, Except.map, truncated]
  by_cases hpos : 0 < len.toNat
  · simp only [if_pos hpos]
  · have hzero : len.toNat = 0 := by omega
    simp [hzero]

theorem truncates_iff (buf : Nat → Char) (len : Word) :
    Truncates buf len text n (truncated buf len.toNat text) ↔ n = text.length := by
  refine ⟨Truncates.count, fun hn => ?_⟩
  unfold truncated
  by_cases hpos : 0 < len.toNat
  · rw [if_pos hpos]
    refine ⟨fun i hi => ?_, fun _ i hi => ?_, fun _ => Function.update_self _ _ _, hn⟩
    · rw [Function.update_of_ne (by omega), if_neg (by omega)]
    have hlt : i < text.length := by omega
    rw [Function.update_of_ne (by omega), if_pos (by omega)]
    simp [hlt]
  · rw [if_neg hpos]
    exact ⟨fun _ _ => rfl, fun h => absurd h hpos, fun h => absurd h hpos, hn⟩

/-- For every format, arguments and length, `vsnprintf` truncates the text that `__vprintf`
produces, exactly if the number of characters in it is an `int`. -/
theorem snprintf_truncates_iff (buf : Nat → Char) (len : Word) (fmt : List Char) (args : VaList) :
    ∃ n text buf', vprintf collect args [] fmt = .ok (n, text) ∧
      vsnprintf buf len fmt args = .ok (n, buf') ∧
      (Truncates buf len text n buf' ↔ text.length < 2 ^ 31) := by
  obtain ⟨text, htext⟩ := vprintf_text args fmt
  refine ⟨_, text, _, htext, vsnprintf_eq htext buf len, ?_⟩
  rw [truncates_iff, int32_natCast_iff]

end

/-- `%2147483647d` -/
def hugeField : Conversion := ⟨[], 2147483647, .d⟩

theorem pfFormat_x (args : VaList) (pf : PF (List Char)) (txt : List Char)
    (hin : pf.inPct = false) :
    pfFormat collect args ['x'] (pf.extend txt) = .ok (pf.extend (txt ++ ['x'])) := by
  rw [pfFormat_cons (by decide), pfSend, if_neg (by decide), if_pos ⟨hin, by decide⟩,
    PF.counted_extend.print, PF.extend_extend]
  rfl

/-- The text of `"%2147483647dx"`. -/
theorem hugeField_text : ∃ text, text.length = 2 ^ 31 ∧
    vprintf collect fives [] (hugeField.chars ++ ['x']) = .ok (-2 ^ 31, text) := by
  obtain ⟨zero, spacing, hs, hfit, hrun⟩ := pfFormat_conversion fives PF.inv_start rfl hugeField
  have hspacing : spacing = 2147483647 := (hfit (by decide)).2
  have hchars := hugeField.numberChars_le 5#32
  generalize hlay : layout _ _ _ _ = field at hrun
  have hlen : field.length = max spacing.toNat (hugeField.numberChars 5#32) := by
    rw [← hlay]
    exact length_layout hs rfl (Nat.lt_of_le_of_lt hchars (by decide))
  have hformat : pfFormat collect fives (hugeField.chars ++ ['x']) (pfStart []) =
      .ok ((nextArg (pfStart [])).extend (field ++ ['x'])) := by
    rw [pfFormat_append (by decide), hrun]
    exact pfFormat_x fives (nextArg (pfStart [])) field rfl
  obtain ⟨text, htext⟩ := vprintf_text fives (hugeField.chars ++ ['x'])
  have hout := htext
  rw [vprintf, hformat] at hout
  have hlen' : text.length = 2 ^ 31 := by
    have htext' : field ++ ['x'] = text := congrArg Prod.snd (Except.ok.inj hout)
    rw [← htext', List.length_append, hlen, List.length_singleton]
    omega
  refine ⟨text, hlen', htext.trans ?_⟩
  rw [hlen', show int32 ((2 ^ 31 : Nat) : Int) = -2 ^ 31 by decide]

/-- The field is `INT_MAX` characters wide: with the character after it, the count wraps. -/
theorem huge_field_count_wraps : ∃ text buf', text.length = 2 ^ 31 ∧
    vprintf collect fives [] (hugeField.chars ++ ['x']) = .ok (-2 ^ 31, text) ∧
    vsnprintf (fun _ => ' ') 16#32 (hugeField.chars ++ ['x']) fives = .ok (-2 ^ 31, buf') ∧
    ¬Truncates (fun _ => ' ') 16#32 text (-2 ^ 31) buf' := by
  obtain ⟨text, hlen, htext⟩ := hugeField_text
  refine ⟨text, _, hlen, htext, vsnprintf_eq htext _ _, fun h => ?_⟩
  have := h.count
  omega

end OS161
