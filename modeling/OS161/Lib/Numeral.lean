import Mathlib.Data.Nat.Digits.Defs

/-! Numerals of the bases up to 16, most significant digit first. -/
namespace Numeral

variable {b n k : Nat} {c : Char} {cs : List Char}

/-- The value of a digit character; 16 for a character that is none. -/
def digitValue (c : Char) : Nat :=
  ['0', '1', '2', '3', '4', '5', '6', '7', '8', '9', 'a', 'b', 'c', 'd', 'e', 'f'].idxOf c

def IsDigit (b : Nat) (c : Char) : Prop := digitValue c < b

instance : Decidable (IsDigit b c) := inferInstanceAs (Decidable (digitValue c < b))

def value (b : Nat) (cs : List Char) : Nat := cs.foldl (fun n c => b * n + digitValue c) 0

theorem digitValue_digitChar_fin : ∀ d : Fin 16, digitValue d.val.digitChar = d.val := by decide

theorem digitValue_digitChar (h : n < 16) : digitValue n.digitChar = n :=
  digitValue_digitChar_fin ⟨n, h⟩

theorem value_concat : value b (cs ++ [c]) = b * value b cs + digitValue c := by
  rw [value, List.foldl_append]
  rfl

/-- Writing a number and reading it back. -/
theorem value_toDigits (hb : 1 < b) (hb' : b ≤ 16) : value b (b.toDigits n) = n := by
  induction n using Nat.strong_induction_on with
  | _ n ih =>
    rw [Nat.toDigits_eq_if hb]
    split
    · have hval := digitValue_digitChar (n := n) (by omega)
      simp [value, hval]
    · have hmod : n % b < b := Nat.mod_lt n (by omega)
      have hdiv : n / b < n := Nat.div_lt_self (by omega) hb
      rw [value_concat, ih _ hdiv, digitValue_digitChar (by omega), Nat.div_add_mod]

theorem isDigit_of_mem_toDigits (hb : 1 < b) (hb' : b ≤ 16) (h : c ∈ b.toDigits n) :
    IsDigit b c := by
  induction n using Nat.strong_induction_on with
  | _ n ih =>
    have hlast : ∀ d < b, IsDigit b d.digitChar := fun d hd => by
      rw [IsDigit, digitValue_digitChar (by omega)]
      exact hd
    rw [Nat.toDigits_eq_if hb] at h
    split at h
    · rename_i hlt
      rw [List.mem_singleton.1 h]
      exact hlast n hlt
    · obtain h | h := List.mem_append.1 h
      · exact ih _ (Nat.div_lt_self (by omega) hb) h
      · rw [List.mem_singleton.1 h]
        exact hlast _ (Nat.mod_lt n (by omega))

/-- Zeros in front do not count, -/
theorem value_zeros_append : value b (List.replicate k '0' ++ cs) = value b cs := by
  induction k with
  | zero => rfl
  | succ k ih =>
    exact ih

/-- and zeros behind multiply. -/
theorem value_append_zeros : value b (cs ++ List.replicate k '0') = b ^ k * value b cs := by
  induction k with
  | zero => simp
  | succ k ih =>
    rw [List.replicate_succ', ← List.append_assoc, value_concat, ih, Nat.pow_succ,
      show digitValue '0' = 0 from rfl, Nat.add_zero]
    ac_rfl

end Numeral
