import Vimscript.Numeral
import Vimscript.Text.Digits

/-!
# Written numbers read back

The digits that a number is written with are those that a literal is read from: no sign stands in
front of a number that is not negative, and no zero in front of other digits would make it octal.
-/

namespace Vimscript

namespace Text

/-- A natural number is written in digits. -/
theorem natural_isDigit (n : Nat) : (natural n).all Char.isDigit = true :=
  List.all_eq_true.mpr fun _ hc => Nat.isDigit_of_mem_toDigits (by decide) (by decide) hc

/-- It has at least one. -/
theorem natural_ne_nil (n : Nat) : natural n ≠ [] := Nat.toDigits_ne_nil

/-- No zero stands in front of the digits of a positive number. -/
theorem natural_head {n : Nat} (h : 0 < n) : (natural n).head? ≠ some '0' := by
  induction n using Nat.strongRecOn with
  | ind n ih =>
    by_cases hsmall : n < 10
    · rw [natural, Nat.toDigits_of_lt_base hsmall]
      have digits : ∀ d < 10, 0 < d → [Nat.digitChar d].head? ≠ some '0' := by decide
      exact digits n hsmall h
    · have hdiv : 0 < n / 10 := Nat.div_pos (by omega) (by decide)
      have hhead := ih (n / 10) (Nat.div_lt_self h (by decide)) hdiv
      rw [natural, Nat.toDigits_of_base_le (by decide) (by omega)]
      rw [natural] at hhead
      obtain ⟨c, rest, hdigits⟩ := List.exists_cons_of_ne_nil (Nat.toDigits_ne_nil (n := n / 10)
        (b := 10))
      rwa [hdigits] at hhead ⊢

end Text

namespace Numeral

/-- The value of a decimal digit is its distance from zero. -/
theorem digitValue?_of_isDigit {c : Char} (h : c.isDigit = true) :
    digitValue? c = some (c.toNat - '0'.toNat) ∧ c.toNat - '0'.toNat < 10 := by
  have hle := (Text.isDigit_iff.mp h).2
  refine ⟨if_pos h, ?_⟩
  have hzero : '0'.toNat = 48 := rfl
  omega

/-- Digits read behind others are worth what the decimal system says. -/
theorem valueFrom?_of_isDigit {high : Nat} {digits : List Char}
    (h : digits.all Char.isDigit = true) :
    valueFrom? 10 high digits = some (Nat.ofDigitChars 10 digits high) := by
  induction digits generalizing high with
  | nil => rfl
  | cons c rest ih =>
    obtain ⟨hc, hrest⟩ := Bool.and_eq_true_iff.mp (List.all_cons ▸ h)
    obtain ⟨hvalue, hlt⟩ := digitValue?_of_isDigit hc
    rw [valueFrom?, hvalue]
    dsimp only
    rw [if_pos hlt, ih hrest, Nat.ofDigitChars_cons, Nat.mul_comm]

/-- Digits without a zero in front are decimal. -/
theorem split_of_isDigit {digits : List Char} (hdigits : digits.all Char.isDigit = true)
    (hhead : digits.head? ≠ some '0' ∨ digits = ['0']) : split digits = (10, digits) := by
  rcases hhead with hhead | rfl
  · unfold split
    split
    · exact (hhead rfl).elim
    · rfl
  · rfl

/-- A number that fits is read back from the digits it is written with. -/
theorem decode?_natural {n : Nat} (h : n < bound) :
    decode? (Text.natural n) = some (Int64.ofNat n) := by
  have hsplit : split (Text.natural n) = (10, Text.natural n) := by
    refine split_of_isDigit (Text.natural_isDigit n) ?_
    by_cases hzero : n = 0
    · exact .inr (by rw [hzero]; rfl)
    · exact .inl (Text.natural_head (by omega))
  have hvalue : value? 10 (Text.natural n) = some n := by
    rw [value?, if_neg (Text.natural_ne_nil n), valueFrom?_of_isDigit (Text.natural_isDigit n),
      Text.natural, Nat.ofDigitChars_ten_toDigits]
  simp only [decode?, hsplit, hvalue, if_pos h]

/-- A word that is not negative is written as its digits and read back from them. -/
theorem decode?_integer {value : Int64} (h : 0 ≤ value.toInt) :
    Text.integer value.toInt = Text.natural value.toInt.natAbs ∧
      decode? (Text.integer value.toInt) = some value := by
  have htext : Text.integer value.toInt = Text.natural value.toInt.natAbs := by
    rw [Text.integer, if_neg (by omega)]
  refine ⟨htext, ?_⟩
  have hlt := value.toInt_lt
  rw [htext, decode?_natural (by unfold bound; omega)]
  refine congrArg some ?_
  rw [← Int64.ofInt_eq_ofNat, Int.natAbs_of_nonneg h, Int64.ofInt_toInt]

end Numeral

end Vimscript
