/-!
# Decimals

A decimal is a whole number of digits moved by a power of ten. It is compared and divided as a
fraction of two natural numbers.
-/

namespace Vimscript

/-- The number `digits` times ten to the power of `exponent`. -/
structure Decimal where
  /-- The digits, read as a whole number. -/
  digits : Nat
  /-- The power of ten that scales them. -/
  exponent : Int
deriving DecidableEq, Repr

namespace Decimal

/-- The numerator of a decimal as a fraction. -/
def numerator (d : Decimal) : Nat := d.digits * Nat.pow 10 d.exponent.toNat

/-- The denominator of a decimal as a fraction. -/
def denominator (d : Decimal) : Nat := Nat.pow 10 (-d.exponent).toNat

/-- No fraction has a zero below its bar. -/
theorem denominator_pos (d : Decimal) : 0 < d.denominator := Nat.pow_pos (by decide)

/-- The quotient of two numbers rounded to the nearest whole number, a half to the even one. -/
def roundHalfEven (numerator denominator : Nat) : Nat :=
  let quotient := numerator / denominator
  let twice := 2 * (numerator % denominator)
  if twice < denominator then quotient
  else if denominator < twice then quotient + 1
  else quotient + quotient % 2

/-- The rounded quotient is within half a unit of the exact one. -/
theorem roundHalfEven_near (num den : Nat) (h : 0 < den) :
    2 * (roundHalfEven num den * den) ≤ 2 * num + den ∧
      2 * num ≤ 2 * (roundHalfEven num den * den) + den := by
  have exact : den * (num / den) + num % den = num := Nat.div_add_mod num den
  have small : num % den < den := Nat.mod_lt _ h
  have parity : num / den % 2 < 2 := Nat.mod_lt _ (by decide)
  have next : (num / den + 1) * den = den * (num / den) + den := by
    rw [Nat.add_mul, Nat.one_mul, Nat.mul_comm]
  have here : num / den * den = den * (num / den) := Nat.mul_comm ..
  unfold roundHalfEven
  dsimp only
  split
  · omega
  · split
    · omega
    · rcases Nat.lt_or_ge (num / den % 2) 1 with even | odd
      · have zero : num / den % 2 = 0 := by omega
        rw [zero, Nat.add_zero]; omega
      · have one : num / den % 2 = 1 := by omega
        rw [one]; omega

/-- A whole quotient is left as it is. -/
theorem roundHalfEven_mul (n den : Nat) (h : 0 < den) : roundHalfEven (n * den) den = n := by
  simp only [roundHalfEven, Nat.mul_div_cancel _ h, Nat.mul_mod_left, Nat.mul_zero, h, if_true]

end Decimal

end Vimscript
