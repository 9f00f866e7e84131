import Vimscript.Decimal.Basic
import Vimscript.Decimal.Binary64

/-!
# The nearest double-precision number

A decimal is read as the double-precision number nearest to it, and of two that are equally near
as the one whose significand is even. Beyond the greatest finite value, by half a step or more,
lie the infinities.
-/

namespace Vimscript.Decimal

/-- The rank nearest to a fraction. The whole number of units in the fraction fixes the spacing
of the values around it; the fraction is then rounded to a multiple of that spacing. A rank past
the last finite one stands for infinity. -/
def rankOfFraction (numerator denominator : Nat) : Nat :=
  let scaled := numerator * Binary64.unitsOfOne
  let shift := Nat.log2 (scaled / denominator) - 52
  shift * Nat.pow 2 52 + roundHalfEven scaled (denominator * Nat.pow 2 shift)

/-- The rank nearest to a decimal. Exponents so large or so small that the answer cannot depend
on the digits are settled without computing a power of ten. -/
def nearestRank (d : Decimal) : Nat :=
  if d.digits = 0 then 0
  else if 400 < d.exponent then Binary64.ranks
  else if d.exponent + Nat.log2 d.digits + 400 < 0 then 0
  else rankOfFraction d.numerator d.denominator

/-- The double-precision number nearest to a decimal under a sign. -/
def toBinary64 (negative : Bool) (d : Decimal) : Binary64 :=
  if h : d.nearestRank < Binary64.ranks then .finite negative ⟨d.nearestRank, h⟩
  else .infinite negative

/-- The value of a run of decimal digits. -/
def natOfDigits (digits : List Char) : Nat := Nat.ofDigitChars 10 digits 0

/-- A sign at the front of a text, and the rest of the text. -/
def splitSign : List Char → Bool × List Char
  | '-' :: rest => (true, rest)
  | '+' :: rest => (false, rest)
  | text => (false, text)

/-- What follows the digits of a decimal: nothing, or `e` and a whole number. -/
def exponentOfText? : List Char → Option Int
  | [] => some 0
  | mark :: rest =>
    let signed := splitSign rest
    if (mark = 'e' ∨ mark = 'E') ∧ signed.2 ≠ [] ∧ signed.2.all Char.isDigit then
      some (if signed.1 then -(natOfDigits signed.2 : Int) else natOfDigits signed.2)
    else none

/-- The digits behind a decimal point, and what follows them. -/
def splitFraction : List Char → List Char × List Char
  | '.' :: rest => (rest.takeWhile Char.isDigit, rest.dropWhile Char.isDigit)
  | text => ([], text)

/-- A decimal without a sign: digits with at most one point among or around them, at least one
digit, and at most one exponent. -/
def ofText? (text : List Char) : Option Decimal :=
  let whole := text.takeWhile Char.isDigit
  let tail := splitFraction (text.dropWhile Char.isDigit)
  if whole = [] ∧ tail.1 = [] then none
  else (exponentOfText? tail.2).map fun exponent =>
    ⟨natOfDigits (whole ++ tail.1), exponent - tail.1.length⟩

end Vimscript.Decimal

namespace Vimscript.Binary64

/-- The number that a text denotes: a decimal or one of the words for the other values, in any
letter case, each with an optional sign. -/
def ofText? (text : List Char) : Option Binary64 :=
  let signed := Decimal.splitSign text
  let word := signed.2.map Char.toLower
  if word = "inf".toList ∨ word = "infinity".toList then some (.infinite signed.1)
  else if word = "nan".toList then some .nan
  else (Decimal.ofText? signed.2).map (Decimal.toBinary64 signed.1)

end Vimscript.Binary64
