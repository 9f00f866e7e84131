import Vimscript.Decimal.Shortest
import Vimscript.Text.Digits

/-!
# How double-precision numbers are written

Values whose leading digit stands for a power of ten from minus four to fifteen are written
positionally, with at least one digit behind the point. Others are written as a leading digit,
the remaining digits behind a point, and an exponent. The grammar wants a point in every float,
so the source form adds a zero behind a leading digit that stands alone.
-/

namespace Vimscript.Decimal

/-- The digits of a decimal without the zeros at their end. -/
def significantDigits (d : Decimal) : List Char :=
  ((Nat.toDigits 10 d.digits).reverse.dropWhile (· == '0')).reverse

/-- How far right of the point the digits of a decimal begin: the value is a point, the digits,
and ten to this power. -/
def pointPosition (d : Decimal) : Int := digitCount d.digits + d.exponent

/-- The positional form of digits whose point stands at the given place. -/
def positional (digits : List Char) (point : Int) : List Char :=
  if point ≤ 0 then
    "0.".toList ++ List.replicate (-point).toNat '0' ++ digits
  else if point < digits.length then
    digits.take point.toNat ++ '.' :: digits.drop point.toNat
  else
    digits ++ List.replicate (point.toNat - digits.length) '0' ++ ".0".toList

/-- The form with an exponent: one digit before the point. -/
def scientific (pointed : Bool) (digits : List Char) (point : Int) : List Char :=
  let fraction := match digits.drop 1 with
    | [] => if pointed then ".0".toList else []
    | rest => '.' :: rest
  digits.take 1 ++ fraction ++ 'e' :: Text.integer (point - 1)

/-- The text of a positive decimal; `pointed` asks for a point in either form. -/
def text (pointed : Bool) (d : Decimal) : List Char :=
  let point := d.pointPosition
  if -4 < point ∧ point ≤ 16 then positional d.significantDigits point
  else scientific pointed d.significantDigits point

end Vimscript.Decimal

namespace Vimscript.Binary64

/-- A sign in front of a text. -/
def signed (negative : Bool) (text : List Char) : List Char :=
  if negative then '-' :: text else text

/-- The text of a number; `pointed` asks for a point in every finite one. -/
def text (pointed : Bool) : Binary64 → List Char
  | .nan => "NaN".toList
  | .infinite negative => signed negative "inf".toList
  | .finite negative rank =>
    if rank.val = 0 then signed negative "0.0".toList
    else signed negative ((Decimal.shortest rank.val).text pointed)

/-- The source form of a number, which the grammar reads as a float. -/
def sourceText (x : Binary64) : List Char := x.text true

/-- The form of a number in outlines and prefix forms. -/
def plainText (x : Binary64) : List Char := x.text false

end Vimscript.Binary64
