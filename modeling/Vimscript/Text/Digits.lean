/-!
# Whole numbers as text

Numbers appear in messages, spans and literals in plain decimal digits, a negative one behind a
minus sign.
-/

namespace Vimscript.Text

/-- The decimal digits of a natural number. -/
def natural (n : Nat) : List Char := Nat.toDigits 10 n

/-- The decimal digits of a whole number behind its sign. -/
def integer (n : Int) : List Char :=
  if n < 0 then '-' :: natural n.natAbs else natural n.natAbs

end Vimscript.Text
