import Vimscript.Decimal.Nearest

/-!
# The shortest decimal of a double-precision number

A finite value is written with the fewest digits that read back to it. For one digit, then two,
and so on up to seventeen, the two neighbours of the value among the decimals of that many digits
are tried, the nearer first and the upper one where both are equally near. Should none read back,
the exact decimal expansion stands in, so whatever is written reads back.
-/

namespace Vimscript.Decimal

/-- The number of decimal digits of a positive number. -/
def digitCount (n : Nat) : Nat := (Nat.toDigits 10 n).length

/-- The least power of ten above a positive value, as its exponent. -/
def magnitude (rank : Nat) : Int :=
  let units := Binary64.units rank
  if Binary64.unitsOfOne ≤ units then digitCount (units / Binary64.unitsOfOne)
  else 1 - (digitCount ((Binary64.unitsOfOne - 1) / units) : Int)

/-- The neighbours of a value among the multiples of a power of ten, the nearer one first and the
upper one first where both are equally near. -/
def neighbours (rank : Nat) (exponent : Int) : List Decimal :=
  let numerator := Binary64.units rank * Nat.pow 10 (-exponent).toNat
  let denominator := Binary64.unitsOfOne * Nat.pow 10 exponent.toNat
  let below : Decimal := ⟨numerator / denominator, exponent⟩
  let above : Decimal := ⟨numerator / denominator + 1, exponent⟩
  if 2 * (numerator % denominator) < denominator then [below, above] else [above, below]

/-- The exact decimal expansion of a value. -/
def expansion (rank : Nat) : Decimal := ⟨Binary64.units rank * Nat.pow 5 1074, -1074⟩

/-- The shortest decimal that reads back to a positive value. -/
def shortest (rank : Nat) : Decimal :=
  let magnitude := magnitude rank
  let candidates := (List.range 17).flatMap fun n => neighbours rank (magnitude - (n + 1 : Nat))
  (candidates.find? fun d => d.nearestRank == rank).getD (expansion rank)

end Vimscript.Decimal
