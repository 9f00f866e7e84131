/-!
# Double-precision numbers

The value of a float literal is a binary number of 53 significant bits. The non-negative finite
values, in ascending order, are counted from zero on: the count of a value is its rank, and the
rank alone says which value it is. Each finite value is a whole number of the least positive
value, two to the power of minus 1074, so comparisons with decimals need natural numbers only.
-/

namespace Vimscript

/-- The number of finite non-negative values. -/
abbrev Binary64.ranks : Nat := 2047 * Nat.pow 2 52

/-- A double-precision number. -/
inductive Binary64 where
  /-- Not a number. -/
  | nan
  /-- An infinity, with its sign. -/
  | infinite (negative : Bool)
  /-- The finite value of a rank, with its sign; the two zeros differ. -/
  | finite (negative : Bool) (rank : Fin Binary64.ranks)
deriving DecidableEq

namespace Binary64

/-- Whether the value is neither an infinity nor missing. -/
def isFinite : Binary64 → Bool
  | .finite _ _ => true
  | _ => false

/-- The bits before the scale: below the first binade the rank itself, and from there on the
position within the binade behind a leading one. -/
def significand (rank : Nat) : Nat :=
  if rank / Nat.pow 2 52 = 0 then rank % Nat.pow 2 52 else Nat.pow 2 52 + rank % Nat.pow 2 52

/-- How many doublings separate the spacing at a rank from the least positive value. -/
def scale (rank : Nat) : Nat := rank / Nat.pow 2 52 - 1

/-- A finite value as a multiple of the least positive value. -/
def units (rank : Nat) : Nat := significand rank * Nat.pow 2 (scale rank)

/-- The number of such units in one. -/
def unitsOfOne : Nat := Nat.pow 2 1074

end Binary64

end Vimscript
