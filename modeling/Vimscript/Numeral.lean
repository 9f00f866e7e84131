import Vimscript.Text.Class

/-!
# Integer literals

An integer literal is decimal, hexadecimal behind `0x`, binary behind `0b`, octal behind `0o`, or
octal behind a bare zero when all its digits are octal. Its value has to fit a signed word of 64
bits; the sign of a negative number is an operator and no part of the literal.
-/

namespace Vimscript.Numeral

/-- The value of a digit, letters counting on from ten. -/
def digitValue? (c : Char) : Option Nat :=
  if c.isDigit then some (c.toNat - '0'.toNat)
  else if c.isLower then some (c.toNat - 'a'.toNat + 10)
  else if c.isUpper then some (c.toNat - 'A'.toNat + 10)
  else none

/-- The value of digits in a base, the digits before them being worth `high`. -/
def valueFrom? (base : Nat) : Nat → List Char → Option Nat
  | high, [] => some high
  | high, c :: rest =>
    match digitValue? c with
    | some d => if d < base then valueFrom? base (high * base + d) rest else none
    | none => none

/-- The value of at least one digit in a base. -/
def value? (base : Nat) (digits : List Char) : Option Nat :=
  if digits = [] then none else valueFrom? base 0 digits

/-- The base of a literal and its digits. -/
def split : List Char → Nat × List Char
  | '0' :: mark :: rest =>
    if mark = 'x' ∨ mark = 'X' then (16, rest)
    else if mark = 'b' ∨ mark = 'B' then (2, rest)
    else if mark = 'o' ∨ mark = 'O' then (8, rest)
    else if (mark :: rest).all Text.isOctalDigit then (8, mark :: rest)
    else (10, '0' :: mark :: rest)
  | digits => (10, digits)

/-- The least number too large for a literal, two to the power of 63. -/
abbrev bound : Nat := 0x8000000000000000

/-- The value of a literal, where it is well formed and fits. -/
def decode? (text : List Char) : Option Int64 :=
  let parts := split text
  match value? parts.1 parts.2 with
  | some n => if n < bound then some (Int64.ofNat n) else none
  | none => none

/- The digits after a bare zero are octal unless one of them is an eight or a nine. -/
example : (decode? "017".toList, decode? "019".toList) = (some 15, some 19) := by decide

end Vimscript.Numeral
