/-!
# Character classes

The classes of characters from which tokens are made. All of them are ASCII: a character beyond
ASCII can stand inside a string only.
-/

namespace Vimscript.Text

variable {c : Char}

/-- Decimal digits are a range of ASCII. -/
theorem isDigit_iff : c.isDigit = true ↔ 48 ≤ c.toNat ∧ c.toNat ≤ 57 :=
  Bool.and_eq_true_iff.trans (and_congr decide_eq_true_iff decide_eq_true_iff)

/-- Capital letters are a range of ASCII. -/
theorem isUpper_iff : c.isUpper = true ↔ 65 ≤ c.toNat ∧ c.toNat ≤ 90 := decide_eq_true_iff

/-- Small letters are a range of ASCII. -/
theorem isLower_iff : c.isLower = true ↔ 97 ≤ c.toNat ∧ c.toNat ≤ 122 :=
  Bool.and_eq_true_iff.trans (and_congr decide_eq_true_iff decide_eq_true_iff)

/-- Letters are capital or small. -/
theorem isAlpha_iff : c.isAlpha = true ↔ c.isUpper = true ∨ c.isLower = true :=
  Bool.or_eq_true_iff

/-- A space or a tab, the only blanks that may stand between tokens. -/
def isSpace (c : Char) : Bool := c == ' ' || c == '\t'

/-- A binary digit. -/
def isBinaryDigit (c : Char) : Bool := c == '0' || c == '1'

/-- An octal digit. -/
def isOctalDigit (c : Char) : Bool := '0' ≤ c && c ≤ '7'

/-- Octal digits are a range of ASCII. -/
theorem isOctalDigit_iff : isOctalDigit c = true ↔ 48 ≤ c.toNat ∧ c.toNat ≤ 55 :=
  Bool.and_eq_true_iff.trans (and_congr decide_eq_true_iff decide_eq_true_iff)

/-- A hexadecimal digit in either letter case. -/
def isHexDigit (c : Char) : Bool :=
  c.isDigit || ('a' ≤ c && c ≤ 'f') || ('A' ≤ c && c ≤ 'F')

/-- A letter, a digit or an underscore. -/
def isWordChar (c : Char) : Bool := c.isAlphanum || c == '_'

/-- A letter or an underscore, with which names begin. -/
def isNameStart (c : Char) : Bool := c.isAlpha || c == '_'

/-- A character inside the name of a variable or function. -/
def isNameChar (c : Char) : Bool := isWordChar c || c == '#'

/-- A character of a literal key. -/
def isKeyChar (c : Char) : Bool := isWordChar c || c == '-'

/-- The name of a register. -/
def isRegisterName (c : Char) : Bool := c.isAlphanum || "\"-*+_/:.%#=@".toList.contains c

/-- A letter that stands for a scope. -/
def isScopeLetter (c : Char) : Bool := "gslabwtv".toList.contains c

/-- Whether a text can stand as a key after a point or before the colon of a literal
dictionary. -/
def isLiteralKey (text : List Char) : Bool := !text.isEmpty && text.all isKeyChar

end Vimscript.Text
