/-!
# Operators

Binary operators fall into five tiers of precedence, from `||` to `*`. A comparison may end in a
sign that fixes how it treats letter case. One or two points both stand for concatenation, which
is printed as two.
-/

namespace Vimscript

/-- The relation that a comparison tests. -/
inductive Comparison where
  | equal
  | notEqual
  | greater
  | greaterOrEqual
  | less
  | lessOrEqual
  /-- The left text matches the right pattern. -/
  | isMatch
  /-- The left text does not match the right pattern. -/
  | noMatch
  /-- Both sides are one instance. -/
  | same
  /-- The sides are different instances. -/
  | different
deriving DecidableEq, Repr

/-- How a comparison treats letter case. -/
inductive LetterCase where
  /-- As the editor's option says. -/
  | followOption
  /-- Case counts, `#`. -/
  | sensitive
  /-- Case is ignored, `?`. -/
  | ignored
deriving DecidableEq, Repr

/-- Operators between two operands. -/
inductive BinaryOp where
  | or
  | and
  | compare (relation : Comparison) (letterCase : LetterCase)
  | add
  | subtract
  | concat
  | multiply
  | divide
  | modulo
deriving DecidableEq, Repr

/-- Operators before one operand. -/
inductive UnaryOp where
  | not
  | negate
  | plus
deriving DecidableEq, Repr

namespace Comparison

/-- Every relation. -/
def all : List Comparison :=
  [equal, notEqual, greater, greaterOrEqual, less, lessOrEqual, isMatch, noMatch, same, different]

/-- The token of a relation without a case sign. -/
def text : Comparison → List Char
  | equal => "==".toList
  | notEqual => "!=".toList
  | greater => ">".toList
  | greaterOrEqual => ">=".toList
  | less => "<".toList
  | lessOrEqual => "<=".toList
  | isMatch => "=~".toList
  | noMatch => "!~".toList
  | same => "is".toList
  | different => "isnot".toList

/-- The relation that a token without a case sign names. -/
def ofToken? (token : List Char) : Option Comparison := all.find? fun r => token == r.text

/-- The token of a relation names the relation. -/
theorem ofToken?_text (r : Comparison) : ofToken? r.text = some r := by
  cases r <;> decide

end Comparison

namespace LetterCase

/-- The sign behind a comparison. -/
def text : LetterCase → List Char
  | followOption => []
  | sensitive => ['#']
  | ignored => ['?']

/-- A token without its case sign, and what the sign means. -/
def split (token : List Char) : List Char × LetterCase :=
  match token.getLast? with
  | some '#' => (token.dropLast, sensitive)
  | some '?' => (token.dropLast, ignored)
  | _ => (token, followOption)

end LetterCase

namespace BinaryOp

/-- The operators that take no case sign, each with the tokens that name it. -/
def plainTokens : List (List Char × BinaryOp) :=
  [("||".toList, or), ("&&".toList, and), ("+".toList, add), ("-".toList, subtract),
    (".".toList, concat), ("..".toList, concat), ("*".toList, multiply), ("/".toList, divide),
    ("%".toList, modulo)]

/-- The operator that a token names. -/
def ofToken? (token : List Char) : Option BinaryOp :=
  match plainTokens.lookup token with
  | some op => some op
  | none =>
    let parts := LetterCase.split token
    (Comparison.ofToken? parts.1).map fun relation => compare relation parts.2

/-- The token that an operator is printed as. -/
def text : BinaryOp → List Char
  | or => "||".toList
  | and => "&&".toList
  | compare relation letterCase => relation.text ++ letterCase.text
  | add => "+".toList
  | subtract => "-".toList
  | concat => "..".toList
  | multiply => "*".toList
  | divide => "/".toList
  | modulo => "%".toList

/-- The tier of an operator, from the loosest, one, to the tightest, five. -/
def tier : BinaryOp → Nat
  | or => 1
  | and => 2
  | compare _ _ => 3
  | add | subtract | concat => 4
  | multiply | divide | modulo => 5

/-- The token of a binary operator names the operator. -/
theorem ofToken?_text (op : BinaryOp) : ofToken? op.text = some op := by
  cases op with
  | compare relation letterCase => cases relation <;> cases letterCase <;> decide
  | _ => decide

end BinaryOp

namespace UnaryOp

/-- The token of an operator. -/
def text : UnaryOp → List Char
  | not => ['!']
  | negate => ['-']
  | plus => ['+']

/-- The operator that a token names. -/
def ofToken? (token : List Char) : Option UnaryOp :=
  [not, negate, plus].find? fun op => token == op.text

/-- The token of a prefix operator names the operator. -/
theorem ofToken?_text (op : UnaryOp) : ofToken? op.text = some op := by
  cases op <;> decide

end UnaryOp

end Vimscript
