import Vimscript.Span

/-!
# Why an expression is refused

A reading either gives a tree or stops at the first cause that refuses it. Every cause but one
has a place in the source; where the source ends too early there is no such place.
-/

namespace Vimscript

/-- What the tree of expressions has no form for. -/
inductive Unsupported where
  /-- A blob literal, which the grammar knows and no expression holds. -/
  | blob
  /-- A node that cannot stand where it stands. -/
  | shape
  /-- A scope that is none of the eight letters. -/
  | scope
deriving DecidableEq, Repr

/-- The kinds of literal that can fail to have a value. -/
inductive NumberKind where
  | integer
  | float
deriving DecidableEq, Repr

/-- The cause of a refusal. -/
inductive Error where
  /-- The source ends inside an expression. -/
  | incomplete
  /-- The grammar matches the source only up to the start of the span. -/
  | mismatch (span : Span) (message : List Char)
  /-- A token in the place of an operator names none. -/
  | unknownOperator (span : Span) (token : List Char)
  | unsupported (span : Span) (construct : Unsupported)
  /-- A literal without a value, or with one that does not fit. -/
  | invalidLiteral (span : Span) (kind : NumberKind) (text : List Char)
  /-- Too many levels of nesting; where delimiters were counted, the count and its bound. -/
  | nestingDepth (span : Span) (counts : Option (Nat × Nat))
  /-- Matching took more steps than it was given. -/
  | callLimit (span : Span)
deriving DecidableEq, Repr

/-- The words for an unsupported construct. -/
def Unsupported.text : Unsupported → List Char
  | blob => "blob literal".toList
  | shape => "unexpected concrete node".toList
  | scope => "unknown scope prefix".toList

/-- The word for a kind of literal. -/
def NumberKind.text : NumberKind → List Char
  | integer => "integer".toList
  | float => "float".toList

namespace Error

/-- The place of the cause. -/
def span? : Error → Option Span
  | incomplete => none
  | mismatch span _ | unknownOperator span _ | unsupported span _ | invalidLiteral span _ _
  | nestingDepth span _ | callLimit span => some span

/-- The words for too many levels of nesting. -/
def nestingText : Option (Nat × Nat) → List Char
  | none => "maximum nesting depth exceeded".toList
  | some (depth, bound) =>
    "Nesting depth ".toList ++ Text.natural depth ++ " exceeds maximum of ".toList ++
      Text.natural bound

/-- The message that reports the cause and its place. -/
def message : Error → List Char
  | incomplete => "input is incomplete; more data required".toList
  | mismatch span message => "syntax error at ".toList ++ span.text ++ ": ".toList ++ message
  | unknownOperator span token =>
    "unresolvable operator `".toList ++ token ++ "` at ".toList ++ span.text
  | unsupported span construct =>
    "unsupported at ".toList ++ span.text ++ ": ".toList ++ construct.text
  | invalidLiteral span kind text =>
    "invalid ".toList ++ kind.text ++ " literal `".toList ++ text ++ "` at ".toList ++ span.text
  | nestingDepth span counts =>
    "limit exceeded at ".toList ++ span.text ++ ": ".toList ++ nestingText counts
  | callLimit span =>
    "limit exceeded at ".toList ++ span.text ++ ": parser call limit reached".toList

end Error

end Vimscript
