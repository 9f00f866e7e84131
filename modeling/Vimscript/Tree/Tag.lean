/-!
# Kinds of parse tree nodes

A reader of parse trees needs fewer distinctions than the grammar makes: every operator token is
an operator, and every token that names something is a name.
-/

namespace Vimscript

/-- What a node of a parse tree is to a reader of the tree. -/
inductive Tag where
  /-- The whole source: one expression and the end of input. -/
  | root
  | endOfInput
  /-- Operands with a branch mark between any two. -/
  | conditional
  /-- The branch mark `??`. -/
  | coalesce
  /-- The branch mark `? … :` with the branch inside it. -/
  | ternaryThen
  | logicalOr
  | logicalAnd
  | comparison
  | additive
  | multiplicative
  | operator
  /-- Prefix operators in front of an operand. -/
  | unary
  /-- A primary and what is attached behind it. -/
  | postfixed
  | subscript
  | sliceSeparator
  | methodCall
  | callArgs
  /-- The place of one argument, empty where the argument was left out. -/
  | callArg
  | primary
  | integer
  | float
  | blob
  | string
  | list
  | dict
  | dictEntry
  | literalDict
  | literalDictEntry
  | literalDictKey
  /-- A lambda and, where it is called at once, its arguments. -/
  | lambdaExpr
  | lambda
  | lambdaParams
  | functionCall
  | variableRef
  | optionRef
  | envVariable
  | register
  | scope
  | name
  /-- A node that stands for nothing. -/
  | unrecognized
deriving DecidableEq, Repr

end Vimscript
