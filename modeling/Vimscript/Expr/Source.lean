import Vimscript.Decimal.Layout
import Vimscript.Expr.Basic
import Vimscript.Text.Digits
import Vimscript.Text.Quoted

/-!
# The source form of expressions

An expression is printed so that it reads back to the same tree. Parentheses stand only around a
part that binds looser than its place allows. Binary operators have a blank on both sides, fields
are quoted subscripts, and the colon of a slice has a blank beside each bound, so that no point,
minus sign or scope letter can be taken for something else.
-/

namespace Vimscript

/-- A constant in source form. -/
def Literal.source : Literal → List Char
  | .int value => Text.integer value.toInt
  | .float value => value.sourceText
  | .string value => Text.Quoted.encode value

namespace Expr

variable {Mark : Type}

/-- How tightly a conditional binds. -/
def conditionalBinding : Nat := 0

/-- How tightly the loosest binary operator binds. -/
def looseBinding : Nat := 1

/-- How tightly a prefix operator binds. -/
def unaryBinding : Nat := 6

/-- How tightly subscripts and calls bind. -/
def suffixBinding : Nat := 7

/-- How tightly a self-contained form binds. -/
def atomBinding : Nat := 8

/-- How tightly the source form of an expression binds; binary operators bind by their tier. -/
def binding : Expr Mark → Nat
  | ternary _ _ _ _ | falsy _ _ _ => conditionalBinding
  | binary _ op _ _ => op.tier
  | unary _ _ _ => unaryBinding
  | slice _ _ _ _ | index _ _ _ | lambdaCall _ _ _ | funcrefCall _ _ _ => suffixBinding
  | _ => atomBinding

/-- A text between parentheses where they are needed. -/
def enclose (needed : Bool) (text : List Char) : List Char :=
  if needed then '(' :: text ++ [')'] else text

/-- Texts with a comma and a blank between any two. -/
def commaSeparated (names : List (List Char)) : List Char := ", ".toList.intercalate names

mutual

/-- The source form of an expression. -/
def source : Expr Mark → List Char
  | literal _ value => value.source
  | list _ items => '[' :: sourceItems items ++ [']']
  | dict _ entries => '\x7b' :: sourceEntries entries ++ ['\x7d']
  | var _ scope name => Scope.optionalText scope ++ name
  | option _ scope name => '&' :: Scope.optionalText scope ++ name
  | env _ name => '$' :: name
  | register _ name => ['@', name]
  | unary _ op operand => op.text ++ enclose (operand.binding < unaryBinding) (source operand)
  | binary _ op left right =>
    enclose (left.binding < op.tier) (source left) ++ ' ' :: op.text ++
      ' ' :: enclose (right.binding < op.tier + 1) (source right)
  | ternary _ condition ifTrue ifFalse =>
    enclose (condition.binding < looseBinding) (source condition) ++ " ? ".toList ++
      source ifTrue ++ " : ".toList ++ source ifFalse
  | falsy _ left right =>
    enclose (left.binding < looseBinding) (source left) ++ " ?? ".toList ++ source right
  | call _ scope name args =>
    Scope.optionalText scope ++ name ++ '(' :: sourceItems args ++ [')']
  | lambda _ params body =>
    '\x7b' :: (if params = [] then [] else commaSeparated params ++ [' ']) ++ "-> ".toList ++
      source body ++ ['\x7d']
  | lambdaCall _ callee args | funcrefCall _ callee args =>
    enclose (callee.binding < suffixBinding) (source callee) ++ '(' :: sourceItems args ++ [')']
  | slice _ base lower upper =>
    enclose (base.binding < suffixBinding) (source base) ++ '[' :: sourceLower lower ++
      ':' :: sourceUpper upper ++ [']']
  | index _ base key =>
    enclose (base.binding < suffixBinding) (source base) ++ '[' :: source key ++ [']']

/-- The items of a list, with a comma and a blank between any two. -/
def sourceItems : List (Expr Mark) → List Char
  | [] => []
  | [item] => source item
  | item :: rest => source item ++ ", ".toList ++ sourceItems rest

/-- The entries of a dictionary, with a comma and a blank between any two. -/
def sourceEntries : List (Expr Mark × Expr Mark) → List Char
  | [] => []
  | [(key, value)] => source key ++ ": ".toList ++ source value
  | (key, value) :: rest =>
    source key ++ ": ".toList ++ source value ++ ", ".toList ++ sourceEntries rest

/-- The lower bound of a slice and the blank behind it. -/
def sourceLower : Option (Expr Mark) → List Char
  | none => []
  | some bound => source bound ++ [' ']

/-- The upper bound of a slice and the blank before it. -/
def sourceUpper : Option (Expr Mark) → List Char
  | none => []
  | some bound => ' ' :: source bound

end

end Expr

end Vimscript
