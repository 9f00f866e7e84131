import Vimscript.Decimal.Layout
import Vimscript.Expr.Basic
import Vimscript.Text.Digits
import Vimscript.Text.Escaped

/-!
# S-expressions

The one-line form of an expression: a head and its parts between parentheses, with one blank
between any two. It shows the shape of the tree and no mark.
-/

namespace Vimscript

/-- A constant in prefix forms and outlines. -/
def Literal.plainText : Literal → List Char
  | .int value => Text.integer value.toInt
  | .float value => value.plainText
  | .string value => Text.Escaped.encode value

namespace Expr

variable {Mark : Type}

/-- A head and the text of its parts between parentheses. -/
def form (head parts : List Char) : List Char := '(' :: head ++ parts ++ [')']

/-- Names with one blank between any two. -/
def spacedNames (names : List (List Char)) : List Char := [' '].intercalate names

mutual

/-- The s-expression of an expression. -/
def sexpr : Expr Mark → List Char
  | literal _ value => value.plainText
  | list _ items => form "list".toList (sexprItems items)
  | dict _ entries => form "dict".toList (sexprEntries entries)
  | var _ scope name => form ("var ".toList ++ Scope.optionalText scope ++ name) []
  | option _ scope name => form ("option &".toList ++ Scope.optionalText scope ++ name) []
  | env _ name => form ("env $".toList ++ name) []
  | register _ name => form ("register @".toList ++ [name]) []
  | unary _ op operand => form op.text (' ' :: sexpr operand)
  | binary _ op left right => form op.text (' ' :: sexpr left ++ ' ' :: sexpr right)
  | ternary _ condition ifTrue ifFalse =>
    form "?:".toList (' ' :: sexpr condition ++ ' ' :: sexpr ifTrue ++ ' ' :: sexpr ifFalse)
  | falsy _ left right => form "??".toList (' ' :: sexpr left ++ ' ' :: sexpr right)
  | call _ scope name args =>
    form ("call ".toList ++ Scope.optionalText scope ++ name) (sexprItems args)
  | lambda _ params body =>
    form "lambda".toList (' ' :: form (spacedNames params) [] ++ ' ' :: sexpr body)
  | lambdaCall _ callee args =>
    form "lambda-call".toList (' ' :: sexpr callee ++ sexprItems args)
  | funcrefCall _ callee args =>
    form "funcref-call".toList (' ' :: sexpr callee ++ sexprItems args)
  | slice _ base lower upper =>
    form "slice".toList (' ' :: sexpr base ++ ' ' :: sexprBound lower ++ ' ' :: sexprBound upper)
  | index _ base key => form "index".toList (' ' :: sexpr base ++ ' ' :: sexpr key)

/-- The s-expressions of a list, each behind a blank. -/
def sexprItems : List (Expr Mark) → List Char
  | [] => []
  | item :: rest => ' ' :: sexpr item ++ sexprItems rest

/-- The entries of a dictionary, each as a pair behind a blank. -/
def sexprEntries : List (Expr Mark × Expr Mark) → List Char
  | [] => []
  | (key, value) :: rest => ' ' :: form (sexpr key) (' ' :: sexpr value) ++ sexprEntries rest

/-- A bound, or an underscore for an open side. -/
def sexprBound : Option (Expr Mark) → List Char
  | none => ['_']
  | some bound => sexpr bound

end

end Expr

end Vimscript
