import Vimscript.Decimal.Binary64
import Vimscript.Operator
import Vimscript.Scope

/-!
# Expressions

The tree that an expression of the language denotes. Every node carries a mark of some type: the
span of source it was read from, or nothing where only the shape of the tree counts. Printing in
any form but one looks at no mark, and two readings of one meaning are compared by erasing them.
-/

namespace Vimscript

/-- A constant. -/
inductive Literal where
  /-- A signed word of 64 bits. -/
  | int (value : Int64)
  /-- A double-precision number. -/
  | float (value : Binary64)
  /-- A text. -/
  | string (value : List Char)
deriving DecidableEq

/-- An expression whose nodes carry marks. -/
inductive Expr (Mark : Type) where
  | literal (mark : Mark) (value : Literal)
  | list (mark : Mark) (items : List (Expr Mark))
  /-- Keys and values in source order; keys may repeat. -/
  | dict (mark : Mark) (entries : List (Expr Mark × Expr Mark))
  /-- A variable; without a scope its name is searched for. -/
  | var (mark : Mark) (scope : Option Scope) (name : List Char)
  /-- An option of the editor, `&name`. -/
  | option (mark : Mark) (scope : Option Scope) (name : List Char)
  /-- A variable of the environment, `$NAME`. -/
  | env (mark : Mark) (name : List Char)
  /-- A register, `@r`. -/
  | register (mark : Mark) (name : Char)
  | unary (mark : Mark) (op : UnaryOp) (operand : Expr Mark)
  | binary (mark : Mark) (op : BinaryOp) (left right : Expr Mark)
  /-- A choice, `condition ? ifTrue : ifFalse`. -/
  | ternary (mark : Mark) (condition ifTrue ifFalse : Expr Mark)
  /-- The left side unless it is falsy, `left ?? right`. -/
  | falsy (mark : Mark) (left right : Expr Mark)
  /-- A call of a function by its name. -/
  | call (mark : Mark) (scope : Option Scope) (name : List Char) (args : List (Expr Mark))
  | lambda (mark : Mark) (params : List (List Char)) (body : Expr Mark)
  /-- A lambda called where it stands. -/
  | lambdaCall (mark : Mark) (callee : Expr Mark) (args : List (Expr Mark))
  /-- A call of a computed function. -/
  | funcrefCall (mark : Mark) (callee : Expr Mark) (args : List (Expr Mark))
  /-- A stretch of a value; a bound that is absent leaves that side open. -/
  | slice (mark : Mark) (base : Expr Mark) (lower upper : Option (Expr Mark))
  /-- One element of a value, also written as a field. -/
  | index (mark : Mark) (base key : Expr Mark)

namespace Expr

variable {Mark Other : Type}

/-- The mark of the outermost node. -/
def mark : Expr Mark → Mark
  | literal mark _ | list mark _ | dict mark _ | var mark _ _ | option mark _ _ | env mark _
  | register mark _ | unary mark _ _ | binary mark _ _ _ | ternary mark _ _ _ | falsy mark _ _
  | call mark _ _ _ | lambda mark _ _ | lambdaCall mark _ _ | funcrefCall mark _ _
  | slice mark _ _ _ | index mark _ _ => mark

/-- The expression with another mark on its outermost node. -/
def withMark (mark : Mark) : Expr Mark → Expr Mark
  | literal _ value => literal mark value
  | list _ items => list mark items
  | dict _ entries => dict mark entries
  | var _ scope name => var mark scope name
  | option _ scope name => option mark scope name
  | env _ name => env mark name
  | register _ name => register mark name
  | unary _ op operand => unary mark op operand
  | binary _ op left right => binary mark op left right
  | ternary _ condition ifTrue ifFalse => ternary mark condition ifTrue ifFalse
  | falsy _ left right => falsy mark left right
  | call _ scope name args => call mark scope name args
  | lambda _ params body => lambda mark params body
  | lambdaCall _ callee args => lambdaCall mark callee args
  | funcrefCall _ callee args => funcrefCall mark callee args
  | slice _ base lower upper => slice mark base lower upper
  | index _ base key => index mark base key

/-- A mark that is put on is the one that is there. -/
@[simp] theorem mark_withMark (mark : Mark) (e : Expr Mark) : (e.withMark mark).mark = mark := by
  cases e <;> rfl

mutual

/-- The expression with a function applied to every mark. -/
def map (f : Mark → Other) : Expr Mark → Expr Other
  | literal mark value => literal (f mark) value
  | list mark items => list (f mark) (mapItems f items)
  | dict mark entries => dict (f mark) (mapEntries f entries)
  | var mark scope name => var (f mark) scope name
  | option mark scope name => option (f mark) scope name
  | env mark name => env (f mark) name
  | register mark name => register (f mark) name
  | unary mark op operand => unary (f mark) op (map f operand)
  | binary mark op left right => binary (f mark) op (map f left) (map f right)
  | ternary mark condition ifTrue ifFalse =>
    ternary (f mark) (map f condition) (map f ifTrue) (map f ifFalse)
  | falsy mark left right => falsy (f mark) (map f left) (map f right)
  | call mark scope name args => call (f mark) scope name (mapItems f args)
  | lambda mark params body => lambda (f mark) params (map f body)
  | lambdaCall mark callee args => lambdaCall (f mark) (map f callee) (mapItems f args)
  | funcrefCall mark callee args => funcrefCall (f mark) (map f callee) (mapItems f args)
  | slice mark base lower upper =>
    slice (f mark) (map f base) (mapBound f lower) (mapBound f upper)
  | index mark base key => index (f mark) (map f base) (map f key)

/-- The expressions of a list with a function applied to every mark. -/
def mapItems (f : Mark → Other) : List (Expr Mark) → List (Expr Other)
  | [] => []
  | item :: rest => map f item :: mapItems f rest

/-- The entries of a dictionary with a function applied to every mark. -/
def mapEntries (f : Mark → Other) : List (Expr Mark × Expr Mark) → List (Expr Other × Expr Other)
  | [] => []
  | (key, value) :: rest => (map f key, map f value) :: mapEntries f rest

/-- A bound, if there is one, with a function applied to every mark. -/
def mapBound (f : Mark → Other) : Option (Expr Mark) → Option (Expr Other)
  | none => none
  | some bound => some (map f bound)

end

/-- The shape of an expression, without any mark. -/
def erase (e : Expr Mark) : Expr Unit := e.map fun _ => ()

end Expr

end Vimscript
