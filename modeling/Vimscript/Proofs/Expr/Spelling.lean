import Vimscript.Expr.Source
import Vimscript.Proofs.Grammar.Token

/-!
# Which expressions have a source form

An expression can be written as a text if its constants and names have the form that the grammar
wants. Two expressions so written still read as something else: a call of a value where the text
has a call by name, and a key in front of whose colon an option has the name of a scope. What is
asked of a node is asked of each node of the tree.
-/

namespace Vimscript

open Text

namespace Expr

variable {Mark : Type}

/-- The expressions right below a node, in the order of their texts. -/
def parts : Expr Mark → List (Expr Mark)
  | literal _ _ | var _ _ _ | option _ _ _ | env _ _ | register _ _ => []
  | list _ items | call _ _ _ items => items
  | dict _ entries => entries.flatMap fun entry => [entry.1, entry.2]
  | unary _ _ operand => [operand]
  | binary _ _ left right | falsy _ left right | index _ left right => [left, right]
  | ternary _ condition ifTrue ifFalse => [condition, ifTrue, ifFalse]
  | lambda _ _ body => [body]
  | lambdaCall _ callee args | funcrefCall _ callee args => callee :: args
  | slice _ base lower upper => base :: (lower.toList ++ upper.toList)

/-- The parts of a node do not hang on its mark. -/
theorem parts_withMark (mark : Mark) (e : Expr Mark) : (e.withMark mark).parts = e.parts := by
  cases e <;> rfl

/-- A property of every node of an expression. -/
inductive Every (p : Expr Mark → Prop) : Expr Mark → Prop where
  | node {e : Expr Mark} (here : p e) (parts : ∀ e' ∈ e.parts, Every p e') : Every p e

/-- A property of every node holds of the first. -/
theorem Every.here {p : Expr Mark → Prop} {e : Expr Mark} (h : e.Every p) : p e := by
  cases h with
  | node here _ => exact here

/-- A property of every node holds of every node of a part. -/
theorem Every.part {p : Expr Mark → Prop} {e e' : Expr Mark} (h : e.Every p)
    (he : e' ∈ e.parts) : e'.Every p := by
  cases h with
  | node _ parts => exact parts e' he

/-- What follows from a property at each node holds at every node. -/
theorem Every.mono {p q : Expr Mark → Prop} {e : Expr Mark} (h : e.Every p)
    (hpq : ∀ e, p e → q e) : e.Every q := by
  induction h with
  | node here _ ih => exact .node (hpq _ here) ih

/-- Two properties of every node hold together. -/
theorem Every.and {p q : Expr Mark → Prop} {e : Expr Mark} (h : e.Every p) (h' : e.Every q) :
    e.Every fun e => p e ∧ q e := by
  induction h with
  | node here _ ih => exact .node ⟨here, h'.here⟩ fun e he => ih e he (h'.part he)

/-- The constants and names of a node have the form that the grammar wants: numbers are not
negative, names are made of the characters of names, and what is called as a lambda is one. -/
def WellSpelled : Expr Mark → Prop
  | literal _ (.int value) => 0 ≤ value.toInt
  | literal _ (.float value) => ∃ rank, value = .finite false rank
  | var _ none name | call _ _ name _ => IsName isNameStart isNameChar name
  | var _ (some _) name => IsRun isNameChar name
  | option _ scope name => IsName Char.isAlpha isWordChar name ∧
      (scope = none ∨ scope = some .global ∨ scope = some .functionLocal)
  | env _ name => IsRun isWordChar name
  | register _ name => isRegisterName name = true
  | lambda _ params _ => ∀ name ∈ params, IsName isNameStart isWordChar name
  | lambdaCall _ callee _ => ∃ mark params body, callee = lambda mark params body
  | _ => True

/-- Whether arguments right behind an expression are no call of its value: it is a lambda or a
variable with the name of a function. -/
def takesCall : Expr Mark → Bool
  | lambda _ _ _ => true
  | var _ _ name => name.head?.any isNameStart
  | _ => false

end Expr

/-- A text that ends in an option with the name of a scope. -/
def Text.EndsInScope (u : List Char) : Prop := ['&', 'g'] <:+ u ∨ ['&', 'l'] <:+ u

namespace Expr

variable {Mark : Type}

/-- The text of a node is not that of another expression: what is called as a value is not called
by name or as a lambda, and no key ends in what the colon behind it would make a scope. -/
def Unambiguous : Expr Mark → Prop
  | funcrefCall _ callee _ => callee.takesCall = false
  | dict _ entries => ∀ entry ∈ entries, ¬ EndsInScope entry.1.source
  | _ => True

end Expr

end Vimscript
