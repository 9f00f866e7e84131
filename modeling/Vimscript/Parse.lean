import Vimscript.Expr.OfTree
import Vimscript.Expr.Outline
import Vimscript.Expr.Source
import Vimscript.Tree.OfSource

/-!
# Reading and printing expressions

The functions by which the library is used: from a source to its expression, and from an
expression to its three printed forms.
-/

namespace Vimscript

/-- The parse tree of a source as readers of parse trees see it. -/
def parseTree (limits : Limits) (source : List Char) : Except Error (Tree Tag) :=
  (Tree.ofSource limits source).map (Tree.map Rule.tag)

/-- The expression that a source denotes, under limits. -/
def parseWithin (limits : Limits) (source : List Char) : Except Error (Expr Span) := do
  let tree ← parseTree limits source
  tree.toExpr limits.exprDepth

/-- The expression that a source denotes. -/
def parse (source : String) : Except Error (Expr Span) :=
  parseWithin Limits.default source.toList

end Vimscript
