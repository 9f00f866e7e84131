import Vimscript.Span
import Vimscript.Text.Excerpt

/-!
# Parse trees

A node of a parse tree has a label, the span and the text that it covers, and the nodes inside
it. Trees that the grammar makes cover the text between the ends of their spans; trees from
elsewhere need not.
-/

namespace Vimscript

/-- A labelled node over a stretch of source, with its children in source order. -/
inductive Tree (Label : Type) where
  | node (label : Label) (span : Span) (excerpt : Excerpt) (children : List (Tree Label))

namespace Tree

variable {Label Other : Type}

/-- What kind of node this is. -/
def label : Tree Label → Label
  | node label _ _ _ => label

/-- Where the node lies in the source. -/
def span : Tree Label → Span
  | node _ span _ _ => span

/-- The source text of the node. -/
def text : Tree Label → List Char
  | node _ _ excerpt _ => excerpt.toList

/-- The nodes directly inside the node. -/
def children : Tree Label → List (Tree Label)
  | node _ _ _ children => children

mutual

/-- The tree with a function applied to every label. -/
def map (f : Label → Other) : Tree Label → Tree Other
  | node label span excerpt children => node (f label) span excerpt (mapAll f children)

/-- The trees with a function applied to every label. -/
def mapAll (f : Label → Other) : List (Tree Label) → List (Tree Other)
  | [] => []
  | tree :: rest => map f tree :: mapAll f rest

end

mutual

/-- The node and all nodes inside it, each before its children. -/
def nodes : Tree Label → List (Tree Label)
  | node label span excerpt children => node label span excerpt children :: nodesAll children

/-- The nodes of trees one after the other. -/
def nodesAll : List (Tree Label) → List (Tree Label)
  | [] => []
  | tree :: rest => nodes tree ++ nodesAll rest

end

end Tree

end Vimscript
