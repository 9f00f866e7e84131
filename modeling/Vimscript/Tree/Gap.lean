import Vimscript.Text.Blank
import Vimscript.Tree.Basic

/-!
# Blanks between nodes

Whether an operator stands tight between its operands is decided by the blanks around it. Blanks
between two neighbours may lie in the text of their parent, or at the edge of a neighbour whose
own text begins or ends with them; all three places count.
-/

namespace Vimscript.Tree

variable {Label : Type}

/-- Whether a text begins with a blank. -/
def beginsBlank (text : List Char) : Bool := text.head?.any Text.isBlank

/-- Whether a text ends with a blank. -/
def endsBlank (text : List Char) : Bool := text.getLast?.any Text.isBlank

/-- Whether a blank separates two neighbours under a parent whose text begins at the offset
`origin`. Spans that run backwards or leave the parent have no text between them. -/
def blankBetween (origin : Nat) (text : List Char) (left right : Tree Label) : Bool :=
  endsBlank left.text || beginsBlank right.text ||
    (Text.slice? (left.span.stop - origin) (right.span.start - origin) text).any
      fun gap => gap.any Text.isBlank

/-- Whether a blank separates any two neighbours of a run. -/
def blankAmong (origin : Nat) (text : List Char) : List (Tree Label) → Bool
  | left :: right :: rest =>
    blankBetween origin text left right || blankAmong origin text (right :: rest)
  | _ => false

/-- Whether a blank separates any two neighbours among the children from number `first` up to,
and not including, number `last`. Numbers past the last child are ignored. -/
def hasBlankBetween (tree : Tree Label) (first last : Nat) : Bool :=
  blankAmong tree.span.start tree.text ((tree.children.take last).drop first)

end Vimscript.Tree
