import Vimscript.Error
import Vimscript.Text.Bytes

/-!
# Delimiter nesting

Before a source is matched its delimiters are counted from left to right, whether or not they
stand inside strings: an opening one adds a level and a closing one takes a level away, down to
none. The first opening delimiter that adds one level too many refuses the source.
-/

namespace Vimscript.Nesting

/-- Whether a character opens a level. -/
def opens (c : Char) : Bool := c == '(' || c == '[' || c == '\x7b'

/-- Whether a character closes a level. -/
def closes (c : Char) : Bool := c == ')' || c == ']' || c == '\x7d'

/-- The number of open levels after a character. -/
def levelAfter (level : Nat) (c : Char) : Nat :=
  if opens c then level + 1 else if closes c then level - 1 else level

/-- The offset of the first delimiter that raises the level above a bound, and the level it
makes, where `level` levels are open at the offset of the first character. -/
def firstExcess? (bound : Nat) : Nat → Nat → List Char → Option (Nat × Nat)
  | _, _, [] => none
  | level, offset, c :: rest =>
    let after := levelAfter level c
    if opens c ∧ bound < after then some (offset, after)
    else firstExcess? bound after (offset + c.utf8Size) rest

/-- The refusal of a source that nests deeper than a bound; its span runs to the end. -/
def check (bound : Nat) (source : List Char) : Except Error Unit :=
  match firstExcess? bound 0 0 source with
  | some (offset, depth) =>
    .error (.nestingDepth ⟨offset, Text.byteLength source⟩ (some (depth, bound)))
  | none => .ok ()

end Vimscript.Nesting
