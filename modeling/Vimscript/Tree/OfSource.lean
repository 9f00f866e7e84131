import Vimscript.Grammar.Match
import Vimscript.Limits
import Vimscript.Nesting

/-!
# The parse tree of a source

A source has a parse tree when its delimiters do not nest too deep and the grammar matches it as
a whole. Otherwise the furthest failure says what is wrong: at the end of the source something is
missing there, and before it something else was expected.
-/

namespace Vimscript.Tree

/-- The names of the rules expected at one place, in the order of the grammar. -/
def expectation (expected : Array Rule) : List Char :=
  match Rule.all.filter (expected.contains ·) with
  | [] => "unexpected input".toList
  | rules => "expected ".toList ++ ", ".toList.intercalate (rules.map fun r => r.name.toList)

/-- The error for a source of some length that the grammar does not match. -/
def mismatch (calls length : Nat) (trace : Trace) : Error :=
  if calls ≤ trace.calls then .callLimit ⟨min trace.furthest length, length⟩
  else if length ≤ trace.furthest then .incomplete
  else .mismatch ⟨trace.furthest, length⟩ (expectation trace.expected)

/-- The parse tree of a source under limits. -/
def ofSource (limits : Limits) (source : List Char) : Except Error (Tree Rule) := do
  Nesting.check limits.parseDepth source
  let length := Text.byteLength source
  match Rule.expression.runOn limits.effectiveCalls source with
  | .matched _ (root :: _) _ => .ok root
  | .matched _ [] _ => .error (.unsupported ⟨0, 0⟩ .shape)
  | .failed trace => .error (mismatch limits.effectiveCalls length trace)
  | .exhausted => .error (.callLimit ⟨0, length⟩)

end Vimscript.Tree
