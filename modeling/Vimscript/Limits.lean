/-!
# Limits

Three bounds keep a reading short: on the nesting of delimiters, which is checked before anything
else, on the nesting of conditional levels in the tree, and on the steps of matching.
-/

namespace Vimscript

/-- The bounds under which a source is read. -/
structure Limits where
  /-- The most delimiters that may be open at once. -/
  parseDepth : Nat
  /-- The most conditional levels that may lie inside one another. -/
  exprDepth : Nat
  /-- The most steps that matching may take; none stands for the default. -/
  calls : Nat
deriving DecidableEq, Repr

namespace Limits

/-- The limits where nothing else is asked for. Conditional levels may nest deeper than
delimiters, since branches of a conditional nest without any. -/
def default : Limits := ⟨64, 96, 10000000⟩

/-- The steps that matching may take. -/
def effectiveCalls (limits : Limits) : Nat :=
  if limits.calls = 0 then default.calls else limits.calls

end Limits

end Vimscript
