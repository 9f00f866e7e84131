import Vimscript.Grammar.Table
import Vimscript.Tree.Basic

/-!
# Matching

Matching a pattern moves a cursor through the source, adds the nodes of the rules it enters, and
keeps a trace: the steps taken, the furthest place at which a rule failed, and the rules expected
there. Going back to an earlier choice restores the cursor and the nodes, never the trace.

A step that the budget no longer covers fails like any mismatch. As each later step fails too and
the end of the source takes a step of its own, a match is complete only if the budget lasted.

A rule may enter rules inside it to a fixed depth, and a repetition may run for a fixed number of
rounds. Both bounds come from the length of the source. Running into one of them is an outcome of
its own, so that it is never mistaken for a mismatch.
-/

namespace Vimscript

/-- A place in the source. -/
structure Cursor where
  /-- The characters not yet matched. -/
  rest : List Char
  /-- How many bytes are matched. -/
  offset : Nat

namespace Cursor

/-- The place before the first character. -/
def start (source : List Char) : Cursor := ⟨source, 0⟩

/-- The place behind one character of a class. -/
def skipChar? (accepts : Char → Bool) (here : Cursor) : Option Cursor :=
  match here.rest with
  | c :: rest => if accepts c then some ⟨rest, here.offset + c.utf8Size⟩ else none
  | [] => none

/-- The place behind a text. -/
def skipText? : List Char → Cursor → Option Cursor
  | [], here => some here
  | c :: text, here => (here.skipChar? (· == c)).bind (skipText? text)

/-- The place behind a text in either letter case. -/
def skipAnyCase? : List Char → Cursor → Option Cursor
  | [], here => some here
  | c :: text, here => (here.skipChar? fun d => d.toLower == c).bind (skipAnyCase? text)

end Cursor

/-- What matching has learned on its way. -/
structure Trace where
  /-- The steps taken. -/
  calls : Nat
  /-- The furthest offset at which a rule failed. -/
  furthest : Nat
  /-- The rules that failed there, in the order in which they failed. -/
  expected : Array Rule

namespace Trace

/-- Nothing tried yet. -/
def start : Trace := ⟨0, 0, #[]⟩

/-- The number of rules expected at an offset. -/
def expectedAt (trace : Trace) (offset : Nat) : Nat :=
  if offset = trace.furthest then trace.expected.size else 0

/-- A step more, if the budget covers it. -/
def step? (limit : Nat) (trace : Trace) : Option Trace :=
  if trace.calls < limit then some { trace with calls := trace.calls + 1 } else none

/-- The trace after a rule failed at the offset where it was entered, `before` rules having been
expected there on entry. Where exactly one rule inside it failed at that offset, that rule says
more and stays; where several did, the rule replaces them. A failure further on makes all earlier
ones pointless. -/
def fail (rule : Rule) (offset before : Nat) (trace : Trace) : Trace :=
  if trace.expectedAt offset = before + 1 then trace
  else if offset < trace.furthest then trace
  else if offset = trace.furthest then
    { trace with expected := (trace.expected.shrink before).push rule }
  else { trace with furthest := offset, expected := #[rule] }

end Trace

/-- How matching a pattern ended. -/
inductive Outcome where
  /-- Up to a place, with the nodes so far, the latest first. -/
  | matched (stop : Cursor) (nodes : List (Tree Rule)) (trace : Trace)
  /-- Not at all. -/
  | failed (trace : Trace)
  /-- At a bound on depth or rounds. -/
  | exhausted

/-- Something that matches from a place on. -/
abbrev Matcher := Cursor → List (Tree Rule) → Trace → Outcome

namespace Matcher

/-- The outcome at a place that may not exist. -/
def moveTo (stop : Option Cursor) (nodes : List (Tree Rule)) (trace : Trace) : Outcome :=
  match stop with
  | some stop => .matched stop nodes trace
  | none => .failed trace

/-- As many rounds as match, up to a number of them. -/
def rounds (round : Matcher) : Nat → Matcher
  | 0, _, _, _ => .exhausted
  | count + 1, here, nodes, trace =>
    match round here nodes trace with
    | .matched stop nodes trace => rounds round count stop nodes trace
    | .failed trace => .matched here nodes trace
    | .exhausted => .exhausted

end Matcher

/-- The bounds under which a source is matched. -/
structure Bounds where
  /-- The steps that matching may take. -/
  calls : Nat
  /-- The rounds that a repetition may run. -/
  rounds : Nat

/-- Matches a pattern, given how to enter a rule. -/
def Pattern.run (bounds : Bounds) (enter : Rule → Matcher) : Pattern → Matcher
  | empty, here, nodes, trace => .matched here nodes trace
  | text chars, here, nodes, trace => Matcher.moveTo (here.skipText? chars) nodes trace
  | anyCase chars, here, nodes, trace => Matcher.moveTo (here.skipAnyCase? chars) nodes trace
  | char accepts, here, nodes, trace => Matcher.moveTo (here.skipChar? accepts) nodes trace
  | finish, here, nodes, trace =>
    match here.rest with
    | [] => .matched here nodes trace
    | _ :: _ => .failed trace
  | rule r, here, nodes, trace => enter r here nodes trace
  | seq first second, here, nodes, trace =>
    match first.run bounds enter here nodes trace with
    | .matched stop nodes trace => second.run bounds enter stop nodes trace
    | .failed trace => .failed trace
    | .exhausted => .exhausted
  | choice first second, here, nodes, trace =>
    match first.run bounds enter here nodes trace with
    | .matched stop nodes trace => .matched stop nodes trace
    | .failed trace => second.run bounds enter here nodes trace
    | .exhausted => .exhausted
  | many round, here, nodes, trace =>
    Matcher.rounds (round.run bounds enter) bounds.rounds here nodes trace
  | opt part, here, nodes, trace =>
    match part.run bounds enter here nodes trace with
    | .matched stop nodes trace => .matched stop nodes trace
    | .failed trace => .matched here nodes trace
    | .exhausted => .exhausted
  | not part, here, nodes, trace =>
    match part.run bounds enter here nodes trace with
    | .matched _ _ trace => .failed trace
    | .failed trace => .matched here nodes trace
    | .exhausted => .exhausted
  | counted part, here, nodes, trace =>
    match trace.step? bounds.calls with
    | some trace => part.run bounds enter here nodes trace
    | none => .failed trace

/-- Matches a rule to a depth of rules inside it. The rule takes a step, adds one node over what
its pattern matched, and leaves a mark in the trace if the pattern failed. -/
def Rule.run (bounds : Bounds) : Nat → Rule → Matcher
  | 0, _, _, _, _ => .exhausted
  | depth + 1, rule, here, nodes, trace =>
    match trace.step? bounds.calls with
    | none => .failed trace
    | some trace =>
      let before := trace.expectedAt here.offset
      match rule.pattern.run bounds (Rule.run bounds depth) here [] trace with
      | .matched stop children trace =>
        let span : Span := ⟨here.offset, stop.offset⟩
        let excerpt : Excerpt := ⟨here.rest, stop.offset - here.offset⟩
        .matched stop (.node rule span excerpt children.reverse :: nodes) trace
      | .failed trace => .failed (trace.fail rule here.offset before)
      | .exhausted => .exhausted

namespace Rule

/-- The depth to which rules nest at most in a source of some length: between two characters no
rule is entered twice, and there are fewer rules than this factor. -/
def depthBound (length : Nat) : Nat := 64 * (length + 1)

/-- Matches a whole source with a rule, taking at most a number of steps. -/
def runOn (rule : Rule) (calls : Nat) (source : List Char) : Outcome :=
  rule.run ⟨calls, source.length + 1⟩ (depthBound source.length) (Cursor.start source) []
    Trace.start

end Rule

end Vimscript
