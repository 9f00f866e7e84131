import Vimscript.Grammar.Rule
import Vimscript.Text.Class

/-!
# Patterns

A rule matches by a pattern of a parsing expression grammar: choices are ordered, repetitions
take all they can, and a part that has matched is not tried another way. Blanks are no silent
convention here: the combinators for spaced sequences and repetitions put a pattern for a run of
spaces and tabs between the parts, and the tight ones do not. The blanks before a repetition
belong to the sequence around it and stay taken when the repetition matches nothing; the blanks
before a further round belong to that round and are given back with it.

Matching is metered. A pattern that counts takes one step from the budget each time it is
entered; the combinators place the counts: one for a sequence however long, for a repetition, an
option, a lookahead, a run of blanks and each blank in it.
-/

namespace Vimscript

/-- What a part of a rule matches. -/
inductive Pattern where
  /-- Nothing, always. -/
  | empty
  /-- These characters. -/
  | text (chars : List Char)
  /-- These characters in either letter case; they are given in lower case. -/
  | anyCase (chars : List Char)
  /-- One character of a class. -/
  | char (accepts : Char → Bool)
  /-- The end of the source. -/
  | finish
  /-- A rule, whose node it adds. -/
  | rule (rule : Rule)
  /-- One pattern after the other. -/
  | seq (first second : Pattern)
  /-- The first pattern or else the second. -/
  | choice (first second : Pattern)
  /-- As many rounds of a pattern as match. -/
  | many (round : Pattern)
  /-- A pattern, or nothing where it does not match. -/
  | opt (part : Pattern)
  /-- Nothing, where a pattern does not match. -/
  | not (part : Pattern)
  /-- A pattern at the price of one step. -/
  | counted (part : Pattern)

namespace Pattern

/-- A run of spaces and tabs, possibly empty. -/
def blanks : Pattern := counted (many (counted (char Text.isSpace)))

/-- The first of several patterns that matches. -/
def firstOf : List Pattern → Pattern
  | [] => not empty
  | [part] => part
  | part :: rest => choice part (firstOf rest)

/-- Patterns one after the other. -/
def chain : List Pattern → Pattern
  | [] => empty
  | [part] => part
  | part :: rest => seq part (chain rest)

/-- Patterns one after the other with blanks between any two. -/
def spacedChain : List Pattern → Pattern
  | [] => empty
  | [part] => part
  | part :: rest => seq part (seq blanks (spacedChain rest))

/-- A sequence without blanks. -/
def tight (parts : List Pattern) : Pattern := counted (chain parts)

/-- A sequence with blanks between its parts. -/
def spaced (parts : List Pattern) : Pattern := counted (spacedChain parts)

/-- A repetition without blanks. -/
def star (round : Pattern) : Pattern := counted (many round)

/-- A repetition with blanks between its rounds. -/
def spacedStar (round : Pattern) : Pattern :=
  counted (counted (opt (seq round (counted (many (counted (seq blanks round)))))))

/-- At least one round, without blanks. -/
def plus (round : Pattern) : Pattern := tight [round, star round]

/-- A pattern or nothing. -/
def optional (part : Pattern) : Pattern := counted (opt part)

/-- A lookahead that refuses what a pattern matches. -/
def without (part : Pattern) : Pattern := counted (not part)

/-- A literal token. -/
def token (chars : String) : Pattern := text chars.toList

/-- A literal token in either letter case. -/
def tokenAnyCase (chars : String) : Pattern := anyCase chars.toList

end Pattern

end Vimscript
