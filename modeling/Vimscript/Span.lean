import Vimscript.Text.Digits

/-!
# Byte spans

A span names a run of bytes of a source text by the offsets of its first byte and of the byte
after its last. Spans of trees built by hand may run backwards; such a span counts as empty, and
covering two spans takes the least start and the greatest stop whatever their order.
-/

namespace Vimscript

/-- The bytes from offset `start` up to, and not including, offset `stop`. -/
structure Span where
  /-- Offset of the first byte. -/
  start : Nat
  /-- Offset just past the last byte. -/
  stop : Nat
deriving DecidableEq, Repr, Inhabited

namespace Span

/-- The least span that covers both. -/
def merge (a b : Span) : Span := ⟨min a.start b.start, max a.stop b.stop⟩

/-- The number of bytes covered; none for a span that runs backwards. -/
def length (s : Span) : Nat := s.stop - s.start

/-- Whether no byte is covered. -/
def isEmpty (s : Span) : Bool := s.length == 0

/-- The span as error messages write it. -/
def text (s : Span) : List Char :=
  "Span \x7b start: ".toList ++ Text.natural s.start ++ ", end: ".toList ++
    Text.natural s.stop ++ " \x7d".toList

/-- Covering does not depend on the order of the two spans. -/
theorem merge_comm (a b : Span) : a.merge b = b.merge a := by
  simp only [merge, Nat.min_comm, Nat.max_comm]

/-- Covering three spans does not depend on how they are grouped. -/
theorem merge_assoc (a b c : Span) : (a.merge b).merge c = a.merge (b.merge c) := by
  simp only [merge, Nat.min_assoc, Nat.max_assoc]

/-- A span covers itself and nothing more. -/
theorem merge_self (a : Span) : a.merge a = a := by
  simp only [merge, Nat.min_self, Nat.max_self]

end Span

end Vimscript
