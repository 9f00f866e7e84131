/-!
# Blank characters

The blanks are the characters of the Unicode property White_Space. The expression grammar skips
only spaces and tabs; this wider class decides whether an operator stands tight between its
operands, what is trimmed from a key, and which input lines hold nothing.
-/

namespace Vimscript.Text

/-- Closed ranges of the blank characters, ascending. -/
def blankRanges : List (Nat × Nat) :=
  [(0x09, 0x0D), (0x20, 0x20), (0x85, 0x85), (0xA0, 0xA0), (0x1680, 0x1680), (0x2000, 0x200A),
    (0x2028, 0x2029), (0x202F, 0x202F), (0x205F, 0x205F), (0x3000, 0x3000)]

/-- Whether a number lies in one of the ranges. The ranges ascend, so the search stops at the
first one that begins above the number. -/
def inRanges : List (Nat × Nat) → Nat → Bool
  | [], _ => false
  | (low, high) :: rest, n => low ≤ n && (n ≤ high || inRanges rest n)

/-- Whether a character is blank. -/
def isBlank (c : Char) : Bool := inRanges blankRanges c.toNat

/-- A text without its blanks at the end. -/
def trimEnd (text : List Char) : List Char := (text.reverse.dropWhile isBlank).reverse

/-- A text without its blanks at either end. -/
def trim (text : List Char) : List Char := trimEnd (text.dropWhile isBlank)

/-- Every character that the core library calls white space is blank. -/
theorem isBlank_of_isWhitespace {c : Char} (h : c.isWhitespace = true) : isBlank c = true := by
  simp only [Char.isWhitespace, Bool.or_eq_true, decide_eq_true_eq] at h
  rcases h with ((h | h) | h) | h <;> subst h <;> decide

/- The zero-width space, the byte order mark and letters are no blanks. -/
example :
    isBlank '\u200b' = false ∧ isBlank '\ufeff' = false ∧ isBlank 'a' = false := by decide

end Vimscript.Text
