import Vimscript.Text.Visible

/-!
# Escaped texts

The prefix form and the outline of an expression write a string between double quotes, with a
backslash before the quote and the backslash, a letter for the four commonest controls, and the
code point of every other character that is not visible.
-/

namespace Vimscript.Text.Escaped

/-- The code point of a character between braces, in lower-case hexadecimal digits. -/
def codePoint (c : Char) : List Char :=
  "\\u\x7b".toList ++ Nat.toDigits 16 c.toNat ++ "\x7d".toList

/-- What stands for one character between the quotes. -/
def escape (c : Char) : List Char :=
  match c with
  | '\x00' => ['\\', '0']
  | '\t' => ['\\', 't']
  | '\r' => ['\\', 'r']
  | '\n' => ['\\', 'n']
  | '"' => ['\\', '"']
  | '\\' => ['\\', '\\']
  | _ => if isVisible c then [c] else codePoint c

/-- A text between double quotes. -/
def encode (text : List Char) : List Char := '"' :: text.flatMap escape ++ ['"']

/-- A quote inside a text stands behind a backslash, and a plain character for itself. -/
example : encode "a\"b".toList = "\"a\\\"b\"".toList := by decide

end Vimscript.Text.Escaped
