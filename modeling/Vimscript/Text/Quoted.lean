/-!
# Quoted strings

A string of the language stands between double or between single quotes. Between double quotes a
backslash before a quote or a backslash is taken away, and every other backslash is kept for a
later stage that knows the whole escape table. Between single quotes the only escape is a quote
written twice, and that is the form in which strings are printed.
-/

namespace Vimscript.Text.Quoted

/-- The body of a double-quoted string, read from the left: a backslash goes where a quote or a
backslash follows it, and that character then stands for itself. -/
def unescapeDouble : List Char → List Char
  | [] => []
  | '\\' :: '"' :: rest => '"' :: unescapeDouble rest
  | '\\' :: '\\' :: rest => '\\' :: unescapeDouble rest
  | c :: rest => c :: unescapeDouble rest

/-- The body of a single-quoted string, read from the left: two quotes in a row stand for one. -/
def unescapeSingle : List Char → List Char
  | [] => []
  | '\'' :: '\'' :: rest => '\'' :: unescapeSingle rest
  | c :: rest => c :: unescapeSingle rest

/-- What stands between two quotes of the given kind. One character alone is no pair of quotes. -/
def body? (quote : Char) : List Char → Option (List Char)
  | [] => none
  | c :: rest =>
    if c = quote ∧ rest.getLast? = some quote then some rest.dropLast else none

/-- The text that a quoted string denotes, or nothing where the quotes are missing or differ. -/
def decode (text : List Char) : Option (List Char) :=
  match body? '"' text with
  | some body => some (unescapeDouble body)
  | none => (body? '\'' text).map unescapeSingle

/-- The body of the single-quoted form of a text: each quote is written twice. -/
def escapeSingle (text : List Char) : List Char :=
  text.flatMap fun c => if c = '\'' then ['\'', '\''] else [c]

/-- The single-quoted form of a text. -/
def encode (text : List Char) : List Char := '\'' :: escapeSingle text ++ ['\'']

/-- Doubled quotes are undone. -/
theorem unescapeSingle_escapeSingle (text : List Char) :
    unescapeSingle (escapeSingle text) = text := by
  induction text with
  | nil => rfl
  | cons c rest ih =>
    have step : escapeSingle (c :: rest) =
        (if c = '\'' then ['\'', '\''] else [c]) ++ escapeSingle rest := by
      simp only [escapeSingle, List.flatMap_cons]
    rw [step]
    by_cases h : c = '\''
    · subst h
      simp only [if_true, List.cons_append, List.nil_append, unescapeSingle, ih]
    · rw [if_neg h, List.cons_append, List.nil_append, unescapeSingle, ih]
      intro _ hc
      exact absurd hc h

/-- Reading the single-quoted form of a text gives the text. -/
theorem decode_encode (text : List Char) : decode (encode text) = some text := by
  have h : body? '"' (encode text) = none := rfl
  have single : body? '\'' (encode text) = some (escapeSingle text) := by
    simp only [encode, List.cons_append, body?, List.getLast?_append, List.getLast?_singleton,
      Option.some_or, and_self, if_true, List.dropLast_concat]
  simp only [decode, h, single, Option.map_some, unescapeSingle_escapeSingle]

end Vimscript.Text.Quoted
