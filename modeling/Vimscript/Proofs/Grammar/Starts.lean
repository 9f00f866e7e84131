import Vimscript.Proofs.Grammar.Progress
import Vimscript.Proofs.Grammar.Sound
import Vimscript.Scope

/-!
# First characters

The characters with which texts of a rule begin. A rule fails where another character stands, and
since nearly all alternatives of the grammar begin differently, this one fact decides most of its
choices.
-/

namespace Vimscript

namespace Text

/-- The characters with which a primary begins. -/
def startsPrimary (c : Char) : Bool :=
  c.isDigit || isNameStart c || "\"'#\x7b[(&$@".toList.contains c

/-- The characters with which an expression begins, entered where blanks may come first. -/
def startsOperand (c : Char) : Bool := isSpace c || startsPrimary c || "!-+".toList.contains c

/-- The letter of a scope can begin a name. -/
theorem isNameStart_of_isScopeLetter {c : Char} (h : isScopeLetter c = true) :
    isNameStart c = true := by
  obtain ⟨s, rfl⟩ := Scope.exists_letter h
  cases s <;> decide

end Text

/-- The characters with which the texts of a rule begin. -/
def Rule.starts : Rule → Char → Bool
  | expression | expr | logicalOr | logicalAnd | comparison | additive | multiplicative | unary
  | callArg | dictEntry => Text.startsOperand
  | postfixed | primary => Text.startsPrimary
  | coalesce | ternaryThen => (· == '?')
  | orOp => (· == '|')
  | andOp | option => (· == '&')
  | compareOp => "=!<>i".toList.contains
  | addOp => ".+-".toList.contains
  | mulOp => "*/%".toList.contains
  | unaryOp => "!-+".toList.contains
  | subscript | list => (· == '[')
  | sliceSep => (· == ':')
  | methodCall => (· == '-')
  | callArgs => (· == '(')
  | blob => (· == '0')
  | float | integer => Char.isDigit
  | string => fun c => c == '"' || c == '\''
  | dict | lambda | lambdaExpr => (· == '\x7b')
  | literalDict => (· == '#')
  | literalDictEntry | literalDictKey => Text.isKeyChar
  | lambdaParams | lambdaParam | functionName | variableName | functionCall | variableRef =>
    Text.isNameStart
  | optionScope | optionName => Char.isAlpha
  | envVariable => (· == '$')
  | envName => Text.isWordChar
  | register => (· == '@')
  | scope => Text.isScopeLetter
  | scopedName => Text.isNameChar
  | endOfInput => fun _ => false

/-- The characters with which the texts of a pattern begin. -/
def Pattern.starts : Pattern → Char → Bool
  | text chars => fun c => chars.head? == some c
  | char accepts => accepts
  | rule r => r.starts
  | seq first second => fun c => first.starts c || first.mayBeEmpty && second.starts c
  | choice first second => fun c => first.starts c || second.starts c
  | many part | opt part | counted part => part.starts
  | _ => fun _ => false

namespace Rule

open Text Pattern

/-- A number with a base begins with a digit. -/
theorem starts_of_isBased {lower upper : Char} {isDigit : Char → Bool} {u : List Char}
    (h : IsBased lower upper isDigit u) : ∃ c v, u = c :: v ∧ c.isDigit = true := by
  obtain ⟨mark, digits, rfl, -⟩ := h
  exact ⟨'0', mark :: digits, rfl, rfl⟩

/-- A run begins with a character of its class. -/
theorem starts_of_isRun {accepts : Char → Bool} {u : List Char} (h : IsRun accepts u) :
    ∃ c v, u = c :: v ∧ accepts c = true := by
  obtain ⟨hne, hu⟩ := h
  cases u with
  | nil => exact (hne rfl).elim
  | cons c v => exact ⟨c, v, rfl, (Bool.and_eq_true_iff.mp (List.all_cons ▸ hu)).1⟩

/-- A name begins with one of the characters that can. -/
theorem starts_of_isName {starts accepts : Char → Bool} {u : List Char}
    (h : IsName starts accepts u) : ∃ c v, u = c :: v ∧ starts c = true := by
  obtain ⟨c, v, rfl, hc, -⟩ := h
  exact ⟨c, v, rfl, hc⟩

/-- A token other than the end of input begins with a character of its class. -/
theorem lexeme_starts {r : Rule} (hempty : r.mayBeEmpty = false) {u rest : List Char}
    (hu : r.Lexeme u rest) : ∃ c v, u = c :: v ∧ r.starts c = true := by
  cases r with
  | coalesce | orOp | andOp | sliceSep =>
    obtain rfl := hu
    exact ⟨_, _, rfl, rfl⟩
  | compareOp =>
    obtain ⟨relation, letterCase, rfl, -⟩ := hu
    cases relation <;> exact ⟨_, _, rfl, by decide⟩
  | addOp => rcases hu with rfl | ⟨rfl, -⟩ | rfl | rfl <;> exact ⟨_, _, rfl, by decide⟩
  | mulOp => rcases hu with rfl | rfl | rfl <;> exact ⟨_, _, rfl, by decide⟩
  | unaryOp => rcases hu with rfl | rfl | rfl <;> exact ⟨_, _, rfl, by decide⟩
  | blob =>
    obtain ⟨mark, digits, rfl, -⟩ := hu
    exact ⟨_, _, rfl, rfl⟩
  | float =>
    obtain ⟨whole, fraction, exponent, rfl, hwhole, -⟩ := hu
    obtain ⟨c, v, rfl, hc⟩ := starts_of_isRun hwhole
    exact ⟨_, _, rfl, hc⟩
  | integer =>
    obtain ⟨-, hu | hu | hu | hu⟩ := hu
    · exact starts_of_isBased hu
    · exact starts_of_isBased hu
    · exact starts_of_isBased hu
    · exact starts_of_isRun hu
  | string =>
    rcases hu with ⟨body, -, rfl⟩ | ⟨body, -, rfl, -⟩ <;> exact ⟨_, _, rfl, by decide⟩
  | literalDictKey | envName | scopedName => exact starts_of_isRun hu.1
  | lambdaParam | optionName | functionName | variableName => exact starts_of_isName hu.1
  | optionScope => rcases hu with rfl | rfl <;> exact ⟨_, _, rfl, by decide⟩
  | register =>
    obtain ⟨c, rfl, -⟩ := hu
    exact ⟨_, _, rfl, rfl⟩
  | scope =>
    obtain ⟨c, rfl, hc⟩ := hu
    exact ⟨_, _, rfl, hc⟩
  | endOfInput => cases hempty
  | _ => exact hu.elim

/-- The pattern of a rule begins as the rule does. -/
theorem pattern_starts {r : Rule} (hr : r.isToken = false) (c : Char)
    (hc : r.pattern.starts c = true) : r.starts c = true := by
  cases r
  all_goals first | (cases hr; done) | skip
  all_goals
    simp [Rule.pattern, tier, spaced, tight, spacedChain, chain, firstOf, call, changesSpacing,
      Pattern.starts, Rule.starts, Pattern.mayBeEmpty, Rule.mayBeEmpty, token, spacedStar, blanks,
      Pattern.optional] at hc ⊢
  case expression =>
    rcases hc with hc | hc
    · simp [startsOperand, hc]
    · exact hc
  case unary =>
    simp [startsOperand]
    rcases hc with hc | hc | hc
    · exact .inr hc
    · exact .inl (.inl hc)
    · exact .inl (.inr hc)
  case primary =>
    rcases hc with rfl | hc | hc | rfl | rfl | rfl | rfl | rfl | rfl | rfl | hc
    · decide
    · simp [startsPrimary, hc]
    · rcases hc with rfl | rfl <;> decide
    · decide
    · decide
    · decide
    · decide
    · decide
    · decide
    · decide
    · simp [startsPrimary, hc]
  case functionCall | variableRef => exact hc.elim isNameStart_of_isScopeLetter id
  all_goals first | exact hc | exact hc.symm

end Rule

namespace Derives

variable {here stop : Cursor} {p : Pattern} {r : Rule} {ts : List (Tree Rule)}

/-- What is derived is empty, or begins as the pattern does. -/
theorem starts (h : Derives p here stop ts) : stop = here ∧ p.mayBeEmpty = true ∨
    ∃ c u, here.Moves (c :: u) stop ∧ p.starts c = true := by
  induction h with
  | empty | absent | done => exact .inl ⟨rfl, rfl⟩
  | @text here stop chars h =>
    cases chars with
    | nil => exact .inl ⟨((Cursor.Moves.refl here).stop_unique h).symm, rfl⟩
    | cons c chars => exact .inr ⟨c, chars, h, beq_self_eq_true _⟩
  | char hc h => exact .inr ⟨_, [], h, hc⟩
  | @token here stop r u hr h hu =>
    cases hempty : r.mayBeEmpty with
    | true =>
      cases r with
      | endOfInput =>
        obtain ⟨rfl, -⟩ := hu
        exact .inl ⟨((Cursor.Moves.refl here).stop_unique h).symm, hempty⟩
      | callArg | lambdaParams => cases hr
      | _ => cases hempty
    | false =>
      obtain ⟨c, v, rfl, hc⟩ := Rule.lexeme_starts hempty hu
      exact .inr ⟨c, v, h, hc⟩
  | @rule here stop r children hr _ _ ih =>
    rcases ih with ⟨rfl, hempty⟩ | ⟨c, u, hmove, hc⟩
    · refine .inl ⟨rfl, ?_⟩
      cases hr : r.mayBeEmpty with
      | true => exact hr
      | false =>
        rw [Rule.mayBeEmpty_of_pattern hr] at hempty
        cases hempty
    · exact .inr ⟨c, u, hmove, Rule.pattern_starts hr c hc⟩
  | @seq _ _ _ p q _ _ _ h' ih ih' =>
    rcases ih with ⟨rfl, hempty⟩ | ⟨c, u, hmove, hc⟩
    · rcases ih' with ⟨rfl, hempty'⟩ | ⟨c, u, hmove, hc⟩
      · exact .inl ⟨rfl, Bool.and_eq_true_iff.mpr ⟨hempty, hempty'⟩⟩
      · have hc : (p.seq q).starts c = true := by
          simp only [Pattern.starts, hempty, hc, Bool.and_self, Bool.or_true]
        exact .inr ⟨c, u, hmove, hc⟩
    · have hc : (p.seq q).starts c = true := by simp only [Pattern.starts, hc, Bool.true_or]
      obtain ⟨v, hmove'⟩ := h'.moves
      exact .inr ⟨c, u ++ v, hmove.trans hmove', hc⟩
  | left _ ih =>
    rcases ih with ⟨rfl, hempty⟩ | ⟨c, u, hmove, hc⟩
    · exact .inl ⟨rfl, Bool.or_eq_true_iff.mpr (.inl hempty)⟩
    · exact .inr ⟨c, u, hmove, Bool.or_eq_true_iff.mpr (.inl hc)⟩
  | right _ ih =>
    rcases ih with ⟨rfl, hempty⟩ | ⟨c, u, hmove, hc⟩
    · exact .inl ⟨rfl, Bool.or_eq_true_iff.mpr (.inr hempty)⟩
    · exact .inr ⟨c, u, hmove, Bool.or_eq_true_iff.mpr (.inr hc)⟩
  | present _ ih =>
    rcases ih with ⟨rfl, -⟩ | hstarts
    · exact .inl ⟨rfl, rfl⟩
    · exact .inr hstarts
  | again _ h' ih ih' =>
    rcases ih with ⟨rfl, -⟩ | ⟨c, u, hmove, hc⟩
    · rcases ih' with ⟨rfl, -⟩ | hstarts
      · exact .inl ⟨rfl, rfl⟩
      · exact .inr hstarts
    · obtain ⟨v, hmove'⟩ := h'.moves
      exact .inr ⟨c, u ++ v, hmove.trans hmove', hc⟩
  | counted _ ih => exact ih

/-- What a pattern derives that cannot be empty begins as the pattern does. -/
theorem starts_cons (h : Derives p here stop ts) (hp : p.mayBeEmpty = false) :
    ∃ c u, here.Moves (c :: u) stop ∧ p.starts c = true := by
  rcases h.starts with ⟨-, hempty⟩ | hstarts
  · rw [hp] at hempty
    cases hempty
  · exact hstarts

/-- A pattern that takes some text leaves less of it. -/
theorem length_lt (h : Derives p here stop ts) (hp : p.mayBeEmpty = false) :
    stop.rest.length < here.rest.length := by
  obtain ⟨c, u, hmove, -⟩ := h.starts_cons hp
  exact hmove.length_lt (List.cons_ne_nil c u)

/-- It moves over some text. -/
theorem not_moves_nil (h : Derives p here stop ts) (hp : p.mayBeEmpty = false) :
    ¬ here.Moves [] stop := by
  intro hmove
  have hlt := h.length_lt hp
  rw [hmove.rest_eq] at hlt
  exact Nat.lt_irrefl _ hlt

/-- A pattern derives nothing where it does not begin. -/
theorem not_of_endsBefore (hp : p.mayBeEmpty = false) (h : Text.EndsBefore p.starts here.rest) :
    ¬ Derives p here stop ts := by
  intro hderives
  obtain ⟨c, u, hmove, hc⟩ := hderives.starts_cons hp
  rw [hmove.rest_eq, List.cons_append, Text.endsBefore_cons, hc] at h
  cases h

end Derives

/-- A pattern fails where it does not begin. -/
theorem Parses.none_of_endsBefore {p : Pattern} {here : Cursor}
    (hp : p.mayBeEmpty = false ∧ p.isPlain = true ∧ p.ranked Pattern.topRank = true)
    (h : Text.EndsBefore p.starts here.rest) : Parses p here none :=
  Pattern.parses_none hp.2.2 fun _ _ hsome =>
    Derives.not_of_endsBefore hp.1 h (hsome.derives_of_plain hp.2.1 _ rfl)

end Vimscript
