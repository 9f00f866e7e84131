import Vimscript.Nesting
import Vimscript.Text.Blank
import Vimscript.Proofs.Grammar.Starts

/-!
# The characters of tokens

No token begins or ends in a blank, and none but a string holds a blank or a delimiter.
-/

namespace Vimscript

namespace Text

/-- A text that does not end in a blank. -/
def EndsInk (u : List Char) : Prop := ∃ v c, u = v ++ [c] ∧ isSpace c = false

/-- The characters of the tokens that are no strings. -/
def isTokenChar (c : Char) : Bool := c.isAlphanum || "\"-*+_/:.%#=@?|&!<>~".toList.contains c

variable {c : Char} {u : List Char}

/-- A space or a tab is a blank. -/
theorem isBlank_of_isSpace (h : isSpace c = true) : isBlank c = true := by
  rcases (by simpa [isSpace] using h : c = ' ' ∨ c = '\t') with rfl | rfl <;> decide

/-- What is no blank is neither of them. -/
theorem isSpace_of_isBlank_eq_false (h : isBlank c = false) : isSpace c = false := by
  cases hc : isSpace c with
  | false => rfl
  | true => rw [isBlank_of_isSpace hc] at h; cases h

/-- The characters of tokens lie between the blanks of ASCII and those beyond it. -/
theorem isBlank_of_isTokenChar (h : isTokenChar c = true) : isBlank c = false := by
  have hrange : 0x21 ≤ c.toNat ∧ c.toNat ≤ 0x7E := by
    rcases Bool.or_eq_true_iff.mp h with h | h
    · simp only [Char.isAlphanum, Bool.or_eq_true, isAlpha_iff, isUpper_iff, isLower_iff,
        isDigit_iff] at h
      omega
    · have hall : "\"-*+_/:.%#=@?|&!<>~".toList.all
          (fun c => decide (0x21 ≤ c.toNat ∧ c.toNat ≤ 0x7E)) = true := by
        decide
      exact of_decide_eq_true (List.all_eq_true.mp hall c (List.contains_iff_mem.mp h))
  simp only [isBlank, blankRanges, inRanges, Bool.and_eq_false_iff, Bool.or_eq_false_iff,
    decide_eq_false_iff_not]
  omega

/-- No character of a token is a space or a tab. -/
theorem isSpace_of_isTokenChar (h : isTokenChar c = true) : isSpace c = false :=
  isSpace_of_isBlank_eq_false (isBlank_of_isTokenChar h)

/-- No closing delimiter is a blank. -/
theorem isBlank_of_closes (h : Nesting.closes c = true) : isBlank c = false := by
  simp only [Nesting.closes, Bool.or_eq_true, beq_iff_eq] at h
  rcases h with (rfl | rfl) | rfl <;> decide

/-- No character of a token closes anything. -/
theorem closes_of_isTokenChar (h : isTokenChar c = true) : Nesting.closes c = false := by
  cases hc : Nesting.closes c with
  | false => rfl
  | true =>
    rcases (by simpa [Nesting.closes] using hc : (c = ')' ∨ c = ']') ∨ c = '\x7d') with
      (rfl | rfl) | rfl <;> revert h <;> decide

/-- Letters, digits and underscores stand in tokens. -/
theorem isTokenChar_of_isWordChar (h : isWordChar c = true) : isTokenChar c = true := by
  rcases Bool.or_eq_true_iff.mp h with h | h
  · rw [isTokenChar, h, Bool.true_or]
  · obtain rfl := eq_of_beq h
    decide

/-- So do the characters of names. -/
theorem isTokenChar_of_isNameChar (h : isNameChar c = true) : isTokenChar c = true := by
  rcases Bool.or_eq_true_iff.mp h with h | h
  · exact isTokenChar_of_isWordChar h
  · obtain rfl := eq_of_beq h
    decide

/-- So do those that begin names. -/
theorem isTokenChar_of_isNameStart (h : isNameStart c = true) : isTokenChar c = true := by
  rcases Bool.or_eq_true_iff.mp h with h | h
  · rw [isTokenChar, Char.isAlphanum, h, Bool.true_or, Bool.true_or]
  · obtain rfl := eq_of_beq h
    decide

/-- So do digits. -/
theorem isTokenChar_of_isDigit (h : c.isDigit = true) : isTokenChar c = true :=
  isTokenChar_of_isWordChar (isWordChar_of_isDigit h)

/-- So do the names of registers. -/
theorem isTokenChar_of_isRegisterName (h : isRegisterName c = true) : isTokenChar c = true := by
  rcases Bool.or_eq_true_iff.mp h with h | h
  · rw [isTokenChar, h, Bool.true_or]
  · have signs : "\"-*+_/:.%#=@".toList.all isTokenChar = true := by decide
    exact List.all_eq_true.mp signs c (List.contains_iff_mem.mp h)

/-- A run of one class is a run of a wider one. -/
theorem all_of_all {accepts others : Char → Bool} (h : u.all accepts = true)
    (hmono : ∀ c, accepts c = true → others c = true) : u.all others = true := by
  rw [List.all_eq_true] at h ⊢
  exact fun c hc => hmono c (h c hc)

/-- A text that ends in neither a blank nor a closing delimiter. -/
def EndsOpen (u : List Char) : Prop :=
  ∃ v c, u = v ++ [c] ∧ isSpace c = false ∧ Nesting.closes c = false

/-- A text that is open at its end ends in ink. -/
theorem EndsOpen.endsInk (h : EndsOpen u) : EndsInk u := by
  obtain ⟨v, c, rfl, hc, -⟩ := h
  exact ⟨v, c, rfl, hc⟩

/-- It is open at its end behind any other. -/
theorem EndsOpen.append (h : EndsOpen u) (v : List Char) : EndsOpen (v ++ u) := by
  obtain ⟨w, c, rfl, hc, hc'⟩ := h
  exact ⟨v ++ w, c, (List.append_assoc v w [c]).symm, hc, hc'⟩

/-- A text of token characters is open at its end. -/
theorem endsOpen_of_all (hne : u ≠ []) (h : u.all isTokenChar = true) : EndsOpen u := by
  have hlast := List.all_eq_true.mp h _ (List.getLast_mem hne)
  exact ⟨_, _, (List.dropLast_concat_getLast hne).symm, isSpace_of_isTokenChar hlast,
    closes_of_isTokenChar hlast⟩

/-- A text without blanks does not end in one. -/
theorem endsInk_of_run (h : IsRun (fun c => !isSpace c) u) : EndsInk u :=
  ⟨_, _, (List.dropLast_concat_getLast h.1).symm, by
    simpa using List.all_eq_true.mp h.2 _ (List.getLast_mem h.1)⟩

/-- A number with a base is made of token characters. -/
theorem IsBased.all_isTokenChar {lower upper : Char} {isDigit : Char → Bool}
    (h : IsBased lower upper isDigit u) (hlower : isTokenChar lower = true)
    (hupper : isTokenChar upper = true) (hdigit : ∀ c, isDigit c = true → isWordChar c = true) :
    u.all isTokenChar = true := by
  obtain ⟨mark, digits, rfl, hmark, -, hdigits⟩ := h
  rw [List.all_cons, List.all_cons, all_of_all hdigits fun c hc =>
    isTokenChar_of_isWordChar (hdigit c hc)]
  rcases hmark with rfl | rfl
  · rw [hlower]
    decide
  · rw [hupper]
    decide

/-- A name is made of token characters. -/
theorem IsName.all_isTokenChar {starts accepts : Char → Bool} (h : IsName starts accepts u)
    (hstarts : ∀ c, starts c = true → isTokenChar c = true)
    (haccepts : ∀ c, accepts c = true → isTokenChar c = true) : u.all isTokenChar = true := by
  obtain ⟨c, v, rfl, hc, hv⟩ := h
  rw [List.all_cons, hstarts c hc, all_of_all hv haccepts]
  rfl

/-- The characters of an exponent. -/
def isExponentChar (c : Char) : Bool := c.isDigit || "eE+-".toList.contains c

/-- An exponent is made of digits, a letter and a sign. -/
theorem IsExponent.all_isExponentChar (h : IsExponent u) :
    u.all isExponentChar = true := by
  obtain ⟨mark, sign, digits, rfl, hmark, hsign, -, hdigits⟩ := h
  have hmark : isExponentChar mark = true := by rcases hmark with rfl | rfl <;> decide
  have hsign : sign.all isExponentChar = true := by rcases hsign with rfl | rfl | rfl <;> decide
  have hdigits : digits.all isExponentChar = true := all_of_all hdigits fun c hc => by
    rw [isExponentChar, hc, Bool.true_or]
  rw [List.cons_append, List.all_cons, List.all_append, hmark, hsign, hdigits]
  rfl

/-- All of these stand in tokens. -/
theorem IsExponent.all_isTokenChar (h : IsExponent u) : u.all isTokenChar = true :=
  all_of_all h.all_isExponentChar fun c hc => by
    rcases Bool.or_eq_true_iff.mp hc with hc | hc
    · exact isTokenChar_of_isDigit hc
    · have hmarks : "eE+-".toList.all isTokenChar = true := by decide
      exact List.all_eq_true.mp hmarks c (List.contains_iff_mem.mp hc)

end Text

namespace Rule

open Text

variable {r : Rule} {u rest : List Char}

/-- A token that is no string is made of token characters. -/
theorem lexeme_all_isTokenChar (hr : r ≠ .string) (hu : r.Lexeme u rest) :
    u.all isTokenChar = true := by
  cases r with
  | endOfInput =>
    obtain ⟨rfl, -⟩ := hu
    rfl
  | coalesce | orOp | andOp | sliceSep =>
    obtain rfl := hu
    decide
  | compareOp =>
    obtain ⟨relation, letterCase, rfl, -⟩ := hu
    cases relation <;> cases letterCase <;> decide
  | addOp => rcases hu with rfl | ⟨rfl, -⟩ | rfl | rfl <;> decide
  | mulOp | unaryOp => rcases hu with rfl | rfl | rfl <;> decide
  | optionScope => rcases hu with rfl | rfl <;> decide
  | blob =>
    obtain ⟨mark, digits, rfl, hmark, hdigits, -⟩ := hu
    have hall : digits.all isTokenChar = true := by
      refine all_of_all hdigits fun c hc => ?_
      rcases Bool.or_eq_true_iff.mp hc with hc | hc
      · exact isTokenChar_of_isWordChar (isWordChar_of_isHexDigit hc)
      · obtain rfl := eq_of_beq hc
        decide
    rw [List.all_cons, List.all_cons, hall]
    rcases hmark with rfl | rfl <;> decide
  | float =>
    obtain ⟨whole, fraction, exponent, rfl, hwhole, hfraction, -, hexponent⟩ := hu
    rw [List.all_append, List.all_append, List.all_cons,
      all_of_all hwhole.2 fun c => isTokenChar_of_isDigit,
      all_of_all hfraction.2 fun c => isTokenChar_of_isDigit]
    rcases hexponent with hexponent | ⟨rfl, -⟩
    · rw [hexponent.all_isTokenChar]
      decide
    · decide
  | integer =>
    obtain ⟨-, hu | hu | hu | hu⟩ := hu
    · exact hu.all_isTokenChar (by decide) (by decide) fun c => isWordChar_of_isHexDigit
    · exact hu.all_isTokenChar (by decide) (by decide) fun c => isWordChar_of_isBinaryDigit
    · exact hu.all_isTokenChar (by decide) (by decide) fun c => isWordChar_of_isOctalDigit
    · exact all_of_all hu.2 fun c => isTokenChar_of_isDigit
  | string => exact (hr rfl).elim
  | literalDictKey =>
    refine all_of_all hu.1.2 fun c hc => ?_
    rcases Bool.or_eq_true_iff.mp hc with hc | hc
    · exact isTokenChar_of_isWordChar hc
    · obtain rfl := eq_of_beq hc
      decide
  | lambdaParam =>
    exact hu.1.all_isTokenChar (fun c => isTokenChar_of_isNameStart) fun c =>
      isTokenChar_of_isWordChar
  | optionName =>
    refine hu.1.all_isTokenChar (fun c hc => ?_) fun c => isTokenChar_of_isWordChar
    exact isTokenChar_of_isNameStart (by rw [isNameStart, hc, Bool.true_or])
  | envName => exact all_of_all hu.1.2 fun c => isTokenChar_of_isWordChar
  | register =>
    obtain ⟨c, rfl, hc⟩ := hu
    rw [List.all_cons, List.all_cons, isTokenChar_of_isRegisterName hc]
    decide
  | scope =>
    obtain ⟨c, rfl, hc⟩ := hu
    rw [List.all_cons, isTokenChar_of_isNameStart (isNameStart_of_isScopeLetter hc)]
    decide
  | functionName | variableName =>
    exact hu.1.all_isTokenChar (fun c => isTokenChar_of_isNameStart) fun c =>
      isTokenChar_of_isNameChar
  | scopedName => exact all_of_all hu.1.2 fun c => isTokenChar_of_isNameChar
  | _ => exact hu.elim

/-- A token other than the end of input ends in neither a blank nor a closing delimiter. -/
theorem lexeme_endsOpen (hr : r ≠ .endOfInput) (hu : r.Lexeme u rest) : EndsOpen u := by
  by_cases hstring : r = .string
  · subst hstring
    rcases hu with ⟨body, -, rfl⟩ | ⟨body, -, rfl, -⟩
    · exact ⟨_, _, rfl, by decide, by decide⟩
    · exact ⟨_, _, rfl, by decide, by decide⟩
  · refine endsOpen_of_all ?_ (lexeme_all_isTokenChar hstring hu)
    have hempty : r.mayBeEmpty = false := by
      cases r <;> first | rfl | exact (hr rfl).elim | exact hu.elim
    obtain ⟨c, v, rfl, -⟩ := lexeme_starts hempty hu
    exact List.cons_ne_nil c v

/-- Every lexeme but the end of the input ends in ink. -/
theorem lexeme_endsInk (hr : r ≠ .endOfInput) (hu : r.Lexeme u rest) : EndsInk u :=
  (lexeme_endsOpen hr hu).endsInk

end Rule

end Vimscript
