import Vimscript.Operator
import Vimscript.Proofs.Grammar.Progress
import Vimscript.Proofs.Grammar.Scan

/-!
# Lexemes

A token is a rule that enters no other rule. For each one this file says which texts it matches
and what may follow them, apart from the pattern that scans them. Names, numbers and runs of digits
take all that they can, which is why a lexeme also restricts the text behind it.
-/

namespace Vimscript

namespace Text

/-- What may stand between two double quotes: a backslash goes with the character behind it. -/
inductive DoubleBody : List Char → Prop where
  | nil : DoubleBody []
  | escape {c : Char} {body : List Char} (h : DoubleBody body) : DoubleBody ('\\' :: c :: body)
  | plain {c : Char} {body : List Char} (hquote : c ≠ '"') (hslash : c ≠ '\\')
    (h : DoubleBody body) : DoubleBody (c :: body)

/-- What may stand between two single quotes: quotes stand in pairs. -/
inductive SingleBody : List Char → Prop where
  | nil : SingleBody []
  | quote {body : List Char} (h : SingleBody body) : SingleBody ('\'' :: '\'' :: body)
  | plain {c : Char} {body : List Char} (hquote : c ≠ '\'') (h : SingleBody body) :
    SingleBody (c :: body)

/-- The exponent of a float: `e`, perhaps a sign, and digits. -/
def IsExponent (u : List Char) : Prop :=
  ∃ mark sign digits, u = mark :: sign ++ digits ∧ (mark = 'e' ∨ mark = 'E') ∧
    (sign = [] ∨ sign = ['+'] ∨ sign = ['-']) ∧ digits ≠ [] ∧ digits.all Char.isDigit = true

/-- Digits behind a zero and a letter that names their base. -/
def IsBased (lower upper : Char) (isDigit : Char → Bool) (u : List Char) : Prop :=
  ∃ mark digits, u = '0' :: mark :: digits ∧ (mark = lower ∨ mark = upper) ∧ digits ≠ [] ∧
    digits.all isDigit = true

/-- A nonempty run of a class. -/
def IsRun (accepts : Char → Bool) (u : List Char) : Prop := u ≠ [] ∧ u.all accepts = true

/-- A character of one class before a run of another. -/
def IsName (starts accepts : Char → Bool) (u : List Char) : Prop :=
  ∃ c v, u = c :: v ∧ starts c = true ∧ v.all accepts = true

/-- A digit is a letter or a digit. -/
theorem isWordChar_of_isDigit {c : Char} (h : c.isDigit = true) : isWordChar c = true := by
  simp only [isWordChar, Char.isAlphanum, h, Bool.or_true, Bool.true_or]

/-- So is a digit of any base. -/
theorem isWordChar_of_isHexDigit {c : Char} (h : isHexDigit c = true) : isWordChar c = true := by
  simp only [isHexDigit, Bool.or_eq_true, Bool.and_eq_true, decide_eq_true_eq] at h
  simp only [isWordChar, Char.isAlphanum, Bool.or_eq_true, isAlpha_iff, isLower_iff, isUpper_iff]
  rcases h with (h | ⟨h, h'⟩) | ⟨h, h'⟩
  · exact .inl (.inr h)
  · exact .inl (.inl (.inr ⟨h, Nat.le_trans h' (by decide)⟩))
  · exact .inl (.inl (.inl ⟨h, Nat.le_trans h' (by decide)⟩))

/-- An octal digit is a letter or a digit. -/
theorem isWordChar_of_isOctalDigit {c : Char} (h : isOctalDigit c = true) :
    isWordChar c = true := by
  have range := isOctalDigit_iff.mp h
  exact isWordChar_of_isDigit (isDigit_iff.mpr ⟨range.1, by omega⟩)

/-- So is a binary digit. -/
theorem isWordChar_of_isBinaryDigit {c : Char} (h : isBinaryDigit c = true) :
    isWordChar c = true := by
  simp only [isBinaryDigit, Bool.or_eq_true, beq_iff_eq] at h
  rcases h with rfl | rfl <;> decide

end Text

/-- What may follow the token of a relation, case sign included, for it to be that relation. -/
def Comparison.EndsBefore (relation : Comparison) (rest : List Char) : Prop :=
  match relation with
  | greater | less => Text.EndsBefore (· == '=') rest
  | same | different => Text.EndsBefore Text.isWordChar rest
  | _ => True

/-- The relations that a sign names, in the order in which the grammar tries them. -/
def Comparison.signs : List Comparison :=
  [equal, notEqual, greaterOrEqual, lessOrEqual, isMatch, noMatch, greater, less]

namespace Rule

open Text

/-- Whether a rule enters no other rule. -/
def isToken : Rule → Bool
  | endOfInput | coalesce | orOp | andOp | compareOp | addOp | mulOp | unaryOp | sliceSep | blob
  | float | integer | string | literalDictKey | lambdaParam | optionScope | optionName | envName
  | register | scope | functionName | variableName | scopedName => true
  | _ => false

/-- The texts that a token matches, with what follows them. -/
def Lexeme : Rule → List Char → List Char → Prop
  | endOfInput, u, rest => u = [] ∧ rest = []
  | coalesce, u, _ => u = ['?', '?']
  | orOp, u, _ => u = ['|', '|']
  | andOp, u, _ => u = ['&', '&']
  | compareOp, u, rest => ∃ (relation : Comparison) (letterCase : LetterCase),
      u = relation.text ++ letterCase.text ∧ relation.EndsBefore (letterCase.text ++ rest) ∧
        (letterCase = .followOption → EndsBefore (fun c => c == '#' || c == '?') rest)
  | addOp, u, rest =>
    u = ['.', '.'] ∨ u = ['.'] ∧ EndsBefore (· == '.') rest ∨ u = ['+'] ∨ u = ['-']
  | mulOp, u, _ => u = ['*'] ∨ u = ['/'] ∨ u = ['%']
  | unaryOp, u, _ => u = ['!'] ∨ u = ['-'] ∨ u = ['+']
  | sliceSep, u, _ => u = [':']
  | blob, u, rest => ∃ mark digits, u = '0' :: mark :: digits ∧ (mark = 'z' ∨ mark = 'Z') ∧
      digits.all (fun c => isHexDigit c || c == '.') = true ∧
        EndsBefore (fun c => isHexDigit c || c == '.') rest
  | float, u, rest => ∃ whole fraction exponent, u = whole ++ '.' :: fraction ++ exponent ∧
      IsRun Char.isDigit whole ∧ IsRun Char.isDigit fraction ∧ EndsBefore Char.isDigit rest ∧
        (IsExponent exponent ∨ exponent = [] ∧ ∀ v, IsExponent v → ¬ v <+: rest)
  | integer, u, rest => EndsBefore isWordChar rest ∧
      (IsBased 'x' 'X' isHexDigit u ∨ IsBased 'b' 'B' isBinaryDigit u ∨
        IsBased 'o' 'O' isOctalDigit u ∨ IsRun Char.isDigit u)
  | string, u, rest => (∃ body, DoubleBody body ∧ u = '"' :: body ++ ['"']) ∨
      ∃ body, SingleBody body ∧ u = '\'' :: body ++ ['\''] ∧ EndsBefore (· == '\'') rest
  | literalDictKey, u, rest => IsRun isKeyChar u ∧ EndsBefore isKeyChar rest
  | lambdaParam, u, rest => IsName isNameStart isWordChar u ∧ EndsBefore isWordChar rest
  | optionScope, u, _ => u = ['g', ':'] ∨ u = ['l', ':']
  | optionName, u, rest => IsName Char.isAlpha isWordChar u ∧ EndsBefore isWordChar rest
  | envName, u, rest => IsRun isWordChar u ∧ EndsBefore isWordChar rest
  | register, u, _ => ∃ c, u = ['@', c] ∧ isRegisterName c = true
  | scope, u, _ => ∃ c, u = [c, ':'] ∧ isScopeLetter c = true
  | functionName, u, rest => IsName isNameStart isNameChar u ∧ EndsBefore isNameChar rest
  | variableName, u, rest => IsName isNameStart isNameChar u ∧ EndsBefore isNameChar rest
  | scopedName, u, rest => IsRun isNameChar u ∧ EndsBefore isNameChar rest
  | _, _, _ => False

end Rule

namespace Parses

variable {here stop : Cursor} {ts : List (Tree Rule)}

open Text Pattern

/-- A fixed text matches itself and makes no node. -/
theorem token_some_iff {chars : String} : Parses (.token chars) here (some (stop, ts)) ↔
    here.Moves chars.toList stop ∧ ts = [] := text_some_iff

/-- It fails where it does not stand. -/
theorem token_none_iff {chars : String} : Parses (.token chars) here none ↔
    ¬ chars.toList <+: here.rest := text_none_iff

/-- Of two texts that part, one is not at the front where the other is. -/
theorem not_prefix_of_moves {u v : List Char} (h : here.Moves u stop) (hv : ¬ v <+: u)
    (hu : ¬ u <+: v) : ¬ v <+: here.rest := by
  intro hprefix
  rw [h.rest_eq] at hprefix
  rcases List.prefix_or_prefix_of_prefix hprefix (List.prefix_append u stop.rest) with h | h
  · exact hv h
  · exact hu h

end Parses

end Vimscript
