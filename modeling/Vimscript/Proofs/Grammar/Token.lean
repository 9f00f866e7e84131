import Vimscript.Proofs.Grammar.Numbers
import Vimscript.Proofs.Grammar.Quotations
import Vimscript.Proofs.Grammar.Signs

/-!
# Tokens

The patterns of the tokens match exactly their lexemes: the operators, numbers and strings, and
here the names, scopes and registers. The main result is `Parses.token_iff`.
-/

namespace Vimscript

namespace Parses

variable {here stop : Cursor} {ts : List (Tree Rule)}

open Text Pattern

/-- A name and nothing more of one behind it. -/
theorem isName_some_iff {starts accepts : Char → Bool} :
    Parses (.tight [.char starts, .star (.char accepts)]) here (some (stop, ts)) ↔
      ∃ u, here.Moves u stop ∧ (IsName starts accepts u ∧ EndsBefore accepts stop.rest) ∧
        ts = [] := by
  rw [name_some_iff]
  constructor
  · rintro ⟨c, u, hc, hu, hmove, hend, rfl⟩
    exact ⟨_, hmove, ⟨⟨c, u, rfl, hc, hu⟩, hend⟩, rfl⟩
  · rintro ⟨_, hmove, ⟨⟨c, u, rfl, hc, hu⟩, hend⟩, rfl⟩
    exact ⟨c, u, hc, hu, hmove, hend, rfl⟩

/-- A run of a class and nothing more of it behind it. -/
theorem isRun_some_iff {accepts : Char → Bool} :
    Parses (.plus (.char accepts)) here (some (stop, ts)) ↔
      ∃ u, here.Moves u stop ∧ (IsRun accepts u ∧ EndsBefore accepts stop.rest) ∧ ts = [] := by
  rw [plus_char_some_iff]
  constructor
  · rintro ⟨u, hne, hu, hmove, hend, rfl⟩
    exact ⟨u, hmove, ⟨⟨hne, hu⟩, hend⟩, rfl⟩
  · rintro ⟨u, hmove, ⟨⟨hne, hu⟩, hend⟩, rfl⟩
    exact ⟨u, hne, hu, hmove, hend, rfl⟩

/-- A letter and the colon behind it. -/
theorem letterColon_some_iff {p : Pattern} {accepts : Char → Prop}
    (hp : ∀ (stop : Cursor) (ts : List (Tree Rule)), Parses p here (some (stop, ts)) ↔
      ∃ c, accepts c ∧ here.Moves [c] stop ∧ ts = []) :
    Parses (.tight [p, .token ":"]) here (some (stop, ts)) ↔
      ∃ u, here.Moves u stop ∧ (∃ c, u = [c, ':'] ∧ accepts c) ∧ ts = [] := by
  simp only [tight, chain, counted_iff, seq_some_iff, hp, token_some_iff]
  constructor
  · rintro ⟨_, _, _, ⟨c, hc, hmove, rfl⟩, ⟨hmove', rfl⟩, rfl⟩
    exact ⟨_, hmove.trans hmove', ⟨c, rfl, hc⟩, rfl⟩
  · rintro ⟨_, hmove, ⟨c, rfl, hc⟩, rfl⟩
    obtain ⟨mid, hfirst, hsecond⟩ := Cursor.Moves.cons_iff.mp hmove
    exact ⟨mid, [], [], ⟨c, hc, hfirst, rfl⟩, ⟨hsecond, rfl⟩, rfl⟩

/-- The scope of an option is one of two letters and a colon. -/
theorem optionScope_some_iff : Parses Rule.optionScope.pattern here (some (stop, ts)) ↔
    ∃ u, here.Moves u stop ∧ Rule.optionScope.Lexeme u stop.rest ∧ ts = [] := by
  have letter (stop : Cursor) (ts : List (Tree Rule)) :
      Parses (firstOf [.token "g", .token "l"]) here (some (stop, ts)) ↔
        ∃ c, (c = 'g' ∨ c = 'l') ∧ here.Moves [c] stop ∧ ts = [] := by
    simp only [firstOf, choice_some_iff, token_some_iff, token_none_iff]
    constructor
    · rintro (⟨hmove, rfl⟩ | ⟨-, hmove, rfl⟩)
      · exact ⟨'g', .inl rfl, hmove, rfl⟩
      · exact ⟨'l', .inr rfl, hmove, rfl⟩
    · rintro ⟨c, rfl | rfl, hmove, rfl⟩
      · exact .inl ⟨hmove, rfl⟩
      · exact .inr ⟨not_prefix_of_moves hmove (by decide) (by decide), hmove, rfl⟩
  simp only [Rule.pattern, tokenBody, counted_iff, letterColon_some_iff letter, Rule.Lexeme]
  constructor
  · rintro ⟨u, hmove, ⟨c, rfl, rfl | rfl⟩, rfl⟩
    · exact ⟨_, hmove, .inl rfl, rfl⟩
    · exact ⟨_, hmove, .inr rfl, rfl⟩
  · rintro ⟨u, hmove, rfl | rfl, rfl⟩
    · exact ⟨_, hmove, ⟨'g', rfl, .inl rfl⟩, rfl⟩
    · exact ⟨_, hmove, ⟨'l', rfl, .inr rfl⟩, rfl⟩

/-- The scope of a name is a letter for scopes and a colon. -/
theorem scope_some_iff : Parses Rule.scope.pattern here (some (stop, ts)) ↔
    ∃ u, here.Moves u stop ∧ Rule.scope.Lexeme u stop.rest ∧ ts = [] := by
  simp only [Rule.pattern, tokenBody, counted_iff, Rule.Lexeme]
  exact letterColon_some_iff fun stop ts => char_some_iff

/-- A register is its sign and a character. -/
theorem register_some_iff : Parses Rule.register.pattern here (some (stop, ts)) ↔
    ∃ u, here.Moves u stop ∧ Rule.register.Lexeme u stop.rest ∧ ts = [] := by
  simp only [Rule.pattern, tokenBody, tight, chain, counted_iff, seq_some_iff, token_some_iff,
    char_some_iff, Rule.Lexeme]
  constructor
  · rintro ⟨_, _, _, ⟨hmove, rfl⟩, ⟨c, hc, hmove', rfl⟩, rfl⟩
    exact ⟨_, hmove.trans hmove', ⟨c, rfl, hc⟩, rfl⟩
  · rintro ⟨_, hmove, ⟨c, rfl, hc⟩, rfl⟩
    obtain ⟨mid, hfirst, hsecond⟩ := Cursor.Moves.cons_iff.mp hmove
    exact ⟨mid, [], [], ⟨hfirst, rfl⟩, ⟨c, hc, hsecond, rfl⟩, rfl⟩

/-- The end of the input stands where nothing is left. -/
theorem endOfInput_some_iff : Parses Rule.endOfInput.pattern here (some (stop, ts)) ↔
    ∃ u, here.Moves u stop ∧ Rule.endOfInput.Lexeme u stop.rest ∧ ts = [] := by
  simp only [Rule.pattern, Rule.Lexeme]
  constructor
  · intro h
    generalize hres : some (stop, ts) = res at h
    cases h with
    | finish =>
      split at hres
      · rename_i hrest
        obtain ⟨rfl, rfl⟩ := Prod.mk.inj (Option.some.inj hres)
        exact ⟨[], .refl _, ⟨rfl, hrest⟩, rfl⟩
      · cases hres
  · rintro ⟨_, hmove, ⟨rfl, hrest⟩, rfl⟩
    obtain rfl := (Cursor.Moves.refl here).stop_unique hmove
    have h : Parses .finish here _ := .finish
    rwa [if_pos hrest] at h

/-- The pattern of a token matches its lexemes. -/
theorem pattern_some_iff {r : Rule} (hr : r.isToken = true) :
    Parses r.pattern here (some (stop, ts)) ↔
      ∃ u, here.Moves u stop ∧ r.Lexeme u stop.rest ∧ ts = [] := by
  have fixed {chars : String} {u : List Char} (h : u = chars.toList) :
      Parses (.token chars) here (some (stop, ts)) ↔
        ∃ v, here.Moves v stop ∧ v = u ∧ ts = [] := by
    rw [token_some_iff, ← h]
    exact ⟨fun h => ⟨_, h.1, rfl, h.2⟩, fun ⟨_, h, rfl, h'⟩ => ⟨h, h'⟩⟩
  cases r with
  | endOfInput => exact endOfInput_some_iff
  | coalesce | orOp | andOp | sliceSep => exact fixed rfl
  | compareOp => exact compareOp_some_iff
  | addOp => exact addOp_some_iff
  | mulOp => exact mulOp_some_iff
  | unaryOp => exact unaryOp_some_iff
  | blob => exact blob_some_iff
  | float => exact float_some_iff
  | integer => exact integer_some_iff
  | string => exact string_some_iff
  | literalDictKey | envName | scopedName => exact counted_iff.trans isRun_some_iff
  | lambdaParam | optionName | functionName | variableName =>
    exact counted_iff.trans isName_some_iff
  | optionScope => exact optionScope_some_iff
  | register => exact register_some_iff
  | scope => exact scope_some_iff
  | _ => cases hr

/-- A token adds one node over a lexeme. -/
theorem token_iff {r : Rule} (hr : r.isToken = true) :
    Parses (.rule r) here (some (stop, ts)) ↔
      ∃ u, here.Moves u stop ∧ r.Lexeme u stop.rest ∧ ts = [r.node here stop []] := by
  rw [rule_some_iff]
  constructor
  · rintro ⟨children, h, rfl⟩
    obtain ⟨u, hmove, hu, rfl⟩ := (pattern_some_iff hr).mp h
    exact ⟨u, hmove, hu, rfl⟩
  · rintro ⟨u, hmove, hu, rfl⟩
    exact ⟨[], (pattern_some_iff hr).mpr ⟨u, hmove, hu, rfl⟩, rfl⟩

end Parses

end Vimscript
