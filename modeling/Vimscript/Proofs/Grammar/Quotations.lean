import Vimscript.Proofs.Grammar.Lexeme

/-!
# Quotations

A string is read round by round: inside double quotes a round is an escape or one plain character,
inside single quotes a pair of quotes or one plain character. The rounds end where no further one
stands, which is in front of the closing quote.
-/

namespace Vimscript

namespace Parses

variable {here stop : Cursor} {ts : List (Tree Rule)}

open Text Pattern

/-- A repetition whose rounds are texts of a kind takes such texts until none stands there. -/
theorem many_units_iff {p : Pattern} {unit : List Char → Prop}
    (hp : ∀ (here stop : Cursor) (ts : List (Tree Rule)), Parses p here (some (stop, ts)) ↔
      ∃ u, unit u ∧ here.Moves u stop ∧ ts = []) :
    Parses (.many p) here (some (stop, ts)) ↔ ∃ us : List (List Char), (∀ u ∈ us, unit u) ∧
      here.Moves us.flatten stop ∧ Parses p stop none ∧ ts = [] := by
  constructor
  · intro h
    generalize hq : Pattern.many p = q at h
    generalize hres : some (stop, ts) = res at h
    induction h generalizing stop ts with
    | done h =>
      cases hq
      obtain ⟨rfl, rfl⟩ := Prod.mk.inj (Option.some.inj hres)
      exact ⟨[], nofun, .refl _, h, rfl⟩
    | again h _ _ ih =>
      cases hq
      obtain ⟨rfl, rfl⟩ := Prod.mk.inj (Option.some.inj hres)
      obtain ⟨u, hu, hmove, rfl⟩ := (hp _ _ _).mp h
      obtain ⟨us, hus, hmoves, hnone, rfl⟩ := ih rfl rfl
      exact ⟨u :: us, List.forall_mem_cons.mpr ⟨hu, hus⟩, hmove.trans hmoves, hnone, rfl⟩
    | _ => cases hq
  · rintro ⟨us, hus, hmoves, hnone, rfl⟩
    induction us generalizing here with
    | nil =>
      obtain rfl := (Cursor.Moves.refl here).stop_unique hmoves
      exact .done hnone
    | cons u us ih =>
      obtain ⟨hu, hus⟩ := List.forall_mem_cons.mp hus
      obtain ⟨mid, hmove, hmoves⟩ := Cursor.Moves.append_iff.mp hmoves
      exact .again ((hp _ _ _).mpr ⟨u, hu, hmove, rfl⟩) (ih hus hmoves)

/-- One character that is none of two. -/
theorem plain_some_iff {p : Pattern} {accepts : Char → Bool}
    (hp : ∀ here, Parses p here none ↔ EndsBefore accepts here.rest) :
    Parses (.tight [.without p, anyChar]) here (some (stop, ts)) ↔
      ∃ c, accepts c = false ∧ here.Moves [c] stop ∧ ts = [] := by
  simp only [tight, chain, without, anyChar, counted_iff, seq_some_iff, not_some_iff, hp,
    char_some_iff]
  constructor
  · rintro ⟨_, _, _, ⟨hend, rfl, rfl⟩, ⟨c, -, hmove, rfl⟩, rfl⟩
    exact ⟨c, hend c (by rw [hmove.rest_eq]; rfl), hmove, rfl⟩
  · rintro ⟨c, hc, hmove, rfl⟩
    refine ⟨here, [], [], ⟨?_, rfl, rfl⟩, ⟨c, trivial, hmove, rfl⟩, rfl⟩
    rw [hmove.rest_eq]
    exact endsBefore_cons.mpr hc

/-- What one round inside double quotes takes. -/
def DoubleUnit (u : List Char) : Prop :=
  (∃ c, u = ['\\', c]) ∨ ∃ c, u = [c] ∧ c ≠ '"' ∧ c ≠ '\\'

/-- What one round inside single quotes takes. -/
def SingleUnit (u : List Char) : Prop := u = ['\'', '\''] ∨ ∃ c, u = [c] ∧ c ≠ '\''

/-- A body in double quotes is made of units. -/
theorem doubleBody_iff {body : List Char} :
    DoubleBody body ↔ ∃ us : List (List Char), (∀ u ∈ us, DoubleUnit u) ∧ us.flatten = body := by
  constructor
  · intro h
    induction h with
    | nil => exact ⟨[], nofun, rfl⟩
    | escape _ ih =>
      obtain ⟨us, hus, rfl⟩ := ih
      exact ⟨_ :: us, List.forall_mem_cons.mpr ⟨.inl ⟨_, rfl⟩, hus⟩, rfl⟩
    | plain hquote hslash _ ih =>
      obtain ⟨us, hus, rfl⟩ := ih
      exact ⟨_ :: us, List.forall_mem_cons.mpr ⟨.inr ⟨_, rfl, hquote, hslash⟩, hus⟩, rfl⟩
  · rintro ⟨us, hus, rfl⟩
    induction us with
    | nil => exact .nil
    | cons u us ih =>
      obtain ⟨hu, hrest⟩ := List.forall_mem_cons.mp hus
      rcases hu with ⟨c, rfl⟩ | ⟨c, rfl, hquote, hslash⟩
      · exact .escape (ih hrest)
      · exact .plain hquote hslash (ih hrest)

/-- A body in single quotes is made of units. -/
theorem singleBody_iff {body : List Char} :
    SingleBody body ↔ ∃ us : List (List Char), (∀ u ∈ us, SingleUnit u) ∧ us.flatten = body := by
  constructor
  · intro h
    induction h with
    | nil => exact ⟨[], nofun, rfl⟩
    | quote _ ih =>
      obtain ⟨us, hus, rfl⟩ := ih
      exact ⟨_ :: us, List.forall_mem_cons.mpr ⟨.inl rfl, hus⟩, rfl⟩
    | plain hquote _ ih =>
      obtain ⟨us, hus, rfl⟩ := ih
      exact ⟨_ :: us, List.forall_mem_cons.mpr ⟨.inr ⟨_, rfl, hquote⟩, hus⟩, rfl⟩
  · rintro ⟨us, hus, rfl⟩
    induction us with
    | nil => exact .nil
    | cons u us ih =>
      obtain ⟨hu, hrest⟩ := List.forall_mem_cons.mp hus
      rcases hu with rfl | ⟨c, rfl, hquote⟩
      · exact .quote (ih hrest)
      · exact .plain hquote (ih hrest)

/-- One round inside double quotes as the grammar writes it. -/
def doubleRound : Pattern :=
  firstOf [tight [.token "\\", anyChar],
    tight [without (firstOf [.token "\"", .token "\\"]), anyChar]]

/-- One round inside single quotes as the grammar writes it. -/
def singleRound : Pattern :=
  firstOf [.token "\'\'", tight [without (.token "\'"), anyChar]]

/-- A round in double quotes takes one unit. -/
theorem doubleRound_some_iff : Parses doubleRound here (some (stop, ts)) ↔
    ∃ u, DoubleUnit u ∧ here.Moves u stop ∧ ts = [] := by
  have plain (here stop : Cursor) (ts : List (Tree Rule)) := @plain_some_iff here stop ts
    (firstOf [.token "\"", .token "\\"]) (fun c => c == '"' || c == '\\') fun place => by
      simp only [firstOf, choice_none_iff, token_none_iff, endsBefore_or_iff,
        endsBefore_beq_iff]
      rfl
  simp only [doubleRound, firstOf, choice_some_iff] at plain ⊢
  rw [plain]
  constructor
  · rintro (h | ⟨-, c, hc, hmove, rfl⟩)
    · simp only [tight, chain, counted_iff, seq_some_iff, token_some_iff, anyChar,
        char_some_iff] at h
      obtain ⟨mid, _, _, ⟨hslash, rfl⟩, ⟨c, -, hmove, rfl⟩, rfl⟩ := h
      exact ⟨_, .inl ⟨c, rfl⟩, hslash.trans hmove, rfl⟩
    · rw [Bool.or_eq_false_iff, beq_eq_false_iff_ne, beq_eq_false_iff_ne] at hc
      exact ⟨_, .inr ⟨c, rfl, hc⟩, hmove, rfl⟩
  · rintro ⟨u, ⟨c, rfl⟩ | ⟨c, rfl, hquote, hslash⟩, hmove, rfl⟩
    · obtain ⟨mid, hfirst, hsecond⟩ := Cursor.Moves.cons_iff.mp hmove
      refine .inl (.counted (seq_some_iff.mpr ⟨mid, [], [], ?_, ?_, rfl⟩))
      · exact token_some_iff.mpr ⟨hfirst, rfl⟩
      · exact char_some_iff.mpr ⟨c, rfl, hsecond, rfl⟩
    · refine .inr ⟨.counted (seq_none_iff.mpr (.inl ?_)), c, ?_, hmove, rfl⟩
      · rw [token_none_iff, hmove.rest_eq]
        exact endsBefore_beq_iff.mp (endsBefore_cons.mpr (beq_eq_false_iff_ne.mpr hslash))
      · rw [Bool.or_eq_false_iff, beq_eq_false_iff_ne, beq_eq_false_iff_ne]
        exact ⟨hquote, hslash⟩

/-- A round in single quotes takes one unit, and a pair of quotes before a single one. -/
theorem singleRound_some_iff : Parses singleRound here (some (stop, ts)) ↔
    ∃ u, SingleUnit u ∧ here.Moves u stop ∧ ts = [] := by
  have plain (here stop : Cursor) (ts : List (Tree Rule)) := @plain_some_iff here stop ts
    (.token "\'") (fun c => c == '\'') fun place => by
      rw [token_none_iff, endsBefore_beq_iff]
      rfl
  simp only [singleRound, firstOf, choice_some_iff, plain, token_some_iff, token_none_iff]
  constructor
  · rintro (⟨hmove, rfl⟩ | ⟨-, c, hc, hmove, rfl⟩)
    · exact ⟨_, .inl rfl, hmove, rfl⟩
    · exact ⟨_, .inr ⟨c, rfl, beq_eq_false_iff_ne.mp hc⟩, hmove, rfl⟩
  · rintro ⟨u, rfl | ⟨c, rfl, hquote⟩, hmove, rfl⟩
    · exact .inl ⟨hmove, rfl⟩
    · refine .inr ⟨?_, c, beq_eq_false_iff_ne.mpr hquote, hmove, rfl⟩
      rw [hmove.rest_eq]
      rintro ⟨rest, hrest⟩
      exact hquote (List.cons.inj hrest).1.symm

/-- Double quotes enclose a body, since a unit cannot begin with the quote that closes it. -/
theorem doubleQuoted_some_iff :
    Parses (tight [.token "\"", Pattern.star doubleRound, .token "\""]) here (some (stop, ts)) ↔
      ∃ body, DoubleBody body ∧ here.Moves ('"' :: body ++ ['"']) stop ∧ ts = [] := by
  simp only [tight, chain, Pattern.star, counted_iff, seq_some_iff, token_some_iff,
    many_units_iff @doubleRound_some_iff, doubleBody_iff]
  constructor
  · rintro ⟨_, _, _, ⟨hopen, rfl⟩, ⟨_, _, _, ⟨us, hus, hmoves, -, rfl⟩, ⟨hclose, rfl⟩, rfl⟩, rfl⟩
    exact ⟨_, ⟨us, hus, rfl⟩, hopen.trans (hmoves.trans hclose), rfl⟩
  · rintro ⟨_, ⟨us, hus, rfl⟩, hmove, rfl⟩
    obtain ⟨mid, hopen, hmove⟩ := Cursor.Moves.cons_iff.mp hmove
    obtain ⟨mid', hbody, hclose⟩ := Cursor.Moves.append_iff.mp hmove
    refine ⟨mid, [], [], ⟨hopen, rfl⟩, ⟨mid', [], [], ⟨us, hus, hbody, ?_, rfl⟩,
      ⟨hclose, rfl⟩, rfl⟩, rfl⟩
    refine Pattern.parses_none rfl fun stop ts hsome => ?_
    obtain ⟨u, ⟨c, rfl⟩ | ⟨c, rfl, hquote, -⟩, hmove, -⟩ := doubleRound_some_iff.mp hsome
    · cases (List.cons.inj (hclose.rest_eq.symm.trans hmove.rest_eq)).1
    · exact hquote (List.cons.inj (hclose.rest_eq.symm.trans hmove.rest_eq)).1.symm

/-- Single quotes enclose a body if no further one follows, which would make a pair of the last. -/
theorem singleQuoted_some_iff :
    Parses (tight [.token "\'", Pattern.star singleRound, .token "\'"]) here (some (stop, ts)) ↔
      ∃ body, SingleBody body ∧ here.Moves ('\'' :: body ++ ['\'']) stop ∧
        EndsBefore (· == '\'') stop.rest ∧ ts = [] := by
  simp only [tight, chain, Pattern.star, counted_iff, seq_some_iff, token_some_iff,
    many_units_iff @singleRound_some_iff, singleBody_iff, endsBefore_beq_iff]
  constructor
  · rintro ⟨_, _, _, ⟨hopen, rfl⟩, ⟨_, _, _, ⟨us, hus, hmoves, hnone, rfl⟩, ⟨hclose, rfl⟩,
      rfl⟩, rfl⟩
    refine ⟨_, ⟨us, hus, rfl⟩, hopen.trans (hmoves.trans hclose), fun hquote => ?_, rfl⟩
    obtain ⟨rest, hrest⟩ := hquote
    have two := hclose.rest_eq
    rw [← hrest] at two
    exact (singleRound_some_iff.mpr ⟨_, .inl rfl, .of_rest_eq two, rfl⟩).not_none hnone
  · rintro ⟨_, ⟨us, hus, rfl⟩, hmove, hquote, rfl⟩
    obtain ⟨mid, hopen, hmove⟩ := Cursor.Moves.cons_iff.mp hmove
    obtain ⟨mid', hbody, hclose⟩ := Cursor.Moves.append_iff.mp hmove
    refine ⟨mid, [], [], ⟨hopen, rfl⟩, ⟨mid', [], [], ⟨us, hus, hbody, ?_, rfl⟩,
      ⟨hclose, rfl⟩, rfl⟩, rfl⟩
    refine Pattern.parses_none rfl fun stop' ts hsome => ?_
    obtain ⟨u, rfl | ⟨c, rfl, hc⟩, hmove, -⟩ := singleRound_some_iff.mp hsome
    · have tail := (List.cons.inj (hclose.rest_eq.symm.trans hmove.rest_eq)).2
      exact hquote ⟨stop'.rest, tail.symm⟩
    · exact hc (List.cons.inj (hclose.rest_eq.symm.trans hmove.rest_eq)).1.symm

/-- The pattern of a string matches its lexemes, since no text begins with both quotes. -/
theorem string_some_iff : Parses Rule.string.pattern here (some (stop, ts)) ↔
    ∃ u, here.Moves u stop ∧ Rule.string.Lexeme u stop.rest ∧ ts = [] := by
  have shape : Rule.string.pattern = tokenBody (firstOf
      [tight [.token "\"", Pattern.star doubleRound, .token "\""],
        tight [.token "\'", Pattern.star singleRound, .token "\'"]]) := rfl
  rw [shape]
  simp only [tokenBody, counted_iff, firstOf, choice_some_iff, doubleQuoted_some_iff,
    singleQuoted_some_iff, Rule.Lexeme]
  constructor
  · rintro (⟨body, hbody, hmove, rfl⟩ | ⟨-, body, hbody, hmove, hquote, rfl⟩)
    · exact ⟨_, hmove, .inl ⟨body, hbody, rfl⟩, rfl⟩
    · exact ⟨_, hmove, .inr ⟨body, hbody, rfl, hquote⟩, rfl⟩
  · rintro ⟨u, hmove, ⟨body, hbody, rfl⟩ | ⟨body, hbody, rfl, hquote⟩, rfl⟩
    · exact .inl ⟨body, hbody, hmove, rfl⟩
    · refine .inr ⟨.counted (seq_none_iff.mpr (.inl ?_)), body, hbody, hmove, hquote, rfl⟩
      rw [token_none_iff, hmove.rest_eq]
      rintro ⟨rest, hrest⟩
      cases (List.cons.inj hrest).1

end Parses

end Vimscript
