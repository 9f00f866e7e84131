import Vimscript.Grammar.Table
import Vimscript.Proofs.Grammar.Cursor
import Vimscript.Proofs.Grammar.Parses

/-!
# Readings of the patterns inside tokens

Tokens are made of characters, runs of a class and fixed texts. What each of these patterns
matches is said here by the text that it takes and by what may follow that text.
-/

namespace Vimscript

namespace Text

variable {accepts : Char → Bool} {u rest : List Char}

/-- Nothing follows the end of a source. -/
theorem endsBefore_nil (accepts : Char → Bool) : EndsBefore accepts [] := nofun

/-- Only the first character counts for what may follow. -/
@[simp] theorem endsBefore_cons {c : Char} :
    EndsBefore accepts (c :: rest) ↔ accepts c = false := by
  simp [EndsBefore]

/-- A single character may not follow if the text does not begin with it. -/
theorem endsBefore_beq_iff {d : Char} : EndsBefore (· == d) rest ↔ ¬ [d] <+: rest := by
  cases rest with
  | nil => simp [endsBefore_nil]
  | cons c rest =>
    rw [endsBefore_cons, List.cons_prefix_cons, beq_eq_false_iff_ne]
    simp only [List.nil_prefix, and_true]
    exact ⟨fun h h' => h h'.symm, fun h h' => h h'.symm⟩

/-- To end before two classes is to end before each of them. -/
theorem endsBefore_or_iff {others : Char → Bool} :
    EndsBefore (fun c => accepts c || others c) rest ↔
      EndsBefore accepts rest ∧ EndsBefore others rest := by
  cases rest with
  | nil => simp [endsBefore_nil]
  | cons c rest => simp only [endsBefore_cons, Bool.or_eq_false_iff]

/-- What ends before a class ends before a smaller one. -/
theorem endsBefore_mono {others : Char → Bool}
    (h : ∀ c, others c = true → accepts c = true) (hrest : EndsBefore accepts rest) :
    EndsBefore others rest := by
  intro c hc
  have := hrest c hc
  cases hother : others c with
  | false => rfl
  | true =>
    rw [h c hother] at this
    cases this

/-- A class ends where its longest run does. -/
theorem endsBefore_dropWhile (accepts : Char → Bool) (text : List Char) :
    EndsBefore accepts (text.dropWhile accepts) := by
  intro c hc
  have h := List.head?_dropWhile_not accepts text
  rw [hc] at h
  simpa using h

/-- A run of a class that ends before a text is what is taken off the front. -/
theorem takeWhile_append (hu : u.all accepts = true) (hrest : EndsBefore accepts rest) :
    (u ++ rest).takeWhile accepts = u := by
  induction u with
  | nil =>
    cases rest with
    | nil => rfl
    | cons c rest => simp [endsBefore_cons.mp hrest]
  | cons c u ih =>
    obtain ⟨hc, hu⟩ := Bool.and_eq_true_iff.mp (List.all_cons ▸ hu)
    rw [List.cons_append, List.takeWhile_cons, if_pos hc, ih hu]

/-- A run in front of what the class ends before is dropped as a whole. -/
theorem dropWhile_append (hu : u.all accepts = true) (hrest : EndsBefore accepts rest) :
    (u ++ rest).dropWhile accepts = rest := by
  have h := List.takeWhile_append_dropWhile (p := accepts) (l := u ++ rest)
  rw [takeWhile_append hu hrest] at h
  exact List.append_cancel_left h

/-- A text is a run of a class and what ends the run in one way only. -/
theorem run_append_inj {v rest' : List Char} (hu : u.all accepts = true)
    (hrest : EndsBefore accepts rest) (hv : v.all accepts = true)
    (hrest' : EndsBefore accepts rest') (h : u ++ rest = v ++ rest') : u = v ∧ rest = rest' := by
  obtain rfl : u = v := by
    rw [← takeWhile_append hu hrest, h, takeWhile_append hv hrest']
  exact ⟨rfl, List.append_cancel_left h⟩

end Text

namespace Parses

variable {here stop : Cursor} {accepts : Char → Bool} {chars : List Char} {p : Pattern}
  {ts : List (Tree Rule)}

/-- A leaf makes no nodes. -/
theorem leaf_some_iff {place : Option Cursor} :
    some (stop, ts) = Reading.leaf place ↔ place = some stop ∧ ts = [] := by
  cases place with
  | none => simp [Reading.leaf]
  | some place =>
    simp only [Reading.leaf, Option.map_some, Option.some.injEq, Prod.mk.injEq]
    constructor
    · rintro ⟨rfl, rfl⟩
      exact ⟨rfl, rfl⟩
    · rintro ⟨rfl, rfl⟩
      exact ⟨rfl, rfl⟩

/-- A class takes one of its characters. -/
theorem char_some_iff : Parses (.char accepts) here (some (stop, ts)) ↔
    ∃ c, accepts c = true ∧ here.Moves [c] stop ∧ ts = [] := by
  rw [char_iff, leaf_some_iff, Cursor.skipChar?_eq_some_iff]
  constructor
  · rintro ⟨⟨c, hc, h⟩, rfl⟩
    exact ⟨c, hc, h, rfl⟩
  · rintro ⟨c, hc, h, rfl⟩
    exact ⟨⟨c, hc, h⟩, rfl⟩

/-- A class fails in front of what is none of its characters. -/
theorem char_none_iff : Parses (.char accepts) here none ↔ Text.EndsBefore accepts here.rest := by
  rw [char_iff, Text.EndsBefore, ← Cursor.skipChar?_eq_none_iff]
  cases here.skipChar? accepts <;> simp [Reading.leaf]

/-- A text is taken where it stands. -/
theorem text_some_iff : Parses (.text chars) here (some (stop, ts)) ↔
    here.Moves chars stop ∧ ts = [] := by
  rw [text_iff, leaf_some_iff, Cursor.skipText?_eq_some_iff]

/-- A text fails where it does not stand. -/
theorem text_none_iff : Parses (.text chars) here none ↔ ¬ chars <+: here.rest := by
  rw [text_iff]
  constructor
  · rintro h ⟨rest, hrest⟩
    rw [Cursor.skipText?_eq_some_iff.mpr (Cursor.Moves.of_rest_eq hrest.symm)] at h
    cases h
  · intro h
    cases hskip : here.skipText? chars with
    | none => rfl
    | some stop =>
      exact (h ⟨stop.rest, (Cursor.skipText?_eq_some_iff.mp hskip).rest_eq.symm⟩).elim

/-- A text is taken in any case. -/
theorem anyCase_some_iff : Parses (.anyCase chars) here (some (stop, ts)) ↔
    ∃ u, u.map Char.toLower = chars ∧ here.Moves u stop ∧ ts = [] := by
  rw [anyCase_iff, leaf_some_iff, Cursor.skipAnyCase?_eq_some_iff]
  constructor
  · rintro ⟨⟨u, hu, h⟩, rfl⟩
    exact ⟨u, hu, h, rfl⟩
  · rintro ⟨u, hu, h, rfl⟩
    exact ⟨⟨u, hu, h⟩, rfl⟩

/-- A repetition of a class takes all characters of the class. -/
theorem many_char (here : Cursor) (hp : ∀ place res, Parses p place res ↔
      Parses (.char accepts) place res) :
    Parses (.many p) here (some (here.skipWhile accepts, [])) := by
  obtain ⟨rest, offset⟩ := here
  induction rest generalizing offset with
  | nil =>
    have h : Parses p ⟨[], offset⟩ none := (hp _ _).mpr (char_none_iff.mpr (Text.endsBefore_nil _))
    exact .done h
  | cons c rest ih =>
    by_cases hc : accepts c = true
    · have step : Cursor.Moves ⟨c :: rest, offset⟩ [c] ⟨rest, offset + c.utf8Size⟩ := ⟨rfl, rfl⟩
      have first : Parses p ⟨c :: rest, offset⟩ (some (⟨rest, offset + c.utf8Size⟩, [])) :=
        (hp _ _).mpr (char_some_iff.mpr ⟨c, hc, step, rfl⟩)
      have more := again first (ih (offset + c.utf8Size))
      have stop_eq : Cursor.skipWhile accepts ⟨c :: rest, offset⟩ =
          Cursor.skipWhile accepts ⟨rest, offset + c.utf8Size⟩ := by
        simp only [Cursor.skipWhile, List.dropWhile_cons, List.takeWhile_cons, hc, if_true,
          Text.byteLength_cons, Nat.add_assoc]
      rw [stop_eq]
      exact more
    · have stops : Text.EndsBefore accepts (c :: rest) :=
        Text.endsBefore_cons.mpr (by simpa using hc)
      have stop_eq : Cursor.skipWhile accepts ⟨c :: rest, offset⟩ = ⟨c :: rest, offset⟩ := by
        simp only [Cursor.skipWhile, List.dropWhile_cons, List.takeWhile_cons, hc,
          Bool.false_eq_true, if_false, Text.byteLength_nil, Nat.add_zero]
      rw [stop_eq]
      exact .done ((hp _ _).mpr (char_none_iff.mpr stops))

/-- What matches like a class is repeated to the end of the longest run. -/
theorem many_char_some_iff (hp : ∀ place res, Parses p place res ↔
      Parses (.char accepts) place res) :
    Parses (.many p) here (some (stop, ts)) ↔ ∃ u, u.all accepts = true ∧ here.Moves u stop ∧
      Text.EndsBefore accepts stop.rest ∧ ts = [] := by
  have all := many_char here hp
  constructor
  · intro h
    obtain ⟨rfl, rfl⟩ := Prod.mk.inj (Option.some.inj (all.unique h))
    exact ⟨_, List.all_takeWhile, Cursor.moves_skipWhile accepts here,
      Text.endsBefore_dropWhile accepts here.rest, rfl⟩
  · rintro ⟨u, hu, h, hstop, rfl⟩
    have taken : here.rest.takeWhile accepts = u := by
      rw [h.rest_eq, Text.takeWhile_append hu hstop]
    have := (Cursor.moves_skipWhile accepts here).stop_unique (taken ▸ h)
    rwa [this] at all

/-- A run of blanks is all spaces and tabs at a place. -/
theorem blanks (here : Cursor) : Parses .blanks here (some (here.skipSpaces, [])) :=
  .counted (many_char here fun _ _ => counted_iff)

/-- A starred class takes the longest run, if any. -/
theorem star_char_some_iff : Parses (.star (.char accepts)) here (some (stop, ts)) ↔
    ∃ u, u.all accepts = true ∧ here.Moves u stop ∧ Text.EndsBefore accepts stop.rest ∧ ts = [] :=
  counted_iff.trans (many_char_some_iff fun _ _ => Iff.rfl)

/-- A character of one class and a run of another behind it. -/
theorem name_some_iff {starts : Char → Bool} :
    Parses (.tight [.char starts, .star (.char accepts)]) here (some (stop, ts)) ↔
      ∃ c u, starts c = true ∧ u.all accepts = true ∧ here.Moves (c :: u) stop ∧
        Text.EndsBefore accepts stop.rest ∧ ts = [] := by
  simp only [Pattern.tight, Pattern.chain, counted_iff, seq_some_iff, char_some_iff,
    star_char_some_iff]
  constructor
  · rintro ⟨mid, us, vs, ⟨c, hc, h, rfl⟩, ⟨u, hu, h', hstop, rfl⟩, rfl⟩
    exact ⟨c, u, hc, hu, h.trans h', hstop, rfl⟩
  · rintro ⟨c, u, hc, hu, h, hstop, rfl⟩
    obtain ⟨mid, first, second⟩ := Cursor.Moves.cons_iff.mp h
    exact ⟨mid, [], [], ⟨c, hc, first, rfl⟩, ⟨u, hu, second, hstop, rfl⟩, rfl⟩

/-- A class with a plus takes the longest run, which has to be one. -/
theorem plus_char_some_iff : Parses (.plus (.char accepts)) here (some (stop, ts)) ↔
    ∃ u, u ≠ [] ∧ u.all accepts = true ∧ here.Moves u stop ∧
      Text.EndsBefore accepts stop.rest ∧ ts = [] := by
  rw [Pattern.plus, name_some_iff]
  constructor
  · rintro ⟨c, u, hc, hu, h, hstop, rfl⟩
    exact ⟨c :: u, List.cons_ne_nil c u, by rw [List.all_cons, hc, hu]; rfl, h, hstop, rfl⟩
  · rintro ⟨u, hne, hu, h, hstop, rfl⟩
    cases u with
    | nil => exact (hne rfl).elim
    | cons c u =>
      obtain ⟨hc, hu⟩ := Bool.and_eq_true_iff.mp (List.all_cons ▸ hu)
      exact ⟨c, u, hc, hu, h, hstop, rfl⟩

/-- A word ends where no letter, digit or underscore follows. -/
theorem wordEnd_some_iff : Parses .wordEnd here (some (stop, ts)) ↔
    Text.EndsBefore Text.isWordChar here.rest ∧ stop = here ∧ ts = [] := by
  rw [Pattern.wordEnd, Pattern.without, counted_iff, not_some_iff, char_none_iff]

end Parses

end Vimscript
