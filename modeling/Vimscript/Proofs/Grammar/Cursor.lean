import Vimscript.Grammar.Match

/-!
# Moving through a source

A cursor moves over a text when that text is what stands before it and the offset grows by the
bytes of the text. Every step of matching is such a move, so the text that a match took and the
bytes that its spans count are one thing.
-/

namespace Vimscript

/-- No character of a class stands at the front of a text, so a run of the class ends there. -/
def Text.EndsBefore (accepts : Char → Bool) (rest : List Char) : Prop :=
  ∀ c, rest.head? = some c → accepts c = false

namespace Cursor

/-- From one place a text leads to another. -/
structure Moves (here : Cursor) (text : List Char) (stop : Cursor) : Prop where
  /-- The text is the part of the source between the two places. -/
  rest_eq : here.rest = text ++ stop.rest
  /-- The offsets are as far apart as the text has bytes. -/
  offset_eq : stop.offset = here.offset + Text.byteLength text

/-- The place behind the characters of a class at a place. -/
def skipWhile (accepts : Char → Bool) (here : Cursor) : Cursor where
  rest := here.rest.dropWhile accepts
  offset := here.offset + Text.byteLength (here.rest.takeWhile accepts)

/-- The place behind the spaces and tabs at a place. -/
def skipSpaces (here : Cursor) : Cursor := here.skipWhile Text.isSpace

variable {here mid stop : Cursor} {u v : List Char}

namespace Moves

/-- To move over nothing is to stay. -/
theorem refl (here : Cursor) : here.Moves [] here := ⟨rfl, rfl⟩

/-- Moves follow one another. -/
theorem trans (h : here.Moves u mid) (h' : mid.Moves v stop) : here.Moves (u ++ v) stop := by
  constructor
  · rw [h.rest_eq, h'.rest_eq, List.append_assoc]
  · rw [h'.offset_eq, h.offset_eq, Text.byteLength_append, Nat.add_assoc]

/-- A move leaves no more text than there was. -/
theorem length_le (h : here.Moves u stop) : stop.rest.length ≤ here.rest.length := by
  rw [h.rest_eq, List.length_append]
  omega

/-- A move over some text leaves less. -/
theorem length_lt (h : here.Moves u stop) (hu : u ≠ []) :
    stop.rest.length < here.rest.length := by
  have pos : 0 < u.length := List.length_pos_iff.mpr hu
  rw [h.rest_eq, List.length_append]
  omega

/-- A move leads no place back. -/
theorem offset_le (h : here.Moves u stop) : here.offset ≤ stop.offset := by
  rw [h.offset_eq]
  omega

/-- Where a text leads is fixed by the text. -/
theorem stop_unique {stop' : Cursor} (h : here.Moves u stop) (h' : here.Moves u stop') :
    stop = stop' := by
  have hrest : stop.rest = stop'.rest :=
    List.append_cancel_left (h.rest_eq.symm.trans h'.rest_eq)
  have hoffset : stop.offset = stop'.offset := h.offset_eq.trans h'.offset_eq.symm
  cases stop
  cases stop'
  cases hrest
  cases hoffset
  rfl

/-- The text between two places is fixed by what follows it. -/
theorem text_unique (h : here.Moves u stop) (h' : here.Moves v stop) : u = v :=
  List.append_cancel_right (h.rest_eq.symm.trans h'.rest_eq)

/-- A text leads from each place before which it stands to the place behind it. -/
theorem of_rest_eq {rest : List Char} (h : here.rest = u ++ rest) :
    here.Moves u ⟨rest, here.offset + Text.byteLength u⟩ := ⟨h, rfl⟩

/-- A move over two texts is a move over one and then over the other. -/
theorem append_iff : here.Moves (u ++ v) stop ↔ ∃ mid, here.Moves u mid ∧ mid.Moves v stop := by
  constructor
  · intro h
    have hrest : here.rest = u ++ (v ++ stop.rest) := by rw [h.rest_eq, List.append_assoc]
    refine ⟨_, of_rest_eq hrest, rfl, ?_⟩
    rw [h.offset_eq, Text.byteLength_append, Nat.add_assoc]
  · rintro ⟨mid, h, h'⟩
    exact h.trans h'

/-- A move over a text begins with its first character. -/
theorem cons_iff {c : Char} :
    here.Moves (c :: u) stop ↔ ∃ mid, here.Moves [c] mid ∧ mid.Moves u stop :=
  append_iff (u := [c])

/-- The excerpt between two places is the text between them. -/
theorem excerpt_toList (h : here.Moves u stop) :
    (Excerpt.mk here.rest (stop.offset - here.offset)).toList = u := by
  have size : stop.offset - here.offset = Text.byteLength u := by
    rw [h.offset_eq]
    omega
  rw [Excerpt.toList, size, h.rest_eq, Text.takeBytes_append]

end Moves

/-- What is passed over is the longest run of the class. -/
theorem moves_skipWhile (accepts : Char → Bool) (here : Cursor) :
    here.Moves (here.rest.takeWhile accepts) (here.skipWhile accepts) :=
  ⟨(List.takeWhile_append_dropWhile).symm, rfl⟩

/-- Blanks are passed over as such a run. -/
theorem moves_skipSpaces (here : Cursor) :
    here.Moves (here.rest.takeWhile Text.isSpace) here.skipSpaces := moves_skipWhile _ here

/-- A character is passed over if it is one of the class. -/
theorem skipChar?_eq_some_iff {accepts : Char → Bool} :
    here.skipChar? accepts = some stop ↔ ∃ c, accepts c = true ∧ here.Moves [c] stop := by
  obtain ⟨rest, offset⟩ := here
  cases rest with
  | nil =>
    constructor
    · intro h
      cases h
    · rintro ⟨c, _, h⟩
      cases h.rest_eq
  | cons d rest =>
    simp only [skipChar?]
    constructor
    · intro h
      split at h
      · rename_i hd
        cases h
        exact ⟨d, hd, rfl, rfl⟩
      · cases h
    · rintro ⟨c, hc, h⟩
      obtain ⟨rfl, hrest⟩ := List.cons.inj h.rest_eq
      rw [if_pos hc]
      have step : Moves ⟨d :: rest, offset⟩ [d] ⟨rest, offset + d.utf8Size⟩ := ⟨rfl, rfl⟩
      rw [step.stop_unique h]

/-- It is not if none of the class stands there. -/
theorem skipChar?_eq_none_iff {accepts : Char → Bool} :
    here.skipChar? accepts = none ↔ ∀ c, here.rest.head? = some c → accepts c = false := by
  obtain ⟨rest, offset⟩ := here
  cases rest with
  | nil => simp [skipChar?]
  | cons d rest => simp [skipChar?]

/-- A text is passed over if it stands there. -/
theorem skipText?_eq_some_iff {chars : List Char} :
    here.skipText? chars = some stop ↔ here.Moves chars stop := by
  induction chars generalizing here with
  | nil =>
    simp only [skipText?, Option.some.injEq]
    constructor
    · rintro rfl
      exact .refl here
    · intro h
      exact (Moves.refl here).stop_unique h
  | cons c chars ih =>
    simp only [skipText?, Option.bind_eq_some_iff, skipChar?_eq_some_iff, ih]
    constructor
    · rintro ⟨mid, ⟨d, hd, h⟩, h'⟩
      cases eq_of_beq hd
      exact h.trans h'
    · intro h
      obtain ⟨mid, first, h⟩ := Moves.cons_iff.mp h
      exact ⟨mid, ⟨c, beq_self_eq_true c, first⟩, h⟩

/-- Whatever the case, a text is passed over if it stands there in some case. -/
theorem skipAnyCase?_eq_some_iff {chars : List Char} :
    here.skipAnyCase? chars = some stop ↔ ∃ u, u.map Char.toLower = chars ∧ here.Moves u stop := by
  induction chars generalizing here with
  | nil =>
    simp only [skipAnyCase?, Option.some.injEq, List.map_eq_nil_iff, exists_eq_left]
    constructor
    · rintro rfl
      exact .refl here
    · intro h
      exact (Moves.refl here).stop_unique h
  | cons c chars ih =>
    simp only [skipAnyCase?, Option.bind_eq_some_iff, skipChar?_eq_some_iff, ih]
    constructor
    · rintro ⟨mid, ⟨d, hd, h⟩, u, rfl, h'⟩
      cases eq_of_beq hd
      exact ⟨d :: u, rfl, h.trans h'⟩
    · rintro ⟨u, hu, h⟩
      cases u with
      | nil => cases hu
      | cons d u =>
        obtain ⟨rfl, rfl⟩ := List.cons.inj hu
        obtain ⟨mid, first, h⟩ := Moves.cons_iff.mp h
        exact ⟨mid, ⟨d, beq_self_eq_true _, first⟩, u, rfl, h⟩

end Cursor

end Vimscript
