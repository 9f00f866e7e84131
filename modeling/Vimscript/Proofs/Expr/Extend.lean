import Vimscript.Proofs.Expr.Respace

/-!
# Longer sources

What derives at a place of a source derives there in a longer source, too, if the text behind the
old end begins with something in front of which an expression can end, or if the first character of
a reference is left behind what derives. Only the blanks at the end of the old source go on with
blanks in front of the new text.
-/

namespace Vimscript

open Pattern Text

namespace Cursor

variable {here mid stop : Cursor} {u t : List Char}

/-- The same place of a source with a text behind it. -/
def extend (here : Cursor) (t : List Char) : Cursor := ⟨here.rest ++ t, here.offset⟩

/-- Of a longer text more is left. -/
@[simp] theorem extend_rest (here : Cursor) (t : List Char) :
    (here.extend t).rest = here.rest ++ t := rfl

/-- A longer text begins where the text does. -/
theorem start_extend (source t : List Char) :
    (start source).extend t = start (source ++ t) := rfl

/-- A move over a text is one in front of a longer rest. -/
theorem Moves.extend (h : here.Moves u stop) (t : List Char) :
    (here.extend t).Moves u (stop.extend t) :=
  ⟨by rw [extend_rest, extend_rest, h.rest_eq, List.append_assoc], h.offset_eq⟩

/-- To pass over blanks and then over the blanks behind them is to pass over all of them. -/
theorem skipSpaces_of_moves {b : List Char} (h : here.Moves b stop) (hb : b.all isSpace = true) :
    here.skipSpaces = stop.skipSpaces := by
  have hmoves := h.trans stop.moves_skipSpaces
  refine hmoves.skipSpaces_eq ?_ stop.skipSpaces_endsBefore
  rw [List.all_append, hb, List.all_takeWhile, Bool.and_self]

/-- A single blank is passed over. -/
theorem skipSpaces_rest_of_blank {rest : List Char} (h : here.rest = ' ' :: rest)
    (hrest : EndsBefore isSpace rest) : here.skipSpaces.rest = rest := by
  have hmove : here.Moves [' '] ⟨rest, here.offset + byteLength [' ']⟩ := .of_rest_eq h
  rw [hmove.skipSpaces_eq blank_space hrest]

/-- Blanks in front of the end of the source can be skipped before the source grows. -/
theorem skipSpaces_extend_skipSpaces (here : Cursor) (t : List Char) :
    (here.skipSpaces.extend t).skipSpaces = (here.extend t).skipSpaces :=
  (skipSpaces_of_moves (here.moves_skipSpaces.extend t) List.all_takeWhile).symm

/-- In front of something other than a blank nothing is skipped. -/
theorem skipSpaces_extend (h : here.skipSpaces = here) (hne : here.rest ≠ []) (t : List Char) :
    (here.extend t).skipSpaces = here.extend t := by
  refine skipSpaces_of_endsBefore ?_
  have hend := h ▸ here.skipSpaces_endsBefore
  obtain ⟨c, rest, hrest⟩ := List.exists_cons_of_ne_nil hne
  rw [hrest] at hend
  rw [extend_rest, hrest]
  exact endsBefore_cons.mpr (endsBefore_cons.mp hend)

end Cursor

/-- A text behind which another can stand for what derives in front of both to derive there, too. -/
def Text.Joins (rest t : List Char) : Prop := Seam t ∨ ∃ c ∈ rest, beginsReference c = true

/-- What joins with a text still does so behind another. -/
theorem Text.Joins.append {rest t : List Char} (h : Joins rest t) (u : List Char) :
    Joins (u ++ rest) t :=
  h.imp_right fun ⟨c, hmem, hc⟩ => ⟨c, List.mem_append_right u hmem, hc⟩

/-- No reference begins with a blank. -/
theorem Text.isSpace_of_beginsReference {c : Char} (hc : beginsReference c = true) :
    isSpace c = false :=
  eq_false_of_beginsReference hc (by decide)

namespace Relocation

/-- A source and a longer one, from a place on. -/
def extending (offset : Nat) (w x t : List Char)
    (ink : ∀ p, (w.map Piece.char).getLast? = some p → p.isIn isSpace = false)
    (ends : Piece.CanEnd (w.map .char) x (x ++ t) ∨
      ∃ c, (w.map Piece.char).getLast? = some (.char c) ∧ beginsReference c = true) :
    Relocation where
  pieces := w.map .char
  tail
    | .old => x
    | .new => x ++ t
  start _ := offset
  ink := ink
  ends := ends

variable {offset : Nat} {w x t : List Char} {ink ends} {here here' : Cursor}

/-- Both sides of an extension stop behind the text that they share. -/
theorem stop_extending (side : Side) :
    (extending offset w x t ink ends).stop side = offset + byteLength w := by
  rw [stop, extending, Piece.spell_char]

/-- Places inside correspond as they are. -/
theorem eq_extend_of_inside (h : (extending offset w x t ink ends).Inside here here') :
    here' = here.extend t := by
  obtain ⟨rest', offset'⟩ := here'
  obtain ⟨ps, hps, hrest, hrest', hoffset, hoffset'⟩ := h
  obtain ⟨front, hfront⟩ := hps
  obtain ⟨u, v, -, -, rfl⟩ := List.map_eq_append_iff.mp hfront.symm
  rw [Piece.spell_char] at hrest hrest' hoffset hoffset'
  rw [stop_extending] at hoffset hoffset'
  obtain rfl : offset' = here.offset := Nat.add_right_cancel (hoffset'.trans hoffset.symm)
  rw [Cursor.extend, hrest, List.append_assoc]
  exact congrArg (Cursor.mk · here.offset) hrest'

end Relocation

namespace Derives

variable {here mid : Cursor} {p : Pattern} {us : List (Tree Rule)} {t : List Char}

/-- A source is cut in front of the blanks at its end, or behind the first character of a
reference. -/
theorem exists_extending (h : Derives p here mid us) (ht : Joins mid.rest t) :
    ∃ w x, ∃ ink, ∃ ends, here.rest = w ++ x ∧
      (Relocation.extending here.offset w x t ink ends).Reaches mid := by
  rcases ht with hseam | ⟨c, hmem, hc⟩
  · have hblank : (here.rest.rtakeWhile isSpace).all isSpace = true :=
      List.all_eq_true.mpr fun c hc => List.mem_rtakeWhile_imp hc
    have hends : Piece.CanEnd ((here.rest.rdropWhile isSpace).map .char)
        (here.rest.rtakeWhile isSpace) (here.rest.rtakeWhile isSpace ++ t) :=
      ⟨hblank, .inl (hseam.append hblank)⟩
    refine ⟨_, _, fun p hp => ?_, .inl hends, (List.rdropWhile_append_rtakeWhile ..).symm,
      .inl hends⟩
    rw [List.getLast?_map] at hp
    obtain ⟨c, hlast, rfl⟩ := Option.map_eq_some_iff.mp hp
    have hne := List.ne_nil_of_mem (List.mem_of_getLast? hlast)
    rw [List.getLast?_eq_getLast_of_ne_nil hne] at hlast
    have := List.rdropWhile_last_not isSpace _ hne
    rw [Option.some.inj hlast] at this
    exact Bool.not_eq_true _ |>.mp this
  · obtain ⟨u, hu⟩ := h.moves
    obtain ⟨v, x, hrest⟩ := List.append_of_mem hmem
    have hlast : ((u ++ v ++ [c]).map Piece.char).getLast? = some (.char c) := by
      rw [List.map_append, List.map_singleton, List.getLast?_concat]
    refine ⟨u ++ v ++ [c], x, fun p hp => ?_, .inr ⟨c, hlast, hc⟩, ?_, .inr ?_⟩
    · rw [← Option.some.inj (hlast.symm.trans hp)]
      exact isSpace_of_beginsReference hc
    · rw [hu.rest_eq, hrest]
      simp
    · have hpos := c.utf8Size_pos
      have hoffset := hu.offset_eq
      rw [Relocation.stop_extending, byteLength_append, byteLength_append, byteLength_cons]
      omega

/-- What derives from a place on derives there in a longer source. What takes blanks at its end also
takes those that the longer source has there. -/
theorem extend (h : Derives p here mid us) (hp : p.Laid) (ht : Joins mid.rest t) :
    ∃ mid' us', Derives p (here.extend t) mid' us' ∧
      mid'.skipSpaces = (mid.extend t).skipSpaces ∧
        (p.endsTight = true → mid' = mid.extend t) := by
  obtain ⟨w, x, ink, ends, hrest, hreach⟩ := h.exists_extending ht
  generalize hm : Relocation.extending here.offset w x t ink ends = m at hreach
  have hinside : m.Inside here (here.extend t) := by
    subst hm
    refine ⟨w.map .char, List.suffix_refl _, ?_, ?_, rfl, rfl⟩
    · rw [Piece.spell_char]
      exact hrest
    · rw [Piece.spell_char, Cursor.extend_rest, hrest, List.append_assoc]
      rfl
  obtain ⟨mid', us', hplaces, hlays, -, htight⟩ :=
    (h.lays hp).relocate (.inside hinside) hreach fun t' _ _ => by
      subst hm
      exact Piece.sparesFrom_char _ _ _
  refine ⟨mid', us', hlays.derives, ?_, fun hends => ?_⟩
  · by_cases hnil : mid.rest = []
    · obtain ⟨u, hu⟩ := h.moves
      have hoffset := hu.offset_eq
      rw [hplaces.skipSpaces_of_nil hnil]
      subst hm
      have hsame : u = w ++ x := by rw [← hrest, hu.rest_eq, hnil, List.append_nil]
      rw [hsame, byteLength_append] at hoffset
      obtain ⟨hblank, -⟩ := hreach.resolve_right (by rw [Relocation.stop_extending]; omega)
      refine Cursor.skipSpaces_of_moves (b := x) ⟨?_, ?_⟩ hblank
      · rw [Cursor.extend_rest, hnil, List.nil_append]
        rfl
      · rw [Relocation.stop_extending]
        exact hoffset.trans (Nat.add_assoc ..).symm
    · subst hm
      rw [Relocation.eq_extend_of_inside (hplaces.isInside hnil)]
  · subst hm
    exact Relocation.eq_extend_of_inside (htight hends hinside)

end Derives

end Vimscript
