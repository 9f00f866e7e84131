import Vimscript.Proofs.Expr.Pieces
import Vimscript.Proofs.Expr.Tokens
import Vimscript.Proofs.Grammar.Lays
import Vimscript.Proofs.Grammar.Shape
import Vimscript.Proofs.Reading

/-!
# Places that correspond

Two texts are one but for the blanks in the places of blanks outside strings, and each goes on with
what an expression can end in front of, or with a reference after its first character. Two places
correspond if as many pieces of the two texts lie before them, or if both lie behind the blanks that
follow the texts. Whatever moves over a text at one place moves over the same text at the other.
-/

namespace Vimscript

open Pattern Text

namespace Text

/-- Whether an option, an environment variable or the scope of a name begins with a character. -/
def beginsReference (c : Char) : Bool := c == '&' || c == '$' || isScopeLetter c

/-- The letter of a scope can begin a reference. -/
theorem beginsReference_of_isScopeLetter {c : Char} (hc : isScopeLetter c = true) :
    beginsReference c = true := by
  rw [beginsReference, hc, Bool.or_true]

/-- Two texts that are the same up to where an expression can end in the second, or up to the first
character of a reference and with it. -/
def Parting (rest rest' : List Char) : Prop :=
  ∃ v old new, rest = v ++ old ∧ rest' = v ++ new ∧
    (Seam new ∨ ∃ c x x', beginsReference c = true ∧ old = c :: x ∧ new = c :: x')

/-- An expression can end in front of each closing delimiter. -/
theorem isSeam_of_closes {c : Char} (h : Nesting.closes c = true) : isSeam c = true := by
  simp only [Nesting.closes, Bool.or_eq_true, beq_iff_eq] at h
  rcases h with (rfl | rfl) | rfl <;> decide

/-- What holds of no character that begins a reference. -/
theorem eq_false_of_beginsReference {accepts : Char → Bool} {c : Char}
    (hc : beginsReference c = true)
    (haccepts : "&$gslabwtv".toList.all (fun c => !accepts c) = true) : accepts c = false := by
  have hmem : c ∈ "&$gslabwtv".toList := by
    simpa [beginsReference, isScopeLetter, or_assoc] using hc
  simpa using List.all_eq_true.mp haccepts c hmem

namespace Parting

variable {u rest rest' : List Char} {accepts : Char → Bool}

/-- Texts that part do so behind the same text. -/
theorem append (h : Parting rest rest') : Parting (u ++ rest) (u ++ rest') := by
  obtain ⟨v, old, new, rfl, rfl, hnew⟩ := h
  exact ⟨u ++ v, old, new, (List.append_assoc u v old).symm, (List.append_assoc u v new).symm, hnew⟩

/-- Where a class ends in front of the one text it ends in front of the other. -/
theorem endsBefore (h : Parting rest rest') (hrest : EndsBefore accepts rest)
    (haccepts : " \t)]\x7d,([".toList.all (fun c => !accepts c) = true) :
    EndsBefore accepts rest' := by
  obtain ⟨v, old, new, rfl, rfl, hnew⟩ := h
  cases v with
  | cons c v => exact endsBefore_cons.mpr (endsBefore_cons.mp hrest)
  | nil =>
    rcases hnew with hseam | ⟨c, x, x', -, rfl, rfl⟩
    · exact hseam.endsBefore haccepts
    · exact endsBefore_cons.mpr (endsBefore_cons.mp hrest)

/-- A run of a class in front of the second text is one in front of the first. -/
theorem isPrefix_of_isPrefix (h : Parting rest rest') (hu : u.all accepts = true)
    (haccepts : " \t)]\x7d,([&$gslabwtv".toList.all (fun c => !accepts c) = true)
    (hfront : u <+: rest') : u <+: rest := by
  obtain ⟨v, old, new, rfl, rfl, hnew⟩ := h
  obtain ⟨hseam', href⟩ : " \t)]\x7d,([".toList.all (fun c => !accepts c) = true ∧
      "&$gslabwtv".toList.all (fun c => !accepts c) = true := by
    rwa [← Bool.and_eq_true_iff, ← List.all_append]
  have hend : EndsBefore accepts new := by
    rcases hnew with hseam | ⟨c, x, x', hc, -, rfl⟩
    · exact hseam.endsBefore hseam'
    · exact endsBefore_cons.mpr (eq_false_of_beginsReference hc href)
  suffices inside : u <+: v from inside.trans (List.prefix_append v old)
  clear hnew
  induction v generalizing u with
  | nil =>
    cases u with
    | nil => exact List.prefix_refl _
    | cons c u =>
      obtain ⟨more, hmore⟩ := hfront
      obtain ⟨hc, -⟩ := Bool.and_eq_true_iff.mp (List.all_cons ▸ hu)
      have := hend c (by rw [← List.nil_append new, ← hmore]; rfl)
      rw [hc] at this
      cases this
  | cons d v ih =>
    cases u with
    | nil => exact List.nil_prefix
    | cons c u =>
      obtain ⟨rfl, hmore⟩ := List.cons_prefix_cons.mp hfront
      exact List.cons_prefix_cons.mpr
        ⟨rfl, ih (Bool.and_eq_true_iff.mp (List.all_cons ▸ hu)).2 hmore⟩

/-- Two characters at the front of the second text, the first of which is neither what an expression
can be followed by nor what a reference begins with, are at the front of the first, but for a second
one that an expression can be followed by. -/
theorem second (h : Parting rest rest') {c d : Char} {more : List Char} (hc : isSeam c = false)
    (hc' : beginsReference c = false) (hrest : rest' = c :: d :: more) :
    isSeam d = true ∨ ∃ more', rest = c :: d :: more' := by
  obtain ⟨v, old, new, rfl, rfl, hnew⟩ := h
  match v, hrest with
  | [], hrest =>
    rcases hnew with hseam | ⟨e, x, x', he, rfl, rfl⟩
    · rw [hseam c (by rw [show new = c :: d :: more from hrest]; rfl)] at hc
      cases hc
    · obtain rfl := (List.cons.inj hrest).1
      rw [hc'] at he
      cases he
  | [_], hrest =>
    obtain ⟨hfirst, hmore⟩ := List.cons.inj hrest
    subst hfirst
    rcases hnew with hseam | ⟨e, x, x', -, rfl, rfl⟩
    · exact .inl (hseam d (by rw [show new = d :: more from hmore]; rfl))
    · obtain rfl := (List.cons.inj hmore).1
      exact .inr ⟨x, rfl⟩
  | _ :: _ :: v, hrest =>
    simp only [List.cons_append, List.cons.injEq] at hrest
    obtain ⟨rfl, rfl, -⟩ := hrest
    exact .inr ⟨v ++ old, rfl⟩

end Parting

end Text

namespace Tree

variable {Label : Type}

/-- The nodes of two lists are those of the first and then those of the second. -/
theorem nodesAll_append (us vs : List (Tree Label)) :
    nodesAll (us ++ vs) = nodesAll us ++ nodesAll vs := by
  induction us with
  | nil => rfl
  | cons t us ih => rw [List.cons_append, nodesAll, nodesAll, ih, List.append_assoc]

end Tree

/-- A token stays one in front of a text that parts from what it stood in front of. -/
theorem Rule.lexeme_of_parting {r : Rule} {u rest rest' : List Char} (hr : r ≠ .endOfInput)
    (hu : r.Lexeme u rest) (h : Parting rest rest') : r.Lexeme u rest' := by
  cases r with
  | endOfInput => exact (hr rfl).elim
  | compareOp =>
    obtain ⟨relation, letterCase, rfl, hrelation, hcase⟩ := hu
    refine ⟨relation, letterCase, rfl, ?_, fun hsign => h.endsBefore (hcase hsign) (by decide)⟩
    cases relation <;> first | exact trivial | exact h.append.endsBefore hrelation (by decide)
  | addOp =>
    rcases hu with hu | ⟨hu, hpoint⟩ | hu
    · exact .inl hu
    · exact .inr (.inl ⟨hu, h.endsBefore hpoint (by decide)⟩)
    · exact .inr (.inr hu)
  | blob =>
    obtain ⟨mark, digits, rfl, hmark, hdigits, hend⟩ := hu
    exact ⟨mark, digits, rfl, hmark, hdigits, h.endsBefore hend (by decide)⟩
  | float =>
    obtain ⟨whole, fraction, exponent, rfl, hwhole, hfraction, hend, hexponent⟩ := hu
    exact ⟨whole, fraction, exponent, rfl, hwhole, hfraction, h.endsBefore hend (by decide),
      hexponent.imp_right fun ⟨hnone, hno⟩ => ⟨hnone, fun x hx hfront =>
        hno x hx (h.isPrefix_of_isPrefix hx.all_isExponentChar (by decide) hfront)⟩⟩
  | integer => exact ⟨h.endsBefore hu.1 (by decide), hu.2⟩
  | string =>
    refine hu.imp_right ?_
    rintro ⟨body, hbody, rfl, hend⟩
    exact ⟨body, hbody, rfl, h.endsBefore hend (by decide)⟩
  | literalDictKey | lambdaParam | optionName | envName | functionName | variableName
  | scopedName => exact ⟨hu.1, h.endsBefore hu.2 (by decide)⟩
  | _ => exact hu

/-- Whether an expression can end behind pieces both in front of a text at the end of a source and in
front of another text. -/
def Piece.CanEnd (ps : List Piece) (old new : List Char) : Prop :=
  old.all isSpace = true ∧
    (Seam new ∨ ∃ c, ps.getLast? = some (.char c) ∧ Nesting.closes c = true)

/-- Two texts with the same pieces, the one in front of blanks at the end of a source and the other
in front of a text in which an expression can end; in front of anything, if they end with a closing
delimiter. Both may be in front of anything if they end with the first character of a reference, but
then only what lies in front of that character corresponds. -/
structure Relocation where
  pieces : List Piece
  /-- What stands behind the pieces. -/
  tail : Side → List Char
  /-- Where the pieces begin. -/
  start : Side → Nat
  ink : ∀ p, pieces.getLast? = some p → p.isIn isSpace = false
  ends : Piece.CanEnd pieces (tail .old) (tail .new) ∨
    ∃ c, pieces.getLast? = some (.char c) ∧ beginsReference c = true

namespace Relocation

open Piece

variable (m : Relocation)

/-- Where the pieces end. -/
def stop (side : Side) : Nat := m.start side + byteLength (spell side m.pieces)

/-- Whether what stands in front of a place of the first text corresponds to something. -/
def Reaches (here : Cursor) : Prop :=
  CanEnd m.pieces (m.tail .old) (m.tail .new) ∨ here.offset < m.stop .old

variable {m} in
/-- A place reaches the end of the text if one behind it does. -/
theorem Reaches.of_moves {here stop : Cursor} {u : List Char} (h : m.Reaches stop)
    (hmove : here.Moves u stop) : m.Reaches here :=
  h.imp_right fun hlt => Nat.lt_of_le_of_lt hmove.offset_le hlt

/-- Places with the same pieces in front of them. -/
def Inside (here here' : Cursor) : Prop :=
  ∃ ps, ps <:+ m.pieces ∧ here.rest = spell .old ps ++ m.tail .old ∧
    here'.rest = spell .new ps ++ m.tail .new ∧
    here.offset + byteLength (spell .old ps) = m.stop .old ∧
    here'.offset + byteLength (spell .new ps) = m.stop .new

/-- Places with the same pieces in front of them, or behind the blanks that follow the pieces. -/
inductive Places : Cursor → Cursor → Prop where
  | inside {here here' : Cursor} (h : m.Inside here here') : Places here here'
  | behind {here here' : Cursor} (blank : (m.tail .old).all isSpace = true) (rest : here.rest = [])
    (rest' : here'.rest = (m.tail .new).dropWhile isSpace) (offset : m.stop .old ≤ here.offset)
    (offset' : here'.offset = m.stop .new + byteLength ((m.tail .new).takeWhile isSpace)) :
    Places here here'

/-- Offsets in front of the same pieces, or behind all pieces. -/
def Offsets (n n' : Nat) : Prop :=
  (∃ ps, ps <:+ m.pieces ∧ n + byteLength (spell .old ps) = m.stop .old ∧
    n' + byteLength (spell .new ps) = m.stop .new) ∨ m.stop .old ≤ n ∧ m.stop .new ≤ n'

/-- No gap lies inside a span. -/
def Spares (span : Span) : Prop := sparesFrom (m.start .old) span m.pieces = true

/-- Behind any part of the pieces what is left does not end in a blank. -/
theorem ink_of_suffix {ps : List Piece} (hps : ps <:+ m.pieces) (hne : ps ≠ []) :
    ∃ p, ps.getLast? = some p ∧ p.isIn isSpace = false := by
  obtain ⟨more, hmore⟩ := hps
  have hlast := List.getLast?_eq_getLast_of_ne_nil hne
  exact ⟨_, hlast, m.ink _ (by rw [← hmore, List.getLast?_append_of_ne_nil _ hne, hlast])⟩

/-- What is left ends with the last piece. -/
theorem concat_of_suffix {ps : List Piece} (hps : ps <:+ m.pieces) (hne : ps ≠ []) {p : Piece}
    (hlast : m.pieces.getLast? = some p) : ∃ qs, ps = qs ++ [p] := by
  obtain ⟨more, hmore⟩ := hps
  rw [← hmore, List.getLast?_append_of_ne_nil _ hne,
    List.getLast?_eq_getLast_of_ne_nil hne] at hlast
  exact ⟨_, (Option.some.inj hlast ▸ List.dropLast_concat_getLast hne).symm⟩

/-- Nor are all pieces that are left blanks, and blanks are skipped alike in both texts. -/
theorem dropWhile_of_suffix {ps : List Piece} (hps : ps <:+ m.pieces) (hne : ps ≠ [])
    (side : Side) : (spell side ps ++ m.tail side).dropWhile isSpace =
      spell side (ps.dropWhile (isIn isSpace)) ++ m.tail side := by
  obtain ⟨p, hlast, hp⟩ := m.ink_of_suffix hps hne
  have hleft : ps.dropWhile (isIn isSpace) ≠ [] := fun hnil => by
    have := List.dropWhile_eq_nil_iff.mp hnil p (List.mem_of_getLast? hlast)
    rw [hp] at this
    cases this
  rw [List.dropWhile_append, dropWhile_spell (by decide), if_neg]
  rw [List.isEmpty_iff, spell_eq_nil_iff]
  exact hleft

namespace Places

variable {m} {here here' stop stop' : Cursor} {w w' : List Char}

/-- Places that correspond have offsets that do. -/
theorem offsets (h : m.Places here here') : m.Offsets here.offset here'.offset := by
  cases h with
  | inside h =>
    obtain ⟨ps, hps, -, -, offset, offset'⟩ := h
    exact .inl ⟨ps, hps, offset, offset'⟩
  | behind _ _ _ offset offset' => exact .inr ⟨offset, by omega⟩

/-- In front of any character a place is inside the text. -/
theorem isInside (h : m.Places here here') (hne : here.rest ≠ []) : m.Inside here here' := by
  cases h with
  | inside h => exact h
  | behind _ rest => exact (hne rest).elim

/-- A text without gaps that does not end in a blank leads to places inside the text. -/
theorem move (h : m.Places here here') (hw : EndsInk w) (hmove : here.Moves w stop)
    (hreach : m.Reaches stop)
    (hgap : w.all (fun c => !isSpace c) = true ∨ m.Spares ⟨here.offset, stop.offset⟩) :
    ∃ stop', here'.Moves w stop' ∧ m.Inside stop stop' := by
  cases h with
  | inside h =>
    obtain ⟨ps, hps, rest, rest', offset, offset'⟩ := h
    have hrest := rest.symm.trans hmove.rest_eq
    have hshort : (m.tail .old).all isSpace = true ∨ byteLength w ≤ byteLength (spell .old ps) :=
      hreach.imp And.left fun hlt => by have := hmove.offset_eq; omega
    obtain ⟨qs, rfl⟩ := exists_chars (.inr hw) hshort hrest (Nat.le_refl here.offset) <| by
      refine hgap.imp_right fun hspares => ?_
      obtain ⟨more, hmore⟩ := hps
      rw [Spares, ← hmore, sparesFrom_append] at hspares
      rw [Relocation.stop, ← hmore, spell_append, byteLength_append, ← Nat.add_assoc] at offset
      rw [hmove.offset_eq, ← Nat.add_right_cancel offset] at hspares
      exact (Bool.and_eq_true_iff.mp hspares).2
    rw [spell_append, spell_char, List.append_assoc] at rest rest' hrest
    rw [spell_append, spell_char, byteLength_append] at offset offset'
    have hoffset := hmove.offset_eq
    refine ⟨_, .of_rest_eq rest', qs, (List.suffix_append _ _).trans hps,
      (List.append_cancel_left hrest).symm, rfl, by omega, ?_⟩
    dsimp only
    omega
  | behind _ rest =>
    have hnone := rest.symm.trans hmove.rest_eq
    exact (hw.ne_nil (List.append_eq_nil_iff.mp hnone.symm).1).elim

/-- Behind the blanks at places that correspond are places that correspond. -/
theorem skipSpaces (h : m.Places here here') (hreach : m.Reaches here.skipSpaces) :
    m.Places here.skipSpaces here'.skipSpaces := by
  cases h with
  | inside h =>
    obtain ⟨ps, hps, rest, rest', offset, offset'⟩ := h
    by_cases hne : ps = []
    · subst hne
      rw [spell_nil, List.nil_append] at rest rest'
      rw [spell_nil, byteLength_nil, Nat.add_zero] at offset offset'
      have hle := here.moves_skipSpaces.offset_le
      obtain ⟨hblank, -⟩ := hreach.resolve_right (by omega)
      have hnone : (m.tail .old).dropWhile isSpace = [] :=
        List.dropWhile_eq_nil_iff.mpr (List.all_eq_true.mp hblank)
      refine .behind hblank (by rw [Cursor.skipSpaces, Cursor.skipWhile, rest]; exact hnone)
        (by rw [Cursor.skipSpaces, Cursor.skipWhile, rest']) ?_ ?_
      · rw [Cursor.skipSpaces, Cursor.skipWhile]
        dsimp only
        omega
      · rw [Cursor.skipSpaces, Cursor.skipWhile, rest', offset']
    · have skipped {place : Cursor} {side : Side} (h : place.rest = spell side ps ++ m.tail side)
          (hoffset : place.offset + byteLength (spell side ps) = m.stop side) :
          place.skipSpaces.rest = spell side (ps.dropWhile (isIn isSpace)) ++ m.tail side ∧
            place.skipSpaces.offset + byteLength (spell side (ps.dropWhile (isIn isSpace))) =
              m.stop side := by
        have hmoves := place.moves_skipSpaces
        have hdrop : place.skipSpaces.rest =
            spell side (ps.dropWhile (isIn isSpace)) ++ m.tail side := by
          rw [Cursor.skipSpaces, Cursor.skipWhile, h]
          exact m.dropWhile_of_suffix hps hne side
        refine ⟨hdrop, ?_⟩
        have hlength := congrArg byteLength (h.symm.trans hmoves.rest_eq)
        rw [hdrop, byteLength_append, byteLength_append, byteLength_append] at hlength
        have := hmoves.offset_eq
        omega
      obtain ⟨hrest, hoffset⟩ := skipped rest offset
      obtain ⟨hrest', hoffset'⟩ := skipped rest' offset'
      exact .inside ⟨_, (List.dropWhile_suffix _).trans hps, hrest, hrest', hoffset, hoffset'⟩
  | behind blank rest rest' offset offset' =>
    rw [Cursor.skipSpaces_of_nil rest,
      Cursor.skipSpaces_of_endsBefore (by rw [rest']; exact endsBefore_dropWhile _ _)]
    exact .behind blank rest rest' offset offset'

/-- The texts between places that correspond have the same pieces, and blanks behind them only
behind the whole text. -/
theorem texts (h : m.Places here here') (h' : m.Places stop stop') (hmove : here.Moves w stop)
    (hmove' : here'.Moves w' stop') : ∃ (qs : List Piece) (b : Side → List Char),
      w = spell .old qs ++ b .old ∧ w' = spell .new qs ++ b .new ∧
        (∀ side, (b side).all isSpace = true) ∧
        (stop.offset < m.stop .old → ∀ side, b side = []) ∧
        (qs ≠ [] → here.offset < m.stop .old) := by
  cases h with
  | inside h =>
    obtain ⟨ps, hps, rest, rest', offset, offset'⟩ := h
    cases h' with
    | inside h' =>
      obtain ⟨ps', hps', hrest, hrest', hoffset, -⟩ := h'
      have hstop := hmove.offset_eq
      have hlt : byteLength (spell .old ps') ≤ byteLength (spell .old ps) := by omega
      obtain ⟨qs, rfl⟩ : ps' <:+ ps := by
        rcases List.suffix_or_suffix_of_suffix hps' hps with h | ⟨more, rfl⟩
        · exact h
        · rw [spell_append, byteLength_append] at hlt
          have hmore : byteLength (spell .old more) = 0 := by omega
          rw [spell_eq_nil_iff.mp (byteLength_eq_zero_iff.mp hmore)]
          exact List.suffix_refl _
      rw [spell_append, List.append_assoc] at rest rest'
      rw [spell_append, byteLength_append] at offset
      have hw := rest.symm.trans (hmove.rest_eq.trans (congrArg (w ++ ·) hrest))
      have hw' := rest'.symm.trans (hmove'.rest_eq.trans (congrArg (w' ++ ·) hrest'))
      exact ⟨qs, fun _ => [], by rw [List.append_nil]; exact (List.append_cancel_right hw).symm,
        by rw [List.append_nil]; exact (List.append_cancel_right hw').symm, fun _ => rfl,
        fun _ _ => rfl, fun hne => by have := byteLength_spell_pos .old hne; omega⟩
    | behind hblank hrest hrest' hoffset _ =>
      have hw := rest.symm.trans hmove.rest_eq
      rw [hrest, List.append_nil] at hw
      have hw' := rest'.symm.trans hmove'.rest_eq
      rw [hrest'] at hw'
      refine ⟨ps, Side.pick (m.tail .old) ((m.tail .new).takeWhile isSpace), hw.symm,
        List.append_cancel_right (hw'.symm.trans ?_), fun side => ?_, fun hlt => by omega,
        fun hne => by have := byteLength_spell_pos .old hne; omega⟩
      · rw [List.append_assoc]
        exact congrArg _ List.takeWhile_append_dropWhile.symm
      · cases side with
        | old => exact hblank
        | new => exact List.all_takeWhile
  | behind _ rest rest' offset offset' =>
    obtain ⟨rfl, hstop⟩ := List.append_eq_nil_iff.mp (hmove.rest_eq.symm.trans rest)
    obtain rfl : w' = [] := by
      cases h' with
      | inside h' =>
        obtain ⟨ps', -, hrest, hrest', -, -⟩ := h'
        have hps' := (List.append_eq_nil_iff.mp (hrest.symm.trans hstop)).1
        obtain rfl := spell_eq_nil_iff.mp hps'
        have hdrop := congrArg List.length (rest'.symm.trans hmove'.rest_eq)
        have hle := (List.dropWhile_suffix (l := m.tail .new) isSpace).length_le
        rw [hrest', spell_nil, List.nil_append, List.length_append] at hdrop
        exact List.length_eq_zero_iff.mp (by omega)
      | behind _ _ hrest' _ _ =>
        have hsame := rest'.symm.trans hmove'.rest_eq
        rw [hrest'] at hsame
        exact List.append_left_eq_self.mp hsame.symm
    exact ⟨[], fun _ => [], rfl, rfl, fun _ => rfl, fun _ _ => rfl, fun hne => (hne rfl).elim⟩

/-- A text that begins with something other than a blank begins inside the text, and with the same
character in both places. -/
theorem head_of_texts {c : Char} {v : List Char} (h : m.Places here here')
    (h' : m.Places stop stop') (hmove : here.Moves (c :: v) stop) (hmove' : here'.Moves w' stop')
    (hc : isSpace c = false) : here.offset < m.stop .old ∧ w'.head? = some c := by
  obtain ⟨qs, b, hw, rfl, hb, -, hbegins⟩ := h.texts h' hmove hmove'
  have hcons {side : Side} {u : List Char} (hu : c :: u = b side) : False := by
    have := List.all_eq_true.mp (hb side) c (hu ▸ List.mem_cons_self)
    rw [hc] at this
    cases this
  cases qs with
  | nil => exact (hcons hw).elim
  | cons p qs =>
    cases p with
    | char d =>
      obtain ⟨rfl, -⟩ := List.cons.inj hw
      exact ⟨hbegins nofun, rfl⟩
    | gap g =>
      obtain ⟨d, x, hx⟩ := List.exists_cons_of_ne_nil (g.run .old).1
      rw [spell_cons, show (gap g).chars .old = d :: x from hx] at hw
      obtain ⟨rfl, -⟩ := List.cons.inj hw
      have := List.all_eq_true.mp (g.run .old).2 c (hx ▸ List.mem_cons_self)
      rw [hc] at this
      cases this

/-- Behind the whole text come the blanks that follow it. -/
theorem skipSpaces_of_nil (h : m.Places here here') (hnil : here.rest = []) :
    here'.skipSpaces = (Cursor.mk (m.tail .new) (m.stop .new)).skipSpaces := by
  obtain ⟨rest', offset'⟩ := here'
  cases h with
  | inside h =>
    obtain ⟨ps, -, rest, hrest', -, hoffset'⟩ := h
    have hps := (List.append_eq_nil_iff.mp (rest.symm.trans hnil)).1
    obtain rfl := spell_eq_nil_iff.mp hps
    obtain rfl : rest' = m.tail .new := hrest'
    obtain rfl : offset' = m.stop .new := hoffset'
    rfl
  | behind _ _ hrest' _ hoffset' =>
    obtain rfl : rest' = _ := hrest'
    obtain rfl : offset' = _ := hoffset'
    exact (Cursor.mk (m.tail .new) (m.stop .new)).skipSpaces_skipSpaces

/-- Where nothing but blanks is left both texts end. -/
theorem stop_of_nil (h : m.Inside here here') (hnil : here.skipSpaces.rest = []) :
    here' = ⟨m.tail .new, m.stop .new⟩ := by
  obtain ⟨rest', offset'⟩ := here'
  obtain ⟨ps, hps, rest, hrest', -, hoffset'⟩ := h
  obtain rfl : ps = [] := by
    by_contra hne
    obtain ⟨p, hlast, hp⟩ := m.ink_of_suffix hps hne
    rw [Cursor.skipSpaces, Cursor.skipWhile, rest, m.dropWhile_of_suffix hps hne] at hnil
    have hblank := List.dropWhile_eq_nil_iff.mp
      (spell_eq_nil_iff.mp (List.append_eq_nil_iff.mp hnil).1) p (List.mem_of_getLast? hlast)
    rw [hp] at hblank
    cases hblank
  obtain rfl : rest' = m.tail .new := hrest'
  obtain rfl : offset' = m.stop .new := hoffset'
  rfl

/-- Behind what ends in neither a blank nor a closing delimiter the two texts part. -/
theorem parting (h : m.Places here here') (h' : m.Inside stop stop') (hreach : m.Reaches stop)
    (hw : EndsOpen w) (hmove : here.Moves w stop) : Parting stop.rest stop'.rest := by
  obtain ⟨ps, hps, rest, rest', offset, -⟩ := h'
  obtain ⟨u, qs, rfl, hqs⟩ := exists_word ps
  rw [spell_append, spell_char, List.append_assoc] at rest rest'
  rcases hqs .new with rfl | ⟨c, v, hv, hc⟩
  · rw [List.append_nil] at hps
    rw [spell_nil, List.nil_append] at rest rest'
    rw [List.append_nil, spell_char] at offset
    rcases List.eq_nil_or_concat' u with rfl | ⟨v, d, rfl⟩
    · rw [byteLength_nil, Nat.add_zero] at offset
      obtain ⟨-, hseam | ⟨c, hlast, hc⟩⟩ := hreach.resolve_right (by omega)
      · exact ⟨[], _, _, rest, rest', .inl hseam⟩
      · -- The text would end with the closing delimiter.
        exfalso
        obtain ⟨v, d, rfl, -, hd⟩ := hw
        obtain ⟨ps, hps, hrest, -, -, -⟩ := h.isInside (by rw [hmove.rest_eq]; simp)
        have hspell := List.append_cancel_right (hrest.symm.trans (hmove.rest_eq.trans
          (congrArg (v ++ [d] ++ ·) rest)))
        obtain ⟨qs, rfl⟩ := m.concat_of_suffix hps (fun hnil => by simp [hnil] at hspell) hlast
        rw [spell_append] at hspell
        obtain ⟨-, hsame⟩ := List.append_inj' hspell rfl
        rw [← (List.cons.inj hsame).1, hc] at hd
        cases hd
    · have hlast (c : Char) (hlast : m.pieces.getLast? = some (.char c)) : d = c := by
        obtain ⟨qs, hqs⟩ := m.concat_of_suffix hps (by simp) hlast
        rw [List.map_append, List.map_singleton] at hqs
        obtain ⟨-, hsame⟩ := List.append_inj' hqs rfl
        exact Piece.char.inj (List.cons.inj hsame).1
      rcases m.ends with ⟨-, hseam | ⟨c, hc, hcloses⟩⟩ | ⟨c, hc, hbegins⟩
      · exact ⟨v ++ [d], _, _, rest, rest', .inl hseam⟩
      all_goals
        obtain rfl := hlast c hc
        rw [List.append_assoc] at rest rest'
      · exact ⟨v, _, _, rest, rest', .inl (seam_cons (isSeam_of_closes hcloses))⟩
      · exact ⟨v, _, _, rest, rest', .inr ⟨d, _, _, hbegins, rfl, rfl⟩⟩
  · refine ⟨u, _, _, rest, rest', .inl ?_⟩
    rw [hv]
    exact seam_cons_of_isSpace hc

end Places

end Relocation

end Vimscript
