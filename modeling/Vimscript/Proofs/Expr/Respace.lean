import Mathlib.Data.List.DropRight
import Vimscript.Proofs.Expr.Relocate
import Vimscript.Proofs.Expr.Whole

/-!
# Other blanks

Blanks count only by their presence. A source whose runs of blanks outside strings are exchanged
for other runs, and that gets or loses blanks at its ends, is read as the same expression.
-/

namespace Vimscript

open Pattern Text

/-- Blanks change nothing about what may follow. -/
theorem Text.Seam.append {b rest : List Char} (h : Seam rest) (hb : b.all isSpace = true) :
    Seam (b ++ rest) := by
  cases b with
  | nil => exact h
  | cons c b => exact seam_cons_of_isSpace (Bool.and_eq_true_iff.mp (List.all_cons ▸ hb)).1

namespace Piece

/-- Pieces are blanks, pieces that begin and end with no blank, and blanks. -/
theorem exists_core (ps : List Piece) : ∃ b qs b' : List Piece, ps = b ++ (qs ++ b') ∧
    b.all (isIn isSpace) = true ∧ b'.all (isIn isSpace) = true ∧
      (∀ p, qs.head? = some p → p.isIn isSpace = false) ∧
        ∀ p, qs.getLast? = some p → p.isIn isSpace = false := by
  refine ⟨ps.takeWhile (isIn isSpace), (ps.dropWhile (isIn isSpace)).rdropWhile (isIn isSpace),
    (ps.dropWhile (isIn isSpace)).rtakeWhile (isIn isSpace), ?_, List.all_takeWhile, ?_,
    fun p hp => ?_, fun p hp => ?_⟩
  · rw [List.rdropWhile_append_rtakeWhile, List.takeWhile_append_dropWhile]
  · exact List.all_eq_true.mpr fun p hp => List.mem_rtakeWhile_imp hp
  · obtain ⟨more, hmore⟩ := List.rdropWhile_prefix (isIn isSpace) (ps.dropWhile (isIn isSpace))
    have hfirst := List.head?_dropWhile_not (isIn isSpace) ps
    rw [← hmore, List.head?_append, hp] at hfirst
    simpa using hfirst
  · have hne := List.ne_nil_of_mem (List.mem_of_getLast? hp)
    rw [List.getLast?_eq_getLast_of_ne_nil hne] at hp
    have := List.rdropWhile_last_not (isIn isSpace) _ hne
    rw [Option.some.inj hp] at this
    simpa using this

/-- A piece that is no blank is a character. -/
theorem eq_char {p : Piece} (h : p.isIn isSpace = false) :
    ∃ c, p = char c ∧ isSpace c = false := by
  cases p with
  | char c => exact ⟨c, rfl, h⟩
  | gap g => cases h

end Piece

/-- Neither the whole source nor its end is a tier of operators. -/
theorem Rule.ofLevel_laid (level : Nat) :
    ofLevel level ≠ .endOfInput ∧ ofLevel level ≠ .expression := by
  match level with
  | 0 | 1 | 2 | 3 | 4 | 5 | 6 | 7 => decide
  | n + 8 => exact ⟨nofun, nofun⟩

/-- What derives at a level from a place on, in front of blanks at the end of the source, reads at
that level over each text with the same pieces. -/
theorem Derives.readsAs {level : Nat} {here stop : Cursor} {t : Tree Rule} {ps : List Piece}
    {old : List Char} {follow : List Char → Prop} {budget : Nat} {e : Expr Span}
    (h : Derives (.rule (.ofLevel level)) here stop [t])
    (hrest : here.rest = Piece.spell .old ps ++ old) (hold : old.all isSpace = true)
    (hlast : stop.skipSpaces.rest = [])
    (hhead : ∃ c v, Piece.spell .new ps = c :: v ∧ isSpace c = false)
    (hink : ∀ p, ps.getLast? = some p → p.isIn isSpace = false)
    (hends : ∀ rest, follow rest →
      Seam rest ∨ ∃ c, ps.getLast? = some (.char c) ∧ Nesting.closes c = true)
    (hstrings : ∀ t' ∈ t.nodes, t'.label = .string →
      Piece.sparesFrom here.offset t'.span ps = true)
    (he : (t.map Rule.tag).exprWithin budget = .ok e) :
    ReadsAs follow level (Piece.spell .new ps) e.erase := by
  refine ⟨hhead, fun place mid hmoves hfollow => ?_⟩
  have hends : Piece.CanEnd ps old mid.rest := ⟨hold, hends _ hfollow⟩
  let m : Relocation :=
    { pieces := ps
      tail := Side.pick old mid.rest
      start := Side.pick here.offset place.offset
      ink := hink
      ends := .inl hends }
  have hinside : m.Inside here place :=
    ⟨ps, List.suffix_refl ps, hrest, hmoves.rest_eq, rfl, rfl⟩
  have hmid : (⟨m.tail .new, m.stop .new⟩ : Cursor) = mid :=
    congrArg (Cursor.mk mid.rest) hmoves.offset_eq.symm
  obtain ⟨stop', ts', hplaces, hlays, hmoved, htight⟩ :=
    (h.lays (.rule (Rule.ofLevel_laid level))).relocate (.inside hinside) (.inl hends)
      fun t' ht' => hstrings t' (by simpa [Tree.nodesAll] using ht')
  obtain ⟨t', _, ht, hnil, rfl⟩ := List.forall₂_cons_left_iff.mp hmoved
  cases hnil
  refine ⟨stop', t', hlays.derives, ?_, fun hlevel => ?_, .of_trees he ht.trees⟩
  · rw [← Cursor.skipSpaces_skipSpaces, (hplaces.skipSpaces (.inl hends)).skipSpaces_of_nil hlast, hmid]
  · rw [Relocation.Places.stop_of_nil (htight hlevel hinside) hlast, hmid]

/-- Two texts with the same pieces between blanks. -/
structure Respacing where
  lead : Side → List Char
  pieces : List Piece
  trail : Side → List Char
  lead_blank : ∀ side, (lead side).all isSpace = true
  trail_blank : ∀ side, (trail side).all isSpace = true

namespace Respacing

open Piece

/-- One of the two texts. -/
def text (m : Respacing) (side : Side) : List Char :=
  m.lead side ++ (spell side m.pieces ++ m.trail side)

/-- Whether no gap lies inside a span of the first text. -/
def spares (m : Respacing) (span : Span) : Bool :=
  sparesFrom (byteLength (m.lead .old)) span m.pieces

/-- A text and itself. -/
def same (u : List Char) : Respacing :=
  ⟨fun _ => [], u.map char, fun _ => [], fun _ => rfl, fun _ => rfl⟩

/-- A text that is not exchanged is the same on both sides. -/
theorem text_same (u : List Char) (side : Side) : (same u).text side = u := by
  rw [text, same, spell_char, List.append_nil, List.nil_append]

variable (m : Respacing)

/-- If the first text is read as a whole with no gap in a string, the second is blanks, a text that
reads alike wherever an expression can end, and blanks. -/
theorem reads {last : Cursor} {root : Tree Rule} {limit : Nat} {e : Expr Span}
    (h : Parses (.rule .expression) (.start (m.text .old)) (some (last, [root])))
    (he : (root.map Rule.tag).toExpr limit = .ok e)
    (hstrings : ∀ t ∈ root.nodes, t.label = .string → m.spares t.span = true) :
    ∃ b u b', m.text .new = b ++ (u ++ b') ∧ b.all isSpace = true ∧ b'.all isSpace = true ∧
      ReadsAs Seam 0 u e.erase := by
  obtain ⟨stop, t, hderives, rfl, hlast, hroots⟩ := Derives.expression_iff.mp h.derives
  obtain rfl := List.singleton_inj.mp hroots
  obtain ⟨a, qs, a', hpieces, ha, ha', hhead, hink⟩ := exists_core m.pieces
  have htext (side : Side) : m.text side =
      (m.lead side ++ spell side a) ++ (spell side qs ++ (spell side a' ++ m.trail side)) := by
    rw [text, hpieces, spell_append, spell_append]
    simp only [List.append_assoc]
  have hlead (side : Side) : (m.lead side ++ spell side a).all isSpace = true := by
    rw [List.all_append, m.lead_blank, all_spell rfl, ha, Bool.and_true]
  have htrail (side : Side) : (spell side a' ++ m.trail side).all isSpace = true := by
    rw [List.all_append, m.trail_blank, all_spell rfl, ha', Bool.and_true]
  obtain ⟨c, v, hmove, -⟩ := hderives.starts_cons rfl
  cases qs with
  | nil =>
    -- There would be nothing but blanks.
    exfalso
    have hblank : (m.text .old).all isSpace = true := by
      rw [htext, List.all_append, hlead, spell_nil, List.nil_append, htrail]
      rfl
    have hnone : (Cursor.start (m.text .old)).skipSpaces.rest = [] :=
      List.dropWhile_eq_nil_iff.mpr (List.all_eq_true.mp hblank)
    rw [hmove.rest_eq] at hnone
    cases hnone
  | cons p qs =>
    obtain ⟨d, rfl, hd⟩ := eq_char (hhead p rfl)
    have hplace : (Cursor.start (m.text .old)).skipSpaces =
        ⟨spell .old (char d :: qs) ++ (spell .old a' ++ m.trail .old),
          0 + byteLength (m.lead .old ++ spell .old a)⟩ :=
      (Cursor.Moves.of_rest_eq (htext .old)).skipSpaces_eq (hlead .old) (endsBefore_cons.mpr hd)
    rw [hplace] at hderives
    refine ⟨_, _, _, htext .new, hlead .new, htrail .new, ?_⟩
    have hexpr : Derives (.rule (.ofLevel 0)) _ stop [t] := hderives
    obtain ⟨budget, he⟩ := Tree.exprWithin_of_toExpr (by rw [hderives.span_eq.2]; decide) he
    refine hexpr.readsAs rfl (htrail .old) hlast ⟨d, spell .new qs, rfl, hd⟩ hink
      (fun _ => .inl) (fun t' ht' hlabel => ?_) he
    have hspares := hstrings t'
      (List.mem_cons_of_mem _ (List.mem_append_left _ ht')) hlabel
    rw [spares, hpieces, sparesFrom_append, sparesFrom_append, Bool.and_eq_true,
      Bool.and_eq_true] at hspares
    rw [Nat.zero_add, byteLength_append]
    exact hspares.2.1

/-- Where each gap lies outside the strings of a source that is read, the source with the other
blanks denotes the same expression, so that it is read with the same s-expression. -/
theorem denotes_respaced {limits : Limits} {tree : Tree Rule} {e : Expr Span}
    (h : parseWithin limits (m.text .old) = .ok e)
    (htree : Tree.ofSource limits (m.text .old) = .ok tree)
    (hstrings : ∀ t ∈ tree.nodes, t.label = .string → m.spares t.span = true) :
    Denotes (m.text .new) e.erase ∧
      ∀ limits' e', parseWithin limits' (m.text .new) = .ok e' → e'.sexpr = e.sexpr := by
  obtain ⟨last, root, hparses, hroot⟩ := Denotes.parses_of_parseWithin h
  obtain ⟨last', hparses'⟩ := Tree.parses_of_ofSource htree
  obtain ⟨-, hroots⟩ := Prod.mk.inj (Option.some.inj (hparses.unique hparses'))
  obtain rfl := List.singleton_inj.mp hroots
  obtain ⟨b, u, b', hnew, hb, hb', hreads⟩ := m.reads hparses hroot hstrings
  have hdenotes : Denotes (m.text .new) e.erase := by
    rw [hnew]
    refine .of_reads hreads hb hb' ?_
    rw [← List.append_nil b']
    exact Seam.append nofun hb'
  exact ⟨hdenotes, fun limits' e' he' => (hdenotes.sexpr_eq he').trans (Expr.sexpr_erase e)⟩

/-- The blanks around a point and behind an argument change, and those inside a string stay. -/
theorem denotes_respaced_call : ∃ (m : Respacing) (e : Expr Span),
    m.text .old = "f('a  b' , c . d)".toList ∧ m.text .new = " f('a  b'\t\t,  c  .\td)".toList ∧
      parseWithin Limits.default (m.text .old) = .ok e ∧ Denotes (m.text .new) e.erase ∧
        ∀ limits' e', parseWithin limits' (m.text .new) = .ok e' → e'.sexpr = e.sexpr := by
  let m : Respacing :=
    { lead := Side.pick [] [' ']
      pieces := "f('a  b'".toList.map .char ++
        .gap (.between [' '] ['\t', '\t'] ⟨nofun, rfl⟩ ⟨nofun, rfl⟩) :: .char ',' ::
        .gap (.between [' '] [' ', ' '] ⟨nofun, rfl⟩ ⟨nofun, rfl⟩) :: .char 'c' ::
        .gap (.between [' '] [' ', ' '] ⟨nofun, rfl⟩ ⟨nofun, rfl⟩) :: .char '.' ::
        .gap (.between [' '] ['\t'] ⟨nofun, rfl⟩ ⟨nofun, rfl⟩) ::
        "d)".toList.map .char
      trail := fun _ => []
      lead_blank := by rintro (_ | _) <;> rfl
      trail_blank := fun _ => rfl }
  have hold : m.text .old = "f('a  b' , c . d)".toList := rfl
  have hspares : (Tree.ofSource Limits.default "f('a  b' , c . d)".toList).map (fun tree =>
      tree.nodes.all fun t => t.label != .string || m.spares t.span) = .ok true := by
    decide +kernel
  have hsource : (parseWithin Limits.default "f('a  b' , c . d)".toList).map (fun _ => ()) =
      .ok () := by decide +kernel
  obtain ⟨tree, htree, hspares⟩ := exists_of_map_eq_ok hspares
  obtain ⟨e, he, -⟩ := exists_of_map_eq_ok hsource
  have hall := List.all_eq_true.mp hspares
  exact ⟨m, e, hold, rfl, hold ▸ he, denotes_respaced m (hold ▸ he) (hold ▸ htree)
    fun t ht hlabel => by simpa [hlabel] using hall t ht⟩

end Respacing

end Vimscript
