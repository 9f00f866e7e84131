import Vimscript.Proofs.Expr.Reads
import Vimscript.Proofs.Grammar.Complete
import Vimscript.Proofs.Reading

/-!
# Whole sources

A source is an expression between blanks. What reads as an expression in front of nothing but
blanks is therefore what the source denotes.
-/

namespace Vimscript

open Pattern Text

namespace Tree

variable {span : Span} {excerpt : Excerpt} {t finish : Tree Tag} {e : Expr Unit}

/-- The end of the input is no part of the expression. -/
theorem exprWithin_root (hlabel : t.label ≠ .endOfInput) (hfinish : finish.label = .endOfInput)
    (budget : Nat) :
    (node .root span excerpt [t, finish]).exprWithin budget = t.exprWithin budget := by
  simp only [exprWithin, rootWithin, if_neg hlabel, List.all_cons, List.all_nil, hfinish,
    decide_true, Bool.and_self, if_true]

/-- So the expression of a whole source is that of its first node. -/
theorem exprWithin_of_toExpr {here stop place : Cursor} {t : Tree Rule} {limit : Nat}
    {e : Expr Span} (hlabel : t.label.tag ≠ .endOfInput)
    (h : ((Rule.expression.node here stop [t, Rule.endOfInput.node place place []]).map
      Rule.tag).toExpr limit = .ok e) :
    ∃ budget, (t.map Rule.tag).exprWithin budget = .ok e := by
  rw [map_node, toExpr] at h
  cases limit with
  | zero => cases h
  | succ budget =>
    rw [charge, List.map_cons, List.map_singleton, show Rule.expression.tag = .root from rfl,
      exprWithin_root (by rwa [label_map]) (by rw [label_map]; rfl)] at h
    exact ⟨budget, h⟩

/-- What one budget makes of a tree larger ones make of each tree that reads alike. -/
theorem Builds.of_trees {t' : Tree Tag} {budget : Nat} {e : Expr Span}
    (h : t.exprWithin budget = .ok e) (htrees : Likeness.ofBudgets.Trees t t') :
    Builds t' e.erase := by
  refine ⟨budget, fun budget' hle => ?_⟩
  have agree := Likeness.exprWithin htrees (.inr ⟨trivial, hle⟩)
  rw [h] at agree
  cases h' : t'.exprWithin budget' with
  | ok e' =>
    rw [h'] at agree
    exact ⟨e', h', Eq.symm agree⟩
  | error error =>
    rw [h'] at agree
    exact agree.elim

end Tree

/-- What reads as an expression in front of the blanks at the end is what the source denotes. -/
theorem Denotes.of_reads {follow : List Char → Prop} {b u b' : List Char} {e : Expr Unit}
    (h : ReadsAs follow 0 u e) (hb : b.all isSpace = true) (hb' : b'.all isSpace = true)
    (hfollow : follow b') : Denotes (b ++ (u ++ b')) e := by
  obtain ⟨c, v, hu, hc⟩ := h.head
  obtain ⟨last, hlast⟩ : ∃ last : Cursor, last.rest = [] ∧
      (Cursor.start (b ++ (u ++ b'))).Moves (b ++ (u ++ b')) last :=
    ⟨_, rfl, .of_rest_eq (List.append_nil _).symm⟩
  obtain ⟨place, htext, hblanks⟩ := Cursor.Moves.append_iff.mp
    (hlast.2.behindBlanks hb ⟨c, v ++ b', by rw [hu]; rfl, hc⟩)
  have hrest : place.rest = b' := by rw [hblanks.rest_eq, hlast.1, List.append_nil]
  obtain ⟨stop, t, hderives, hskip, -, ht⟩ := h.derives _ _ htext (hrest ▸ hfollow)
  have hend : place.skipSpaces = last := hblanks.skipSpaces_eq hb' (by
    rw [hlast.1]
    exact endsBefore_nil _)
  have hwhole := Derives.expression_iff.mpr
    ⟨stop, t, hderives, rfl, by rw [hskip, hend, hlast.1], rfl⟩
  have hparses := Rule.complete .expression _ _ _ hwhole trivial
  have hroot : ((Rule.expression.node (.start (b ++ (u ++ b'))) stop.skipSpaces
      [t, Rule.endOfInput.node stop.skipSpaces stop.skipSpaces []]).map Rule.tag).Builds e := by
    rw [Tree.map_node]
    refine ht.mono fun budget h => ?_
    rwa [show Rule.expression.tag = .root from rfl, List.map_cons, List.map_singleton,
      Tree.exprWithin_root (by rw [Tree.label_map, hderives.span_eq.2]; decide)
        (by rw [Tree.label_map]; rfl)]
  obtain ⟨bound, hbound⟩ := hroot.inside
  obtain ⟨e', he', rfl⟩ := hbound bound (Nat.le_refl bound)
  exact .of_parses hparses he'

end Vimscript
