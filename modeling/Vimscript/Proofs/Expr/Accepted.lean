import Vimscript.Proofs.Expr.Respace

/-!
# Accepted texts

What is read from a whole source is read from it wherever an expression can end behind it: between
brackets, commas and colons, and in front of a blank. An accepted text is kept together with the
expression that it denotes.
-/

namespace Vimscript

open Pattern Text

namespace Denotes

variable {source : List Char} {e : Expr Unit}

/-- A source is blanks, a text that reads as an expression wherever one can end, and blanks. -/
theorem reads (h : Denotes source e) : ∃ b u b', source = b ++ (u ++ b') ∧
    b.all isSpace = true ∧ b'.all isSpace = true ∧ ReadsAs Seam 0 u e := by
  obtain ⟨limits, e', he', rfl⟩ := denotes_iff.mp h
  obtain ⟨last, root, hparses, hroot⟩ := parses_of_parseWithin he'
  have hreads := Respacing.reads (.same source) (by rwa [Respacing.text_same])
    hroot fun t _ _ => Piece.sparesFrom_char _ _ _
  rwa [Respacing.text_same] at hreads

end Denotes

/-- What reads as an expression in front of a seam is denoted as a whole source. -/
theorem ReadsAs.denotes {level : Nat} {u : List Char} {e : Expr Unit}
    (h : ReadsAs Seam level u e) (hlevel : level ≤ 8) : Denotes u e := by
  have := Denotes.of_reads (h.loosen (Nat.zero_le level) hlevel) blank_nil blank_nil nofun
  rwa [List.append_nil] at this

/-- A text that is read, with what it is read as. -/
structure Accepted where
  text : List Char
  expr : Expr Unit
  denotes : Denotes text expr

namespace Accepted

/-- Whatever is read under some limits is accepted. -/
def ofParse {limits : Limits} {source : List Char} {e : Expr Span}
    (h : parseWithin limits source = .ok e) : Accepted := ⟨source, e.erase, .of_parseWithin h⟩

variable (s : Accepted) {b b' : List Char} {c : Char}

/-- An accepted text between blanks in front of a character that ends it. -/
theorem slot (hb : b.all isSpace = true) (hb' : b'.all isSpace = true) (hseam : Seam (b' ++ [c])) :
    ReadsSlot c (b ++ (s.text ++ b')) (some s.expr) := by
  obtain ⟨v, u, v', htext, hv, hv', hreads⟩ := s.denotes.reads
  refine .inr ⟨b ++ v, u, v' ++ b', s.expr, ?_, ?_, ?_, ?_, hreads, rfl⟩
  · rw [htext]
    simp only [List.append_assoc]
  · rw [List.all_append, hb, hv, Bool.true_and]
  · rw [List.all_append, hv', hb', Bool.true_and]
  · rw [List.append_assoc]
    exact hseam.append hv'

/-- Accepted texts between parentheses are primaries, whatever follows them. -/
theorem paren {follow : List Char → Prop} {level : Nat} (hlevel : level ≤ 8) :
    ReadsAs follow level ('(' :: (s.text ++ [')'])) s.expr := by
  obtain ⟨v, u, v', htext, hv, hv', hreads⟩ := s.denotes.reads
  have := hreads.paren hv hv' fun rest => (seam_cons (by decide)).append hv'
  rw [htext]
  simp only [List.append_assoc]
  exact (this.mono fun _ _ => trivial).loosen hlevel (Nat.le_refl 8)

end Accepted

end Vimscript
