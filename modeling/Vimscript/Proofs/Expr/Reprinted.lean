import Vimscript.Proofs.Expr.Layout
import Vimscript.Proofs.Expr.Nested

/-!
# Accepted sources survive printing

What a source is read as can be written again, and what is written is read as the same expression
unless its text is that of another. Such texts exist: parentheses around the name of a function
leave a call of a value, and the text that is printed for it has no parentheses.
-/

namespace Vimscript

namespace Expr

/-- A node has a text of its own if the node without marks has. -/
theorem Unambiguous.of_erase {Mark : Type} {e : Expr Mark} (h : e.erase.Unambiguous) :
    e.Unambiguous := by
  cases e with
  | funcrefCall => rwa [erase_funcrefCall, Unambiguous, takesCall_erase] at h
  | dict _ entries =>
    intro entry hentry
    rw [← source_erase]
    rw [erase_dict] at h
    exact h (entry.1.erase, entry.2.erase) (List.mem_map_of_mem hentry)
  | _ => exact trivial

/-- What is built from a parse tree can be written again. -/
theorem wellSpelled_of_parseWithin {limits : Limits} {source : List Char} {e : Expr Span}
    (h : parseWithin limits source = .ok e) : e.Every WellSpelled :=
  (Tree.every_built_of_parseWithin h).mono fun _ => Built.wellSpelled

/-- The printed form of an accepted source denotes what the source was read as, and has the same
s-expression, unless some node of it has the text of another expression. -/
theorem denotes_source_of_parseWithin {limits : Limits} {source : List Char} {e : Expr Span}
    (h : parseWithin limits source = .ok e) (hclear : e.Every Unambiguous) :
    Denotes e.source e.erase ∧ ∀ limits' e', parseWithin limits' e.source = .ok e' →
      e'.sexpr = e.sexpr := by
  have hprint : Denotes e.source e.erase :=
    (readsBack ((wellSpelled_of_parseWithin h).and hclear)).denotes
  refine ⟨hprint, fun limits' e' h' => ?_⟩
  rw [← sexpr_erase e', (Denotes.of_parseWithin h').unique hprint, sexpr_erase]

/-- Blanks and needless parentheses are lost in printing, and the shape is not. -/
theorem denotes_source_of_parseWithin_spaced : Denotes "a + b".toList (.binary () .add
    (.var () none ['a']) (.var () none ['b'])) ∧ ∀ limits' e',
      parseWithin limits' "a + b".toList = .ok e' → e'.sexpr = "(+ (var a) (var b))".toList := by
  have hsexpr : (parseWithin Limits.default "a  +(b)".toList).map sexpr =
      .ok "(+ (var a) (var b))".toList := by decide +kernel
  obtain ⟨e, hparse, hsexpr⟩ := exists_of_map_eq_ok hsexpr
  have ha : (var () none ['a']).Every Lexical := .node ⟨by simp, by decide⟩ nofun
  have hb : (var () none ['b']).Every Lexical := .node ⟨by simp, by decide⟩ nofun
  have hsum : (binary () .add (var () none ['a']) (var () none ['b'])).Every Lexical :=
    .node trivial (by simp [parts, ha, hb])
  have herase : e.erase = .binary () .add (.var () none ['a']) (.var () none ['b']) :=
    (erase_eq_of_sexpr (lexical_of_parseWithin hparse) hsum hsexpr :)
  have hclear : e.erase.Every Unambiguous := by
    rw [herase]
    refine .node trivial fun part hpart => ?_
    simp only [parts, List.mem_cons, List.not_mem_nil, or_false] at hpart
    rcases hpart with rfl | rfl <;> exact .node trivial nofun
  have h := denotes_source_of_parseWithin hparse (hclear.of_erase fun _ => .of_erase)
  rwa [← source_erase e, herase, hsexpr] at h

/-- A name between parentheses is called as a value, and printed as a call by name. -/
theorem sexpr_reprinted_enclosed_name : ∃ e e', parse "(f)(1)" = .ok e ∧
    parseWithin Limits.default e.source = .ok e' ∧ e.sexpr = "(funcref-call (var f) 1)".toList ∧
      e'.sexpr = "(call f 1)".toList := by
  have first : (parse "(f)(1)").map (fun e => (e.source, e.sexpr)) =
      .ok ("f(1)".toList, "(funcref-call (var f) 1)".toList) := by decide +kernel
  have again : (parse "f(1)").map sexpr = .ok "(call f 1)".toList := by decide +kernel
  obtain ⟨e, he, hforms⟩ := exists_of_map_eq_ok first
  obtain ⟨e', he', hsexpr'⟩ := exists_of_map_eq_ok again
  obtain ⟨hsource, hsexpr⟩ := Prod.mk.inj hforms
  exact ⟨e, e', he, hsource ▸ he', hsexpr, hsexpr'⟩

end Expr

end Vimscript
