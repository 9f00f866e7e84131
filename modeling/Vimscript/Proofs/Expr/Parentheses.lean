import Vimscript.Proofs.Expr.Costed
import Vimscript.Proofs.Expr.Nested

/-!
# Parentheses that are needed

Printing puts parentheses around a part only where the part could not stand without them. A text
that is read as an expression has no less weight than what is printed for the expression, and
without one of its pairs the printed text has less. So what such a text is read as, if it is read at
all, is another expression, and its s-expression shows that.
-/

namespace Vimscript

open Text

namespace Expr

variable {Mark Other : Type}

/-- A pair of parentheses counts for one. -/
theorem Encloses.weight_source {e : Expr Mark} {before inside after : List Char}
    (h : e.Encloses before inside after) :
    weight e.source = weight (before ++ inside ++ after) + 1 := by
  rw [h.source_eq, weight_append, weight_append, weight_cons (u := inside),
    weight_cons (u := after), weight_append, weight_append, weight_openParen, weight_closeParen]
  omega

/-- Trees with one s-expression are printed alike. -/
theorem source_eq_of_sexpr {e : Expr Mark} {e' : Expr Other} (h : e.Every Lexical)
    (h' : e'.Every Lexical) (heq : e.sexpr = e'.sexpr) : e.source = e'.source := by
  rw [← source_erase, erase_eq_of_sexpr h h' heq, source_erase]

/-- No pair of parentheses can be left out of a printed tree with names of the grammar and finite
numbers: the text without the pair is not read at all, or as a tree with another s-expression. -/
theorem sexpr_ne_of_encloses {e : Expr Mark} (h : e.Every Lexical)
    {before inside after : List Char} (hpair : e.Encloses before inside after) :
    e.source = before ++ '(' :: inside ++ ')' :: after ∧
      ∀ (limits : Limits) (e' : Expr Span),
        parseWithin limits (before ++ inside ++ after) = .ok e' → e'.sexpr ≠ e.sexpr := by
  refine ⟨hpair.source_eq, fun limits e' hparse hsame => ?_⟩
  have hle := weight_source_le hparse
  rw [source_eq_of_sexpr (lexical_of_parseWithin hparse) h hsame, hpair.weight_source] at hle
  omega

/-- The inner pair of `x * (a - (b - c))`, without which the differences are taken from the left. -/
theorem sexpr_ne_of_encloses_difference :
    let name (c : Char) : Expr Unit := var () none [c]
    let difference := binary () .subtract (name 'a') (binary () .subtract (name 'b') (name 'c'))
    let product := binary () .multiply (name 'x') difference
    product.source = "x * (a - (b - c))".toList ∧
      ∃ e, parseWithin Limits.default "x * (a - b - c)".toList = .ok e ∧
        e.sexpr ≠ product.sexpr := by
  intro name difference product
  have hproduct : product.layout =
      [.part 5 (name 'x'), .text " * ".toList] ++ .part 6 difference :: [] := rfl
  have hdifference : difference.layout = [.part 4 (name 'a'), .text " - ".toList] ++
      .part 5 (binary () .subtract (name 'b') (name 'c')) :: [] := rfl
  have hpair : product.Encloses "x * (a - ".toList "b - c".toList ")".toList :=
    .within hproduct (.around hdifference (by decide))
  have hlexical : product.Every Lexical := by
    have hname (c : Char) (hc : isNameChar c = true) : (name c).Every Lexical :=
      .node ⟨by simp, by simpa using hc⟩ nofun
    have hbinary {op : BinaryOp} {a b : Expr Unit} (ha : a.Every Lexical) (hb : b.Every Lexical) :
        (binary () op a b).Every Lexical := .node trivial (by simp [parts, ha, hb])
    exact hbinary (hname 'x' (by decide))
      (hbinary (hname 'a' (by decide)) (hbinary (hname 'b' (by decide)) (hname 'c' (by decide))))
  obtain ⟨hsource, hother⟩ := sexpr_ne_of_encloses hlexical hpair
  have hread : (parseWithin Limits.default "x * (a - b - c)".toList).isOk = true := by
    decide +kernel
  cases hparse : parseWithin Limits.default "x * (a - b - c)".toList with
  | error error =>
    rw [hparse] at hread
    cases hread
  | ok e => exact ⟨hsource, e, rfl, hother Limits.default e hparse⟩

end Expr

end Vimscript
