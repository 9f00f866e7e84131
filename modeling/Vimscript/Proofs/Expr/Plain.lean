import Vimscript.Expr.OfTree

/-!
# Additive runs as plain runs

The additive tier has a fold of its own, because a tight point or dash may name a field. Where no
point and no dash stands tight, that fold does what the fold of the other tiers does: both build
the operand on the right before they ask what the operator means, so the first refusal is the same
one, and so is the tree with its spans. Nothing is asked of the nodes but the tags of the
operators; runs that end in an operator are refused alike.
-/

namespace Vimscript.Tree

/-- Whether the operator with a number, counted from zero, stands tight in a run of operands and
operators: there is an operand on its right, and no blank on either side. -/
def tightAt {Label : Type} (tree : Tree Label) (i : Nat) : Bool :=
  2 * i + 2 < tree.children.length && !tree.hasBlankBetween (2 * i) (2 * i + 3)

/-- An operator that is neither a tight point nor a tight dash joins its operands. -/
theorem applyAdditive_of_plain {tight : Bool} {op : Tree Tag} (left right : Expr Span)
    (rightText : List Char) (h : tight = true → op.text ≠ ['.'] ∧ op.text ≠ ['-']) :
    applyAdditive tight op left right rightText =
      (binaryOp op).map fun op => Expr.join op left right := by
  have hpoint : ¬ (tight = true ∧ op.text = ['.'] ∧ left.couldBeDict = true) :=
    fun ⟨htight, htext, _⟩ => (h htight).1 htext
  have hdash : ¬ (tight = true ∧ op.text = ['-'] ∧ Text.isLiteralKey rightText = true) :=
    fun ⟨htight, htext, _⟩ => (h htight).2 htext
  simp only [applyAdditive, if_neg hpoint, if_neg hdash]

section

variable {budget : Nat} {span : Span} {text : List Char}

/-- Operators are tagged, and those between two operands are no tight points or dashes. -/
structure PlainRun (origin : Nat) (text : List Char) (run : List (Tree Tag)) : Prop where
  label_eq : ∀ i op, run[2 * i + 1]? = some op → op.label = .operator
  plain : ∀ i op, run[2 * i + 1]? = some op → 2 * i + 2 < run.length →
    blankAmong origin text ((run.drop (2 * i)).take 3) = false →
      op.text ≠ ['.'] ∧ op.text ≠ ['-']

/-- What is left of a run behind its first operator is a run of the same kind. -/
theorem PlainRun.tail {origin : Nat} {first op : Tree Tag} {rest : List (Tree Tag)}
    (h : PlainRun origin text (first :: op :: rest)) : PlainRun origin text rest where
  label_eq i op hop := h.label_eq (i + 1) op hop
  plain i op hop hlength hblank :=
    h.plain (i + 1) op hop (by simp only [List.length_cons]; omega) hblank

/-- Behind any operand, and whatever has been folded so far, both folds go on alike. -/
theorem additiveFrom_eq_binaryFrom {last : Tree Tag} {ts : List (Tree Tag)} (left : Expr Span)
    (h : PlainRun span.start text (last :: ts)) :
    additiveFrom budget span text last left ts = binaryFrom budget span left ts := by
  match ts with
  | [] => rw [additiveFrom, binaryFrom]
  | [_] => rw [additiveFrom, binaryFrom]
  | op :: operand :: rest =>
    have hlabel : expect .operator op = .ok () := if_pos (h.label_eq 0 op rfl)
    have hplain : (!blankAmong span.start text [last, op, operand]) = true →
        op.text ≠ ['.'] ∧ op.text ≠ ['-'] := fun htight =>
      h.plain 0 op rfl (by simp only [List.length_cons]; omega) (by simpa using htight)
    rw [additiveFrom, binaryFrom, hlabel]
    cases operand.exprWithin budget with
    | error _ => rfl
    | ok right =>
      simp only [bind, Except.bind, applyAdditive_of_plain left right _ hplain]
      cases binaryOp op with
      | error _ => rfl
      | ok o => exact additiveFrom_eq_binaryFrom (.join o left right) h.tail

end

/-- A node whose operators are tagged, and among whose operators no point and no dash stands tight,
is read as an additive run exactly as it is read as a run of another tier: as the same expression
with the same spans, or with the same refusal. -/
theorem additiveWithin_eq_binaryWithin {tree : Tree Tag}
    (htags : ∀ i op, tree.children[2 * i + 1]? = some op → op.label = .operator)
    (hplain : ∀ i op, tree.children[2 * i + 1]? = some op → op.text = ['.'] ∨ op.text = ['-'] →
      tree.tightAt i = false) (budget : Nat) :
    additiveWithin budget tree.span tree.text tree.children =
      binaryWithin budget tree.span tree.children := by
  have hrun : PlainRun tree.span.start tree.text tree.children := by
    refine ⟨htags, fun i op hop hlength hblank => not_or.mp fun htext => ?_⟩
    have hloose := hplain i op hop htext
    rw [tightAt, hasBlankBetween, List.drop_take, Nat.add_sub_cancel_left, hblank,
      decide_eq_true hlength] at hloose
    cases hloose
  cases hchildren : tree.children with
  | nil => rw [additiveWithin, binaryWithin]
  | cons first rest =>
    rw [hchildren] at hrun
    rw [additiveWithin, binaryWithin]
    cases first.exprWithin budget with
    | error _ => rfl
    | ok left => exact additiveFrom_eq_binaryFrom left hrun

/-- A tight plus is no obstacle, and neither is a dash with blanks on both sides. -/
theorem additiveWithin_eq_binaryWithin_spaced :
    let name (c : Char) (place : Nat) : Tree Tag := node .variableRef ⟨place, place + 1⟩
      (.ofList [c]) [node .name ⟨place, place + 1⟩ (.ofList [c]) []]
    let sign (c : Char) (place : Nat) : Tree Tag :=
      node .operator ⟨place, place + 1⟩ (.ofList [c]) []
    let t : Tree Tag := node .additive ⟨0, 7⟩ (.ofList "a+b - c".toList)
      [name 'a' 0, sign '+' 1, name 'b' 2, sign '-' 4, name 'c' 6]
    t.tightAt 0 = true ∧ t.tightAt 1 = false ∧
      (∀ i op, t.children[2 * i + 1]? = some op → op.label = .operator) ∧
      (∀ i op, t.children[2 * i + 1]? = some op → op.text = ['.'] ∨ op.text = ['-'] →
        t.tightAt i = false) ∧
      additiveWithin 1 t.span t.text t.children = binaryWithin 1 t.span t.children := by
  intro name sign t
  have htags (i : Nat) (op : Tree Tag) (hop : t.children[2 * i + 1]? = some op) :
      op.label = .operator := by
    match i with
    | 0 | 1 => cases hop; rfl
    | i + 2 => cases hop
  have hplain (i : Nat) (op : Tree Tag) (hop : t.children[2 * i + 1]? = some op)
      (htext : op.text = ['.'] ∨ op.text = ['-']) : t.tightAt i = false := by
    match i with
    | 0 => cases hop; exact absurd htext (by decide)
    | 1 => rfl
    | i + 2 => cases hop
  exact ⟨rfl, rfl, htags, hplain, additiveWithin_eq_binaryWithin htags hplain 1⟩

end Vimscript.Tree
