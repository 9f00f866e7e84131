import Vimscript.Proofs.Expr.Likeness

/-!
# The expression of a node from those of its parts

A node builds the shape of an expression when every budget from some number on gives an expression
of that shape. For each kind of node a lemma says what it builds when its parts do. Runs of
operands are extended by one operand, since expressions grow that way: what a run has come to is
kept, whatever stands behind it.
-/

namespace Vimscript

/-- True of all numbers from some number on. -/
def FromSomeOn (p : Nat → Prop) : Prop := ∃ bound, ∀ n, bound ≤ n → p n

namespace FromSomeOn

variable {p q : Nat → Prop}

/-- What is true of all numbers is true from zero on. -/
theorem of_all (h : ∀ n, p n) : FromSomeOn p := ⟨0, fun n _ => h n⟩

/-- What follows is true from the same number on. -/
theorem mono (h : FromSomeOn p) (hpq : ∀ n, p n → q n) : FromSomeOn q := by
  obtain ⟨bound, h⟩ := h
  exact ⟨bound, fun n hn => hpq n (h n hn)⟩

/-- Two properties hold from the larger of their numbers on. -/
theorem and (h : FromSomeOn p) (h' : FromSomeOn q) : FromSomeOn fun n => p n ∧ q n := by
  obtain ⟨bound, h⟩ := h
  obtain ⟨bound', h'⟩ := h'
  exact ⟨max bound bound', fun n hn => ⟨h n (by omega), h' n (by omega)⟩⟩

/-- From the next number on there is a smaller one with the property. -/
theorem succ (h : FromSomeOn p) : FromSomeOn fun n => ∃ m, n = m + 1 ∧ p m := by
  obtain ⟨bound, h⟩ := h
  exact ⟨bound + 1, fun n hn => ⟨n - 1, by omega, h _ (by omega)⟩⟩

end FromSomeOn

namespace Tree

/-- A result is an expression of a shape. -/
def HasShape (result : Except Error (Expr Span)) (shape : Expr Unit) : Prop :=
  ∃ e, result = .ok e ∧ e.erase = shape

/-- Budgets from some number on make an expression of a shape from a tree. -/
def Builds (t : Tree Tag) (shape : Expr Unit) : Prop :=
  FromSomeOn fun budget => HasShape (t.exprWithin budget) shape

/-- Budgets from some number on make an expression of a shape from a level inside another. -/
def BuildsInside (t : Tree Tag) (shape : Expr Unit) : Prop :=
  FromSomeOn fun budget => HasShape (charge budget t.span fun budget => t.exprWithin budget) shape

variable {t operand op : Tree Tag} {ts : List (Tree Tag)} {span span' : Span}
  {excerpt excerpt' : Excerpt} {e e' : Expr Unit} {tag : Tag}

/-- A level inside another takes one unit of the budget more. -/
theorem Builds.inside (h : Builds t e) : BuildsInside t e := by
  refine h.succ.mono ?_
  rintro _ ⟨budget, rfl, h⟩
  exact h

/-- Whether a node with one child stands for what the child stands for. -/
def passes : Tag → Bool
  | .conditional | .logicalOr | .logicalAnd | .comparison | .additive | .multiplicative | .unary
  | .postfixed => true
  | _ => false

/-- Single children are passed on by all tiers of operators. -/
theorem exprWithin_single {budget : Nat} (htag : passes tag = true) :
    (node tag span excerpt [t]).exprWithin budget = t.exprWithin budget := by
  cases hresult : t.exprWithin budget <;> cases tag <;>
    first
    | (cases htag; done)
    | simp [exprWithin, conditionalWithin, binaryWithin, binaryFrom, additiveWithin, additiveFrom,
        unaryWithin, postfixedWithin, attachedWithin, hresult, bind, Except.bind, pure,
        Except.pure]

/-- A tier over one operand builds what the operand builds. -/
theorem Builds.single (htag : passes tag = true) (h : Builds t e) :
    Builds (.node tag span excerpt [t]) e := by
  simp only [Builds, exprWithin_single htag]
  exact h

/-- Marks that are put on leave no trace in the shape. -/
theorem erase_withMark (e : Expr Span) (span : Span) : (e.withMark span).erase = e.erase := by
  cases e <;> rfl

/-- Parentheses leave no trace but their span. -/
theorem Builds.primary (h : Builds t e) : Builds (.node .primary span excerpt [t]) e := by
  by_cases hlabel : t.label = .conditional
  · refine h.inside.mono ?_
    rintro budget ⟨e', he', rfl⟩
    refine ⟨e'.withMark span, ?_, erase_withMark e' span⟩
    simp only [exprWithin, primaryWithin, if_pos hlabel, he', bind, Except.bind, pure, Except.pure]
  · refine h.mono fun budget h => ?_
    simp only [exprWithin, primaryWithin, if_neg hlabel]
    exact h

/-- Whether two steps make the same of the parts of a run. -/
def SameSteps (step step' : RunStep) (ts : List (Tree Tag)) : Prop :=
  ∀ n last op operand rest, ts.drop n = last :: op :: operand :: rest →
    ∀ left, step last left op operand = step' last left op operand

/-- What steps made of a run, others that make the same of its parts make of it, and go on from
there. -/
theorem runFrom_append {step step' : RunStep} {left e : Expr Span} {last : Tree Tag}
    (h : runFrom step span last left ts = .ok e) (hstep : SameSteps step step' (last :: ts))
    (more : List (Tree Tag)) :
    runFrom step' span' last left (ts ++ more) =
      runFrom step' span' ((last :: ts).getLast (List.cons_ne_nil _ _)) e more := by
  induction last, left, ts using runFrom.induct with
  | case1 last left =>
    simp only [runFrom, pure, Except.pure, Except.ok.injEq] at h
    rw [List.nil_append, h, List.getLast_singleton]
  | case2 last left op =>
    simp only [runFrom, unexpected, reduceCtorEq] at h
  | case3 last left op operand rest ih =>
    rw [runFrom, hstep 0 last op operand rest rfl left] at h
    rw [List.cons_append, List.cons_append, runFrom]
    cases hjoined : step' last left op operand with
    | error => simp only [hjoined, bind, Except.bind, reduceCtorEq] at h
    | ok joined =>
      simp only [hjoined, bind, Except.bind] at h ⊢
      rw [ih joined h fun n => hstep (n + 2)]
      rfl

/-- A run that is longer by an operator and an operand takes one step more. -/
theorem runWithin_append {budget : Nat} {step step' : RunStep} {left : Expr Span}
    (h : runWithin budget step span ts = .ok left) (hstep : SameSteps step step' ts) :
    ∃ last, ts.getLast? = some last ∧ runWithin budget step' span' (ts ++ [op, operand]) =
      step' last left op operand := by
  cases ts with
  | nil => simp only [runWithin, unexpected, reduceCtorEq] at h
  | cons first rest =>
    refine ⟨_, List.getLast?_eq_some_getLast (List.cons_ne_nil _ _), ?_⟩
    rw [List.cons_append, runWithin]
    rw [runWithin] at h
    cases hfirst : first.exprWithin budget with
    | error => simp only [hfirst, bind, Except.bind, reduceCtorEq] at h
    | ok a =>
      simp only [hfirst, bind, Except.bind] at h ⊢
      rw [runFrom_append h hstep, runFrom]
      simp only [runFrom, bind_pure]

/-- Additive steps make the same of the parts of a run where the same blanks stand between them. -/
theorem sameSteps_of_gaps {budget : Nat} {text text' : List Char}
    (hgaps : Likeness.SameGaps span.start span'.start text text' ts ts) :
    SameSteps (additiveStep budget span.start text) (additiveStep budget span'.start text') ts := by
  intro n last op operand rest hdrop left
  have hblank := hgaps n
  rw [hdrop] at hblank
  change blankAmong span.start text [last, op, operand] =
    blankAmong span'.start text' [last, op, operand] at hblank
  simp only [additiveStep, hblank]

/-- An operator token is read by its text. -/
theorem binaryOp_of_text {o : BinaryOp} (hlabel : op.label = .operator)
    (hop : BinaryOp.ofToken? op.text = some o) : op.binaryOp = .ok o := by
  simp only [binaryOp, expect, if_pos hlabel, hop, bind, Except.bind]

/-- A run goes on with an operator and an operand. -/
theorem Builds.binary {o : BinaryOp} (htag : foldsLeft tag = true)
    (h : Builds (.node tag span excerpt ts) e) (hlabel : op.label = .operator)
    (hop : BinaryOp.ofToken? op.text = some o) (hoperand : Builds operand e') :
    Builds (.node tag span' excerpt' (ts ++ [op, operand])) (.binary () o e e') := by
  refine (h.and hoperand).mono ?_
  rintro budget ⟨⟨left, hleft, rfl⟩, right, hright, rfl⟩
  rw [exprWithin_of_foldsLeft htag, binaryWithin_eq] at hleft
  obtain ⟨last, -, hrun⟩ := runWithin_append hleft fun _ _ _ _ _ _ _ => rfl
  refine ⟨.join o left right, ?_, rfl⟩
  rw [exprWithin_of_foldsLeft htag, binaryWithin_eq, hrun, binaryStep, hright,
    binaryOp_of_text hlabel hop]
  rfl

/-- An additive run goes on with an operator and an operand, as the blanks beside the operator
tell. -/
theorem Builds.additive_step (tight : Bool) {e'' : Expr Unit}
    (h : Builds (.node .additive span excerpt ts) e)
    (hgaps : Likeness.SameGaps span.start span'.start excerpt.toList excerpt'.toList ts ts)
    (hblank : ∀ last, ts.getLast? = some last →
      blankAmong span'.start excerpt'.toList [last, op, operand] = !tight)
    (hlabel : op.label = .operator) (hoperand : Builds operand e')
    (happly : ∀ left right : Expr Span, left.erase = e → right.erase = e' →
      HasShape (applyAdditive tight op left right (Text.trim operand.text)) e'') :
    Builds (.node .additive span' excerpt' (ts ++ [op, operand])) e'' := by
  refine (h.and hoperand).mono ?_
  rintro budget ⟨⟨left, hleft, hleft'⟩, right, hright, hright'⟩
  obtain ⟨joined, hjoined, hshape⟩ := happly left right hleft' hright'
  refine ⟨joined, ?_, hshape⟩
  simp only [exprWithin, additiveWithin_eq] at hleft ⊢
  obtain ⟨last, hlast, hrun⟩ := runWithin_append hleft (sameSteps_of_gaps hgaps)
  rw [hrun, additiveStep, hright, hblank last hlast]
  simp only [bind, Except.bind, expect, if_pos hlabel, Bool.not_not, hjoined]

/-- A blank beside an operator makes it join its operands. -/
theorem Builds.additive {o : BinaryOp} (h : Builds (.node .additive span excerpt ts) e)
    (hgaps : Likeness.SameGaps span.start span'.start excerpt.toList excerpt'.toList ts ts)
    (hblank : ∀ last, ts.getLast? = some last →
      blankAmong span'.start excerpt'.toList [last, op, operand] = true)
    (hlabel : op.label = .operator) (hop : BinaryOp.ofToken? op.text = some o)
    (hoperand : Builds operand e') :
    Builds (.node .additive span' excerpt' (ts ++ [op, operand])) (.binary () o e e') := by
  refine h.additive_step false hgaps hblank hlabel hoperand ?_
  rintro left right rfl rfl
  refine ⟨.join o left right, ?_, rfl⟩
  simp only [applyAdditive, Bool.false_eq_true, false_and, if_false, binaryOp_of_text hlabel hop,
    Except.map]

/-- A tight point in front of a text that can be a key and is no call makes a field of what could
be a dictionary. -/
theorem Builds.tight_point {key : List Char} (h : Builds (.node .additive span excerpt ts) e)
    (hdict : e.couldBeDict = true)
    (hgaps : Likeness.SameGaps span.start span'.start excerpt.toList excerpt'.toList ts ts)
    (htight : ∀ last, ts.getLast? = some last →
      blankAmong span'.start excerpt'.toList [last, op, operand] = false)
    (hlabel : op.label = .operator) (hop : op.text = ['.']) (hoperand : Builds operand e')
    (hcall : ∀ scope name args, e' ≠ .call () scope name args)
    (htext : Text.trim operand.text = key) (hkey : Text.isLiteralKey key = true) :
    Builds (.node .additive span' excerpt' (ts ++ [op, operand]))
      (.index () e (.literal () (.string key))) := by
  refine h.additive_step true hgaps htight hlabel hoperand ?_
  rintro left right rfl rfl
  have hleft : left.couldBeDict = true := (Expr.couldBeDict_map _ left).symm.trans hdict
  have hright : ∀ mark scope name args, right ≠ .call mark scope name args :=
    fun mark scope name args heq => hcall scope name (Expr.mapItems _ args) (by rw [heq]; rfl)
  refine ⟨.field left key right.mark, ?_, rfl⟩
  rw [applyAdditive, if_pos ⟨rfl, hop, hleft⟩, htext, Expr.dot_of_ne hright, if_pos hkey]

/-- A tight dash in front of a text that can be a key goes on with the key of a field. -/
theorem Builds.tight_dash {key suffix : List Char}
    (h : Builds (.node .additive span excerpt ts) (.index () e (.literal () (.string key))))
    (hgaps : Likeness.SameGaps span.start span'.start excerpt.toList excerpt'.toList ts ts)
    (htight : ∀ last, ts.getLast? = some last →
      blankAmong span'.start excerpt'.toList [last, op, operand] = false)
    (hlabel : op.label = .operator) (hop : op.text = ['-']) (hoperand : Builds operand e')
    (htext : Text.trim operand.text = suffix) (hsuffix : Text.isLiteralKey suffix = true) :
    Builds (.node .additive span' excerpt' (ts ++ [op, operand]))
      (.index () e (.literal () (.string (key ++ '-' :: suffix)))) := by
  refine h.additive_step true hgaps htight hlabel hoperand fun left right hleft _ => ?_
  obtain ⟨mark, base, keyMark, rfl, -, rfl, -⟩ := Expr.field_of_map hleft
  refine ⟨.index (mark.merge right.mark) base (.literal (keyMark.merge right.mark)
    (.string (key ++ '-' :: suffix))), ?_, rfl⟩
  have hpoint : ¬ (true = true ∧ op.text = ['.'] ∧
      (Expr.index mark base (.literal keyMark (.string key))).couldBeDict = true) := by
    rw [hop]
    rintro ⟨-, h, -⟩
    cases h
  rw [applyAdditive, if_neg hpoint, if_pos ⟨rfl, hop, by rw [htext]; exact hsuffix⟩, htext]
  rfl

/-- Only refusals show the span that a conditional is read with. -/
theorem conditionalWithin_span {budget : Nat} {e : Expr Span}
    (h : conditionalWithin budget span ts = .ok e) : conditionalWithin budget span' ts = .ok e := by
  induction hlength : ts.length using Nat.strongRecOn generalizing ts e with
  | ind length ih => ?_
  match ts with
  | [] =>
    simp only [conditionalWithin, unexpected, reduceCtorEq] at h
  | [_] =>
    rw [conditionalWithin] at h ⊢
    exact h
  | operand :: node tag branchSpan excerpt parts :: rest =>
    rw [conditionalWithin] at h ⊢
    have right {e : Expr Span} (h : conditionalWithin budget span rest = .ok e) :
        conditionalWithin budget span' rest = .ok e := ih _ (by simp at hlength; omega) h rfl
    cases hleft : operand.exprWithin budget with
    | error => simp only [hleft, bind, Except.bind, reduceCtorEq] at h
    | ok left =>
      simp only [hleft, bind, Except.bind] at h ⊢
      split at h
      · cases hright : conditionalWithin budget span rest with
        | error => simp only [hright, reduceCtorEq] at h
        | ok a =>
          simp only [hright] at h
          simp only [right hright]
          exact h
      · rename_i branch
        cases hbranch : charge budget branch.span fun budget => branch.exprWithin budget with
        | error => simp only [hbranch, reduceCtorEq] at h
        | ok b =>
          cases hright : conditionalWithin budget span rest with
          | error => simp only [hbranch, hright, reduceCtorEq] at h
          | ok a =>
            simp only [hbranch, hright] at h
            simp only [right hright]
            exact h
      · simp only [unexpected, reduceCtorEq] at h

/-- The run of a conditional has an operand more than it has branches. -/
theorem conditional_run {budget : Nat} {e : Expr Span}
    (h : (node .conditional span excerpt ts).exprWithin budget = .ok e) :
    ts.length % 2 = 1 ∧ conditionalWithin budget span ts = .ok e := by
  simp only [exprWithin] at h
  split at h
  · simp only [unexpected, reduceCtorEq] at h
  · exact ⟨by omega, h⟩

/-- A node with an odd number of parts is read as the conditional that these make. -/
theorem exprWithin_conditional {budget : Nat} {e : Expr Span} (hlength : ts.length % 2 = 1)
    (h : conditionalWithin budget span ts = .ok e) :
    (node .conditional span excerpt ts).exprWithin budget = .ok e := by
  simp only [exprWithin, if_neg (show ¬ ts.length % 2 = 0 by omega)]
  exact h

variable {branchSpan : Span} {branchExcerpt : Excerpt} {branch : Tree Tag} {parts : List (Tree Tag)}
  {e'' : Expr Unit}

/-- A coalescing operator puts one more operand in front of a conditional. -/
theorem Builds.falsy (hoperand : Builds operand e)
    (h : Builds (.node .conditional span excerpt ts) e') :
    Builds (.node .conditional span' excerpt'
      (operand :: .node .coalesce branchSpan branchExcerpt parts :: ts)) (.falsy () e e') := by
  refine (hoperand.and h).mono ?_
  rintro budget ⟨⟨left, hleft, rfl⟩, right, hright, rfl⟩
  obtain ⟨hlength, hrun⟩ := conditional_run hright
  refine ⟨.falsy (left.mark.merge right.mark) left right, exprWithin_conditional ?_ ?_, rfl⟩
  · simp only [List.length_cons]
    omega
  · rw [conditionalWithin]
    simp only [hleft, bind, Except.bind, conditionalWithin_span hrun]
    rfl

/-- A question mark and a colon put a condition and a branch in front of a conditional. -/
theorem Builds.ternary (hoperand : Builds operand e) (hbranch : Builds branch e')
    (h : Builds (.node .conditional span excerpt ts) e'') :
    Builds (.node .conditional span' excerpt'
      (operand :: .node .ternaryThen branchSpan branchExcerpt [branch] :: ts))
      (.ternary () e e' e'') := by
  refine ((hoperand.and hbranch.inside).and h).mono ?_
  rintro budget ⟨⟨⟨left, hleft, rfl⟩, ifTrue, hifTrue, rfl⟩, right, hright, rfl⟩
  obtain ⟨hlength, hrun⟩ := conditional_run hright
  refine ⟨.ternary (left.mark.merge right.mark) left ifTrue right,
    exprWithin_conditional ?_ ?_, rfl⟩
  · simp only [List.length_cons]
    omega
  · rw [conditionalWithin]
    simp only [hleft, hifTrue, bind, Except.bind, conditionalWithin_span hrun]
    rfl

/-- Only refusals show the span that prefix operators are read with. -/
theorem unaryWithin_span {budget : Nat} {e : Expr Span}
    (h : unaryWithin budget span ts = .ok e) : unaryWithin budget span' ts = .ok e := by
  induction ts generalizing e with
  | nil => simp only [unaryWithin, unexpected, reduceCtorEq] at h
  | cons op rest ih =>
    cases rest with
    | nil =>
      rw [unaryWithin] at h ⊢
      exact h
    | cons next rest =>
      rw [unaryWithin] at h ⊢
      cases hinner : unaryWithin budget span (next :: rest) with
      | error => simp only [hinner, bind, Except.bind, reduceCtorEq] at h
      | ok a =>
        simp only [hinner, bind, Except.bind] at h
        simp only [ih hinner, bind, Except.bind]
        exact h

/-- A prefix operator applies to what the rest of its node builds. -/
theorem Builds.unary {o : UnaryOp} (hlabel : op.label = .operator)
    (hop : UnaryOp.ofToken? op.text = some o) (h : Builds (.node .unary span excerpt ts) e) :
    Builds (.node .unary span' excerpt' (op :: ts)) (.unary () o e) := by
  refine h.mono ?_
  rintro budget ⟨operand, hoperand, rfl⟩
  refine ⟨.unary (op.span.merge operand.mark) o operand, ?_, rfl⟩
  simp only [exprWithin] at hoperand ⊢
  cases ts with
  | nil => simp only [unaryWithin, unexpected, reduceCtorEq] at hoperand
  | cons next rest =>
    rw [unaryWithin]
    simp only [unaryWithin_span hoperand, applyUnary, expect, if_pos hlabel, hop, bind,
      Except.bind]

end Tree

end Vimscript
