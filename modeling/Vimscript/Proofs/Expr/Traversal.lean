import Vimscript.Expr.OfTree

/-!
# Lists and runs of nodes

Items and entries are read one node after the other, and both kinds of entries are read alike but
for their keys. The operands of a run of operators are folded to the left, whatever a step makes of
an operator and the operand behind it. And a lambda in front of its arguments is read in one way
where it stands by itself and where it is called as a method. So whatever is shown of all that is
read has to be shown of one node, of one step and of one such call.
-/

namespace Vimscript.Tree

variable {budget : Nat} {span whole : Span} {tag : Tag} {excerpt : Excerpt} {text : List Char}
  {lambda args last : Tree Tag} {ts : List (Tree Tag)} {left receiver : Expr Span}

/-- The children of a node are smaller than the list that it stands in. -/
theorem sizeOf_children_lt {t : Tree Tag} (h : t ∈ ts) : sizeOf t.children < sizeOf ts := by
  have := List.sizeOf_lt_of_mem h
  obtain ⟨tag, span, excerpt, parts⟩ := t
  rw [node.sizeOf_spec] at this
  dsimp only [children]
  omega

/-- The key of an entry of a literal dictionary. -/
def literalKey (key : Tree Tag) : Except Error (Expr Span) := do
  expect .literalDictKey key
  return .literal key.span (.string key.text)

/-- An entry with the tag that is asked for, whose key is read in a way of its own. -/
def entryWithin (budget : Nat) (tag : Tag) (readKey : Tree Tag → Except Error (Expr Span))
    (entry : Tree Tag) : Except Error (Expr Span × Expr Span) :=
  match entry.children with
  | [key, value] =>
    if entry.label = tag then do
      let key ← readKey key
      let value ← charge budget value.span fun budget => exprWithin budget value
      return (key, value)
    else unexpected entry.span
  | _ => unexpected entry.span

/-- What has another tag or other children than an entry is refused. -/
theorem entryWithin_of_ne {entryTag : Tag} {readKey : Tree Tag → Except Error (Expr Span)}
    (h : ∀ key value, tag = entryTag → ts = [key, value] → False) :
    entryWithin budget entryTag readKey (node tag span excerpt ts) = unexpected span := by
  unfold entryWithin
  split
  · rename_i key value hparts
    exact if_neg fun htag => h key value htag hparts
  · rfl

/-- A refusal is what it is, whatever was to come behind it. -/
theorem unexpected_bind {α β : Type} (next : α → Except Error β) :
    unexpected span >>= next = unexpected span := rfl

/-- The items of a list are read one by one. -/
theorem itemsWithin_eq : itemsWithin budget ts =
    ts.mapM fun item => charge budget item.span fun budget => exprWithin budget item := by
  induction ts with
  | nil => simp only [itemsWithin, List.mapM_nil]
  | cons item rest ih => simp only [itemsWithin, List.mapM_cons, ih]

/-- The entries of a dictionary are read one by one, their keys as expressions. -/
theorem entriesWithin_eq : entriesWithin budget ts =
    ts.mapM (entryWithin budget .dictEntry fun key =>
      charge budget key.span fun budget => exprWithin budget key) := by
  induction ts with
  | nil => simp only [entriesWithin, List.mapM_nil]
  | cons entry rest ih =>
    obtain ⟨tag, span, excerpt, parts⟩ := entry
    rw [List.mapM_cons, ← ih, entriesWithin.eq_def]
    dsimp only
    split
    · simp [entryWithin, children, label]
    · rw [entryWithin_of_ne ‹_›, unexpected_bind]

/-- The entries of a literal dictionary are read one by one, their keys as they stand. -/
theorem literalEntriesWithin_eq : literalEntriesWithin budget ts =
    ts.mapM (entryWithin budget .literalDictEntry literalKey) := by
  induction ts with
  | nil => simp only [literalEntriesWithin, List.mapM_nil]
  | cons entry rest ih =>
    obtain ⟨tag, span, excerpt, parts⟩ := entry
    rw [List.mapM_cons, ← ih, literalEntriesWithin.eq_def]
    dsimp only
    split
    · simp [entryWithin, literalKey, children, label]
    · rw [entryWithin_of_ne ‹_›, unexpected_bind]

/-- What is made of the operand to the left of an operator, of all that has been folded up to it, of
the operator and of the operand behind it. -/
abbrev RunStep := Tree Tag → Expr Span → Tree Tag → Tree Tag → Except Error (Expr Span)

/-- The rest of a run behind its operand `last`, folded to the left by steps. -/
def runFrom (step : RunStep) (span : Span) (last : Tree Tag) (left : Expr Span) :
    List (Tree Tag) → Except Error (Expr Span)
  | [] => return left
  | [_] => unexpected span
  | op :: operand :: rest => do
    let joined ← step last left op operand
    runFrom step span operand joined rest

/-- A run of operands and operators, folded to the left by steps. -/
def runWithin (budget : Nat) (step : RunStep) (span : Span) :
    List (Tree Tag) → Except Error (Expr Span)
  | [] => unexpected span
  | first :: rest => do
    let left ← exprWithin budget first
    runFrom step span first left rest

/-- A step of a run whose operators are looked at behind their operands. -/
def binaryStep (budget : Nat) : RunStep := fun _ left op operand => do
  let right ← exprWithin budget operand
  let op ← binaryOp op
  return .join op left right

/-- A step of an additive run under a parent with a text that begins at an offset. -/
def additiveStep (budget origin : Nat) (text : List Char) : RunStep := fun last left op operand => do
  expect .operator op
  let tight := !blankAmong origin text [last, op, operand]
  let right ← exprWithin budget operand
  applyAdditive tight op left right (Text.trim operand.text)

/-- Operators that are folded with no regard to blanks are folded by steps for which the operand in
front of an operator does not count. -/
theorem binaryFrom_eq (last : Tree Tag) : binaryFrom budget span left ts =
    runFrom (binaryStep budget) span last left ts := by
  induction last, left, ts using runFrom.induct with
  | case1 last left => simp only [binaryFrom, runFrom]
  | case2 last left op => simp only [binaryFrom, runFrom]
  | case3 last left op operand rest ih =>
    simp only [binaryFrom, runFrom, binaryStep, bind_assoc, pure_bind, ih]

/-- So are whole runs of such operators. -/
theorem binaryWithin_eq :
    binaryWithin budget span ts = runWithin budget (binaryStep budget) span ts := by
  cases ts with
  | nil => simp only [binaryWithin, runWithin]
  | cons first rest => simp only [binaryWithin, runWithin, binaryFrom_eq first]

/-- Additive operators are folded by steps that look for blanks from the start of the whole run. -/
theorem additiveFrom_eq : additiveFrom budget span text last left ts =
    runFrom (additiveStep budget span.start text) span last left ts := by
  induction last, left, ts using runFrom.induct with
  | case1 last left => simp only [additiveFrom, runFrom]
  | case2 last left op => simp only [additiveFrom, runFrom]
  | case3 last left op operand rest ih =>
    simp only [additiveFrom, runFrom, additiveStep, bind_assoc, ih]

/-- So are whole additive runs. -/
theorem additiveWithin_eq : additiveWithin budget span text ts =
    runWithin budget (additiveStep budget span.start text) span ts := by
  cases ts with
  | nil => simp only [additiveWithin, runWithin]
  | cons first rest => simp only [additiveWithin, runWithin, additiveFrom_eq]

/-- A lambda and the arguments behind it. What is no lambda is refused over a span. -/
def calledLambda (budget : Nat) (span : Span) (lambda args : Tree Tag) :
    Except Error (Expr Span × List (Expr Span)) :=
  if lambda.label = .lambda then do
    let callee ← lambdaWithin budget lambda.span lambda.children
    if args.label = .callArgs then return (callee, ← argsWithin budget args.children)
    else unexpected args.span
  else unexpected span

/-- What is made of a lambda and its arguments may as well be made of both together. -/
theorem bind_calledLambda {α : Type} (lambda args : Tree Tag)
    (f : Expr Span → List (Expr Span) → α) :
    (if lambda.label = .lambda then do
      let callee ← lambdaWithin budget lambda.span lambda.children
      if args.label = .callArgs then return f callee (← argsWithin budget args.children)
      else unexpected args.span
    else unexpected span) =
      calledLambda budget span lambda args >>= fun called => pure (f called.1 called.2) := by
  unfold calledLambda
  split
  · rw [bind_assoc]
    refine bind_congr fun callee => ?_
    split
    · rw [bind_assoc]
      rfl
    · rfl
  · rfl

/-- A lambda that is called where it stands is refused over its own span if it is none. -/
theorem lambdaExprWithin_pair : lambdaExprWithin budget span [lambda, args] =
    calledLambda budget lambda.span lambda args >>= fun called =>
      pure (.lambdaCall span called.1 called.2) := by
  obtain ⟨tag, lambdaSpan, excerpt, parts⟩ := lambda
  obtain ⟨argsTag, argsSpan, argsExcerpt, slots⟩ := args
  rw [lambdaExprWithin]
  exact bind_calledLambda (node tag lambdaSpan excerpt parts)
    (node argsTag argsSpan argsExcerpt slots) fun callee args => Expr.lambdaCall span callee args

/-- A lambda that is called as a method is refused over the span of the call if it is none. -/
theorem methodCallWithin_pair : methodCallWithin budget span whole receiver [lambda, args] =
    calledLambda budget span lambda args >>= fun called =>
      pure (.lambdaCall whole called.1 (receiver :: called.2)) := by
  obtain ⟨tag, lambdaSpan, excerpt, parts⟩ := lambda
  obtain ⟨argsTag, argsSpan, argsExcerpt, slots⟩ := args
  rw [methodCallWithin]
  exact bind_calledLambda (node tag lambdaSpan excerpt parts)
    (node argsTag argsSpan argsExcerpt slots) fun callee args =>
      Expr.lambdaCall whole callee (receiver :: args)

end Vimscript.Tree
