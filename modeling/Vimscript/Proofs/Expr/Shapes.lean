import Vimscript.Proofs.Expr.Yields
import Vimscript.Proofs.Grammar.Shape

/-!
# The shapes of trees that are read

Trees need not come from the grammar: any tag can stand anywhere, with any children and any text.
Every node that reading a tree has to look at has a shape that its tag asks for, told by its own
text and by the tags of its children. A tree is sound if all these nodes have their shapes. What
reads a token checks it, and what reads operators knows them from their table.
-/

namespace Vimscript

/-- Nodes that an expression can be made of by themselves. -/
def Tag.standsAlone : Tag → Bool
  | root | conditional | logicalOr | logicalAnd | comparison | additive | multiplicative | unary
  | postfixed | primary | integer | float | string | list | dict | literalDict | lambdaExpr | lambda
  | functionCall | variableRef | optionRef | envVariable | register => true
  | _ => false

/-- Nodes below which nothing is looked at: their text says it all, or nothing has to be said. -/
def Tag.isLeaf : Tag → Bool
  | operator | name | scope | coalesce | sliceSeparator | literalDictKey | register | integer | float
  | string | blob => true
  | _ => false

namespace Tree

/-- The children of a node that reading it looks at. The end of input below a root and what stands
behind the first child of an argument are passed over. -/
def inspected : Tree Tag → List (Tree Tag)
  | node .root _ _ ts => ts.filter fun t => t.label != .endOfInput
  | node .callArg _ _ ts => ts.take 1
  | node tag _ _ ts => bif tag.isLeaf then [] else ts

/-- A node of a tree that reading the tree looks at. -/
inductive Seen (t : Tree Tag) : Tree Tag → Prop where
  | here : Seen t t
  | child {u v : Tree Tag} (h : Seen t u) (hv : v ∈ u.inspected) : Seen t v

/-- An operator token with a text in the table of binary operators. -/
def IsBinaryOperator (t : Tree Tag) : Prop :=
  t.label = .operator ∧ ∃ op, BinaryOp.ofToken? t.text = some op

/-- An operator token `!`, `-` or `+`. -/
def IsPrefix (t : Tree Tag) : Prop := t.label = .operator ∧ t.text ∈ [['!'], ['-'], ['+']]

/-- What can stand between two operands of a conditional. -/
def IsBranch (t : Tree Tag) : Prop :=
  t.label = .coalesce ∨ t.label = .ternaryThen ∧ t.children.length = 1

/-- An operand. -/
def IsOperand (t : Tree Tag) : Prop := t.label.standsAlone = true

/-- A node whose children and text are what its tag asks for. -/
def WellShaped : Tree Tag → Prop
  | node tag _ excerpt ts =>
    match tag with
    | .root => ∃ t, ts.filter (fun t => t.label != .endOfInput) = [t] ∧ t.IsOperand
    | .conditional => Alternates IsOperand IsBranch ts
    | .ternaryThen | .primary => ∃ t, ts = [t] ∧ t.IsOperand
    | .logicalOr | .logicalAnd | .comparison | .additive | .multiplicative =>
      Alternates IsOperand IsBinaryOperator ts
    | .unary => ∃ ops operand, ts = ops ++ [operand] ∧ (∀ op ∈ ops, op.IsPrefix) ∧ operand.IsOperand
    | .postfixed => ∃ first more, ts = first :: more ∧ first.IsOperand ∧
        ∀ t ∈ more, t.label = .subscript ∨ t.label = .methodCall ∨ t.label = .callArgs
    | .subscript => (∃ key, ts = [key] ∧ key.IsOperand) ∨ ∃ (lower upper : Option (Tree Tag)) (sep : _),
        ts = lower.toList ++ sep :: upper.toList ∧ sep.label = .sliceSeparator ∧
          (∀ t ∈ lower, t.IsOperand) ∧ ∀ t ∈ upper, t.IsOperand
    | .methodCall => ts.map label = [.functionCall] ∨ ts.map label = [.lambda, .callArgs]
    | .callArgs => ∀ t ∈ ts, t.label = .callArg
    | .callArg => ∀ t ∈ ts.take 1, t.IsOperand
    | .list => ∀ t ∈ ts, t.IsOperand
    | .dict => ∀ t ∈ ts, t.label = .dictEntry
    | .dictEntry => ∃ key value, ts = [key, value] ∧ key.IsOperand ∧ value.IsOperand
    | .literalDict => ∀ t ∈ ts, t.label = .literalDictEntry
    | .literalDictEntry =>
      ∃ key value, ts = [key, value] ∧ key.label = .literalDictKey ∧ value.IsOperand
    | .lambdaExpr => ts.map label = [.lambda] ∨ ts.map label = [.lambda, .callArgs]
    | .lambda => ∃ params body, ts = [params, body] ∧ params.label = .lambdaParams ∧ body.IsOperand
    | .lambdaParams => ∀ t ∈ ts, t.label = .name
    | .functionCall =>
      ts.map label = [.name, .callArgs] ∨ ts.map label = [.scope, .name, .callArgs]
    | .variableRef | .optionRef => ts.map label = [.name] ∨ ts.map label = [.scope, .name]
    | .envVariable => ts.map label = [.name]
    | .integer => ∃ value, Numeral.decode? excerpt.toList = some value
    | .float => ∃ value, Binary64.ofText? excerpt.toList = some value ∧ value.isFinite = true
    | .string => ∃ value, Text.Quoted.decode excerpt.toList = some value
    | .register => ∃ c more, excerpt.toList = '@' :: c :: more
    | .scope => ∃ s, Scope.ofText? excerpt.toList = some s
    | .operator | .name | .coalesce | .sliceSeparator | .literalDictKey => True
    | .endOfInput | .blob | .unrecognized => False

/-- A tree that is well shaped wherever reading it looks. -/
inductive Sound : Tree Tag → Prop where
  | intro {t : Tree Tag} (shape : t.WellShaped) (parts : ∀ u ∈ t.inspected, Sound u) : Sound t

variable {t u : Tree Tag} {ts : List (Tree Tag)} {tag : Tag} {span : Span} {excerpt : Excerpt}

/-- What is seen in a sound tree is sound. -/
theorem Sound.seen (h : t.Sound) (hu : t.Seen u) : u.Sound := by
  induction hu with
  | here => exact h
  | child _ hv ih =>
    cases ih with
    | intro _ parts => exact parts _ hv

/-- A sound tree is well shaped at its root. -/
theorem Sound.wellShaped (h : t.Sound) : t.WellShaped := by
  cases h with
  | intro shape => exact shape

/-- A leaf is sound if its text is. -/
theorem Sound.leaf (htag : tag.isLeaf = true) (shape : (node tag span excerpt ts).WellShaped) :
    (node tag span excerpt ts).Sound := by
  refine .intro shape fun u hu => ?_
  cases tag <;> first | (cases htag; done) | exact (List.not_mem_nil hu).elim

/-- A token that is read as it stands is sound. -/
theorem Sound.token (h : t.label ∈ [.operator, .name, .coalesce, .sliceSeparator, .literalDictKey]) :
    t.Sound := by
  obtain ⟨tag, span, excerpt, ts⟩ := t
  simp only [label, List.mem_cons, List.not_mem_nil, or_false] at h
  rcases h with rfl | rfl | rfl | rfl | rfl <;> exact .leaf rfl trivial

/-- A node with sound children is sound if its shape is right. -/
theorem Sound.of_children (shape : (node tag span excerpt ts).WellShaped)
    (parts : ∀ u ∈ ts, u.Sound) : (node tag span excerpt ts).Sound := by
  refine .intro shape fun u hu => parts u ?_
  unfold inspected at hu
  split at hu
  · rename_i heq
    cases heq
    exact List.mem_of_mem_filter hu
  · rename_i heq
    cases heq
    exact List.mem_of_mem_take hu
  · rename_i heq
    cases heq
    cases hleaf : tag.isLeaf <;> rw [hleaf] at hu
    · exact hu
    · exact (List.not_mem_nil hu).elim

/-- A sound tree that an expression can be made of by itself. -/
def Stands (t : Tree Tag) : Prop := t.IsOperand ∧ t.Sound

end Tree

/-- What holds of both kinds of an alternating list holds of all of it. -/
theorem Alternates.forall_mem {α : Type} {p q r : α → Prop} {as : List α} (h : Alternates p q as)
    (hp : ∀ a, p a → r a) (hq : ∀ a, q a → r a) : ∀ a ∈ as, r a := by
  induction h with
  | one h => exact List.forall_mem_singleton.mpr (hp _ h)
  | more h hlink _ ih =>
    exact List.forall_mem_cons.mpr ⟨hp _ h, List.forall_mem_cons.mpr ⟨hq _ hlink, ih⟩⟩

/-- Only three texts name a prefix operator. -/
theorem UnaryOp.ofToken?_mem {token : List Char} {op : UnaryOp} (h : ofToken? token = some op) :
    token ∈ [['!'], ['-'], ['+']] := by
  have := List.find?_some h
  rw [beq_iff_eq.mp this]
  cases op <;> decide

namespace Tree

variable {t : Tree Tag} {ts : List (Tree Tag)} {span : Span} {excerpt : Excerpt}

/-- What is read as a binary operator is one. -/
theorem binaryOp_checks (t : Tree Tag) : Yields (fun _ => t.IsBinaryOperator) (binaryOp t) := by
  unfold binaryOp
  refine (Yields.expect .operator t).bind fun _ hlabel => ?_
  split
  · exact ⟨hlabel, _, ‹_›⟩
  · exact trivial

/-- What is applied as a prefix operator is one. -/
theorem applyUnary_checks (t : Tree Tag) (operand : Expr Span) :
    Yields (fun _ => t.IsPrefix) (applyUnary t operand) := by
  unfold applyUnary
  refine (Yields.expect .operator t).bind fun _ hlabel => ?_
  split
  · exact ⟨hlabel, UnaryOp.ofToken?_mem ‹_›⟩
  · exact trivial

/-- A point or a dash that is not looked up has a text in the table all the same. -/
theorem applyAdditive_checks {tight : Bool} {left right : Expr Span} {text : List Char}
    (h : t.label = .operator) :
    Yields (fun _ => t.IsBinaryOperator) (applyAdditive tight t left right text) := by
  have hplain : Yields (fun _ => t.IsBinaryOperator)
      ((binaryOp t).map fun op => Expr.join op left right) :=
    (binaryOp_checks t).map fun _ ht => ht
  unfold applyAdditive
  dsimp only
  split
  · rename_i hpoint
    exact ⟨h, .concat, by rw [hpoint.2.1]; decide⟩
  · split
    · rename_i hdash
      split
      · exact ⟨h, .subtract, by rw [hdash.2.1]; decide⟩
      · exact hplain
    · exact hplain

/-- What is read as a scope is one. -/
theorem scopeOf_checks (t : Tree Tag) : Yields (fun _ => t.label = .scope ∧ t.Sound) (scopeOf t) := by
  unfold scopeOf
  refine (Yields.expect .scope t).bind fun _ hlabel => ?_
  split
  · rename_i scope hscope
    obtain ⟨tag, span, excerpt, ts⟩ := t
    obtain rfl : tag = .scope := hlabel
    exact ⟨rfl, .leaf rfl ⟨scope, hscope⟩⟩
  · exact trivial

/-- What is read as a name is one. -/
theorem nameOf_checks (t : Tree Tag) : Yields (fun _ => t.label = .name ∧ t.Sound) (nameOf t) := by
  unfold nameOf
  exact (Yields.expect .name t).bind fun _ hlabel => ⟨hlabel, .token (by simp [hlabel])⟩

/-- The children of a reference that has a scope or none. -/
theorem scopedName_checks (span : Span) (ts : List (Tree Tag)) :
    Yields (fun _ => (ts.map label = [.name] ∨ ts.map label = [.scope, .name]) ∧ ∀ t ∈ ts, t.Sound)
      (scopedName span ts) := by
  unfold scopedName
  split
  · exact (nameOf_checks _).bind fun _ hname =>
      ⟨.inl (by simp [hname.1]), by simpa using hname.2⟩
  · refine (scopeOf_checks _).bind fun _ hscope => ?_
    exact (nameOf_checks _).bind fun _ hname =>
      ⟨.inr (by simp [hscope.1, hname.1]), by simpa using ⟨hscope.2, hname.2⟩⟩
  · exact trivial

/-- What is read as parameters is a node of names. -/
theorem paramNames_checks (t : Tree Tag) :
    Yields (fun _ => t.label = .lambdaParams ∧ t.Sound) (paramNames t) := by
  unfold paramNames
  refine (Yields.expect .lambdaParams t).bind fun _ hlabel => ?_
  obtain ⟨tag, span, excerpt, ts⟩ := t
  obtain rfl : tag = .lambdaParams := hlabel
  exact (Yields.mapM_checks fun t (_ : t ∈ ts) => nameOf_checks t).mono fun _ hts =>
    ⟨rfl, .of_children (fun t ht => (hts t ht).1) fun t ht => (hts t ht).2⟩

end Tree

end Vimscript
