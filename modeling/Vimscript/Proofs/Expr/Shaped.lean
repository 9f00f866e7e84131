import Vimscript.Proofs.Expr.Shapes

/-!
# Trees that are read are well shaped

Every node that reading a tree has to look at is checked on the way, so a tree from which an
expression is made has the right shape throughout. No operator is passed over with a text that is
none, no child is left out, and no operand that is replaced later is let off its own check. The main
result is `Tree.toExpr_wellShaped`.
-/

namespace Vimscript

/-- The trees below a size that an expression is made of are sound operands. -/
def StandsBelow (size : Nat) : Prop :=
  ∀ t : Tree Tag, sizeOf t < size → ∀ budget, Yields (fun _ => t.Stands) (t.exprWithin budget)

namespace StandsBelow

open Vimscript.Tree

variable {size budget : Nat} (below : StandsBelow size) {span whole : Span} {excerpt : Excerpt}
  {t : Tree Tag} {ts : List (Tree Tag)} {base : Expr Span}

include below

/-- A level inside another stands by itself. -/
theorem charge (ht : sizeOf t < size) :
    Yields (fun _ => t.Stands) (Tree.charge budget t.span fun b => t.exprWithin b) :=
  .charge fun budget => below t ht budget

/-- What is read as a conditional alternates between operands and branches. -/
theorem conditionalWithin (hn : sizeOf ts ≤ size) :
    Yields (fun _ => Alternates Stands (fun t => t.IsBranch ∧ t.Sound) ts)
      (conditionalWithin budget span ts) := by
  induction hlength : ts.length using Nat.strongRecOn generalizing ts with
  | ind length ih => ?_
  match ts with
  | [] => exact trivial
  | [operand] =>
    simp only [Tree.conditionalWithin]
    exact (below operand (by simp at hn; omega) budget).mono fun _ h => .one h
  | operand :: .node tag branchSpan excerpt parts :: rest =>
    simp only [List.cons.sizeOf_spec, Tree.node.sizeOf_spec] at hn
    rw [Tree.conditionalWithin]
    refine (below operand (by omega) budget).bind fun _ hleft => ?_
    have hright := ih rest.length (by simp at hlength; omega) (by omega) rfl
    split
    · exact hright.bind fun _ hright =>
        .more hleft ⟨.inl rfl, .token (by simp [label])⟩ hright
    · rename_i branch
      simp only [List.cons.sizeOf_spec] at hn
      refine (below.charge (by omega)).bind fun _ hbranch => hright.bind fun _ hright => ?_
      exact .more hleft ⟨.inr ⟨rfl, rfl⟩, .of_children ⟨branch, rfl, hbranch.1⟩
        (List.forall_mem_singleton.mpr hbranch.2)⟩ hright
    · exact trivial

/-- The nodes of a run alternate, if each step lets an operator pass and the operand behind it. -/
theorem runWithin {step : RunStep} (hn : sizeOf ts ≤ size)
    (hstep : ∀ {last op operand left}, sizeOf operand < size →
      Yields (fun _ => op.IsBinaryOperator ∧ operand.Stands) (step last left op operand)) :
    Yields (fun _ => Alternates Stands IsBinaryOperator ts) (runWithin budget step span ts) := by
  cases ts with
  | nil => exact trivial
  | cons first rest =>
    rw [List.cons.sizeOf_spec] at hn
    rw [Tree.runWithin]
    refine (below first (by omega) budget).bind fun _ hfirst => ?_
    refine Yields.runFrom (fun last _ more => sizeOf more ≤ size ∧ last.Stands ∧
      (Alternates Stands IsBinaryOperator (last :: more) →
        Alternates Stands IsBinaryOperator (first :: rest))) ?_ ?_ ⟨by omega, hfirst, id⟩
    · rintro last left op operand more ⟨hn, hlast, hall⟩
      simp only [List.cons.sizeOf_spec] at hn
      exact (hstep (by omega)).mono fun _ hpair =>
        ⟨by omega, hpair.2, fun hmore => hall (.more hlast hpair.1 hmore)⟩
    · rintro last left ⟨-, hlast, hall⟩
      exact hall (.one hlast)

/-- What is read as a run of operators alternates between operands and operators. -/
theorem binaryWithin (hn : sizeOf ts ≤ size) :
    Yields (fun _ => Alternates Stands IsBinaryOperator ts) (binaryWithin budget span ts) := by
  rw [binaryWithin_eq]
  refine below.runWithin hn fun ht => (below _ ht budget).bind fun _ hoperand => ?_
  exact (binaryOp_checks _).bind fun _ hop => ⟨hop, hoperand⟩

/-- The operator is looked at in front of its operand, and what is made of both behind it. -/
theorem additiveWithin {text : List Char} (hn : sizeOf ts ≤ size) :
    Yields (fun _ => Alternates Stands IsBinaryOperator ts)
      (additiveWithin budget span text ts) := by
  rw [additiveWithin_eq]
  refine below.runWithin hn fun ht => (Yields.expect .operator _).bind fun _ hlabel => ?_
  refine (below _ ht budget).bind fun _ hoperand => ?_
  exact (applyAdditive_checks hlabel).mono fun _ hop => ⟨hop, hoperand⟩

/-- Prefix operators stand in front of a single operand. -/
theorem unaryWithin (hn : sizeOf ts ≤ size) :
    Yields (fun _ => ∃ ops operand, ts = ops ++ [operand] ∧ (∀ op ∈ ops, op.IsPrefix) ∧
      operand.Stands) (unaryWithin budget span ts) := by
  induction ts with
  | nil => exact trivial
  | cons op rest ih =>
    rw [List.cons.sizeOf_spec] at hn
    cases rest with
    | nil =>
      simp only [Tree.unaryWithin]
      exact (below op (by simp at hn; omega) budget).mono fun _ h =>
        ⟨[], op, rfl, fun _ h => (List.not_mem_nil h).elim, h⟩
    | cons next rest =>
      simp only [Tree.unaryWithin]
      refine (ih (by omega)).bind fun inner hinner => ?_
      obtain ⟨ops, operand, hts, hops, hoperand⟩ := hinner
      exact (applyUnary_checks op inner).mono fun _ hop =>
        ⟨op :: ops, operand, congrArg (op :: ·) hts, List.forall_mem_cons.mpr ⟨hop, hops⟩, hoperand⟩

/-- Arguments have places of their own, each of which is sound. -/
theorem argsWithin (hn : sizeOf ts ≤ size) :
    Yields (fun _ => ∀ t ∈ ts, t.label = .callArg ∧ t.Sound) (argsWithin budget ts) := by
  induction ts with
  | nil => exact fun t ht => (List.not_mem_nil ht).elim
  | cons t rest ih =>
    obtain ⟨tag, slotSpan, excerpt, parts⟩ := t
    rw [List.cons.sizeOf_spec, Tree.node.sizeOf_spec] at hn
    have hrest := ih (by omega)
    cases parts with
    | nil =>
      rw [Tree.argsWithin]
      split
      · rename_i htag
        subst htag
        refine hrest.mono fun _ hrest => List.forall_mem_cons.mpr ⟨⟨rfl, ?_⟩, hrest⟩
        exact .of_children (fun _ h => (List.not_mem_nil h).elim) fun _ h =>
          (List.not_mem_nil h).elim
      · exact trivial
    | cons part more =>
      rw [List.cons.sizeOf_spec] at hn
      rw [Tree.argsWithin]
      split
      · rename_i htag
        subst htag
        refine (below.charge (by omega)).bind fun _ hpart => hrest.bind fun _ hrest => ?_
        refine List.forall_mem_cons.mpr ⟨⟨rfl, ?_⟩, hrest⟩
        exact .intro (List.forall_mem_singleton.mpr hpart.1)
          (List.forall_mem_singleton.mpr hpart.2)
      · exact trivial

/-- Items stand by themselves. -/
theorem itemsWithin (hn : sizeOf ts ≤ size) :
    Yields (fun _ => ∀ t ∈ ts, t.Stands) (itemsWithin budget ts) := by
  rw [itemsWithin_eq]
  exact Yields.mapM_checks fun t ht =>
    below.charge (Nat.lt_of_lt_of_le (List.sizeOf_lt_of_mem ht) hn)

/-- Entries have their tag, and are sound if what is read of their keys makes them so. -/
theorem entries {tag : Tag} {readKey : Tree Tag → Except Error (Expr Span)} {p : Tree Tag → Prop}
    (hn : sizeOf ts ≤ size) (hkey : ∀ key : Tree Tag, sizeOf key < size →
      Yields (fun _ => p key) (readKey key))
    (hsound : ∀ {span excerpt key value}, p key → value.Stands →
      (node tag span excerpt [key, value]).Sound) :
    Yields (fun _ => ∀ t ∈ ts, t.label = tag ∧ t.Sound)
      (ts.mapM (entryWithin budget tag readKey)) := by
  refine Yields.mapM_checks fun t ht => Yields.entryWithin fun key value htag hchildren => ?_
  have hpart {part : Tree Tag} (hpart : part ∈ t.children) : sizeOf part < size := by
    have := List.sizeOf_lt_of_mem hpart
    have := sizeOf_children_lt ht
    omega
  refine (hkey key (hpart (by simp [hchildren]))).mono fun _ hkey => ?_
  refine (below.charge (hpart (by simp [hchildren]))).mono fun _ hvalue => ⟨htag, ?_⟩
  obtain ⟨_, entrySpan, excerpt, parts⟩ := t
  obtain rfl : parts = [key, value] := hchildren
  obtain rfl := htag
  exact hsound hkey hvalue

/-- Entries are sound. -/
theorem entriesWithin (hn : sizeOf ts ≤ size) :
    Yields (fun _ => ∀ t ∈ ts, t.label = .dictEntry ∧ t.Sound) (entriesWithin budget ts) := by
  rw [entriesWithin_eq]
  exact below.entries hn (fun key => below.charge) fun hkey hvalue =>
    .of_children ⟨_, _, rfl, hkey.1, hvalue.1⟩
      (List.forall_mem_cons.mpr ⟨hkey.2, List.forall_mem_singleton.mpr hvalue.2⟩)

/-- So are literal entries. -/
theorem literalEntriesWithin (hn : sizeOf ts ≤ size) :
    Yields (fun _ => ∀ t ∈ ts, t.label = .literalDictEntry ∧ t.Sound)
      (literalEntriesWithin budget ts) := by
  rw [literalEntriesWithin_eq]
  have hliteral (key : Tree Tag) : Yields (fun _ => key.label = .literalDictKey) (literalKey key) :=
    (Yields.expect .literalDictKey key).bind fun _ hlabel => hlabel
  exact below.entries hn (fun key _ => hliteral key) fun hkey hvalue =>
    .of_children ⟨_, _, rfl, hkey, hvalue.1⟩ (List.forall_mem_cons.mpr
      ⟨.token (by simp [hkey]), List.forall_mem_singleton.mpr hvalue.2⟩)

/-- The list of arguments of a call. -/
theorem slots (hn : sizeOf ts ≤ size) :
    Yields (fun _ => ∀ span excerpt, (node .callArgs span excerpt ts).Sound)
      (Tree.argsWithin budget ts) :=
  (below.argsWithin hn).mono fun _ hts _ _ =>
    .of_children (fun t ht => (hts t ht).1) fun t ht => (hts t ht).2

/-- What is read as a lambda is one. -/
theorem lambdaWithin (hn : sizeOf ts ≤ size) :
    Yields (fun _ => ∀ span excerpt, (node .lambda span excerpt ts).Sound)
      (lambdaWithin budget span ts) := by
  match ts with
  | [] | [_] | _ :: _ :: _ :: _ => exact trivial
  | [params, body] =>
    simp only [List.cons.sizeOf_spec] at hn
    simp only [Tree.lambdaWithin]
    refine (paramNames_checks params).bind fun _ hparams => ?_
    refine (below.charge (by omega)).bind fun _ hbody _ _ => ?_
    exact .of_children ⟨params, body, rfl, hparams.1, hbody.1⟩
      (List.forall_mem_cons.mpr ⟨hparams.2, List.forall_mem_singleton.mpr hbody.2⟩)

/-- What is read as a call by name is one. -/
theorem callPartsWithin (hn : sizeOf ts ≤ size) :
    Yields (fun _ => ∀ span excerpt, (node .functionCall span excerpt ts).Sound)
      (callPartsWithin budget span ts) := by
  unfold Tree.callPartsWithin
  split
  · rename_i name tag argsSpan argsExcerpt slots
    simp only [List.cons.sizeOf_spec, Tree.node.sizeOf_spec] at hn
    refine (nameOf_checks name).bind fun _ hname => ?_
    split
    · rename_i htag
      subst htag
      refine (below.slots (by omega)).bind fun _ hslots _ _ => ?_
      exact .of_children (.inl (by rw [List.map_cons, hname.1]; rfl)) (List.forall_mem_cons.mpr
        ⟨hname.2, List.forall_mem_singleton.mpr (hslots _ _)⟩)
    · exact trivial
  · rename_i scope name tag argsSpan argsExcerpt slots
    simp only [List.cons.sizeOf_spec, Tree.node.sizeOf_spec] at hn
    refine (scopeOf_checks scope).bind fun _ hscope => ?_
    refine (nameOf_checks name).bind fun _ hname => ?_
    split
    · rename_i htag
      subst htag
      refine (below.slots (by omega)).bind fun _ hslots _ _ => ?_
      refine .of_children (.inr ?_) (List.forall_mem_cons.mpr ⟨hscope.2,
        List.forall_mem_cons.mpr ⟨hname.2, List.forall_mem_singleton.mpr (hslots _ _)⟩⟩)
      rw [List.map_cons, List.map_cons, hscope.1, hname.1]
      rfl
    · exact trivial
  · exact trivial

/-- A lambda with arguments behind it. -/
theorem calledLambda {lambda args : Tree Tag} (hn : sizeOf [lambda, args] ≤ size) :
    Yields (fun _ => [lambda, args].map label = [.lambda, .callArgs] ∧
      ∀ t ∈ [lambda, args], t.Sound) (calledLambda budget span lambda args) := by
  obtain ⟨tag, lambdaSpan, lambdaExcerpt, parts⟩ := lambda
  obtain ⟨argsTag, argsSpan, argsExcerpt, slots⟩ := args
  simp only [List.cons.sizeOf_spec, Tree.node.sizeOf_spec] at hn
  unfold Tree.calledLambda
  split
  · rename_i htag
    obtain rfl : tag = .lambda := htag
    refine (below.lambdaWithin (by dsimp only [children]; omega)).bind fun _ hlambda => ?_
    split
    · rename_i htag
      obtain rfl : argsTag = .callArgs := htag
      refine (below.slots (by dsimp only [children]; omega)).bind fun _ hslots => ⟨rfl, ?_⟩
      exact List.forall_mem_cons.mpr ⟨hlambda _ _, List.forall_mem_singleton.mpr (hslots _ _)⟩
    · exact trivial
  · exact trivial

/-- What is read as a lambda with arguments is one. -/
theorem lambdaExprWithin (hn : sizeOf ts ≤ size) :
    Yields (fun _ => (node .lambdaExpr whole excerpt ts).Sound) (lambdaExprWithin budget span ts) := by
  match ts with
  | [] | .node _ _ _ _ :: .node _ _ _ _ :: _ :: _ => exact trivial
  | [.node tag lambdaSpan lambdaExcerpt parts] =>
    simp only [List.cons.sizeOf_spec, Tree.node.sizeOf_spec] at hn
    rw [Tree.lambdaExprWithin]
    split
    · rename_i htag
      subst htag
      exact (below.lambdaWithin (by omega)).mono fun _ hlambda =>
        .of_children (.inl rfl) (List.forall_mem_singleton.mpr (hlambda _ _))
    · exact trivial
  | [lambda, args] =>
    rw [lambdaExprWithin_pair]
    exact (below.calledLambda hn).bind fun _ hcalled => .of_children (.inr hcalled.1) hcalled.2

/-- What is read as a subscript is one. -/
theorem subscriptWithin (hn : sizeOf ts ≤ size) :
    Yields (fun _ => (node .subscript span excerpt ts).Sound)
      (subscriptWithin budget span whole base ts) := by
  have level (t : Tree Tag) (ht : t ∈ ts) :
      Yields (fun _ => t.Stands) (Tree.charge budget t.span fun budget => exprWithin budget t) :=
    below.charge (Nat.lt_of_lt_of_le (List.sizeOf_lt_of_mem ht) hn)
  -- One separator with an operand or none on either side.
  have slice (lower upper : Option (Tree Tag)) {sep : Tree Tag}
      (hts : ts = lower.toList ++ sep :: upper.toList) (hsep : sep.label = .sliceSeparator)
      (hlower : ∀ t ∈ lower, t.Stands) (hupper : ∀ t ∈ upper, t.Stands) :
      (node .subscript span excerpt ts).Sound := by
    refine .of_children (.inr ⟨lower, upper, sep, hts, hsep, fun t ht => (hlower t ht).1,
      fun t ht => (hupper t ht).1⟩) fun t ht => ?_
    rw [hts, List.mem_append, List.mem_cons, Option.mem_toList, Option.mem_toList] at ht
    rcases ht with ht | rfl | ht
    · exact (hlower t ht).2
    · exact .token (by simp [hsep])
    · exact (hupper t ht).2
  unfold Tree.subscriptWithin
  split
  · rename_i only
    split
    · exact slice none none rfl ‹_› (by simp) (by simp)
    · refine (level only (by simp)).bind fun _ hkey => ?_
      exact .of_children (.inl ⟨only, rfl, hkey.1⟩) (List.forall_mem_singleton.mpr hkey.2)
  · rename_i first second
    split
    · exact (level second (by simp)).bind fun _ hupper =>
        slice none (some second) rfl ‹_› (by simp) (by simpa using hupper)
    · split
      · exact (level first (by simp)).bind fun _ hlower =>
          slice (some first) none rfl ‹_› (by simpa using hlower) (by simp)
      · exact trivial
  · rename_i first second third
    split
    · rename_i hlabels
      refine (level first (by simp)).bind fun _ hlower => ?_
      exact (level third (by simp)).bind fun _ hupper =>
        slice (some first) (some third) rfl hlabels.2 (by simpa using hlower)
          (by simpa using hupper)
    · exact trivial
  · exact trivial

/-- What is read as a method is one. -/
theorem methodCallWithin (hn : sizeOf ts ≤ size) :
    Yields (fun _ => (node .methodCall span excerpt ts).Sound)
      (methodCallWithin budget span whole base ts) := by
  match ts with
  | [] | .node _ _ _ _ :: .node _ _ _ _ :: _ :: _ => exact trivial
  | [.node tag callSpan callExcerpt parts] =>
    simp only [List.cons.sizeOf_spec, Tree.node.sizeOf_spec] at hn
    rw [Tree.methodCallWithin]
    split
    · rename_i htag
      subst htag
      refine (below.callPartsWithin (by omega)).bind fun _ hcall => ?_
      exact .of_children (.inl rfl) (List.forall_mem_singleton.mpr (hcall _ _))
    · exact trivial
  | [lambda, args] =>
    rw [methodCallWithin_pair]
    exact (below.calledLambda hn).bind fun _ hcalled => .of_children (.inr hcalled.1) hcalled.2

/-- What is attached is a subscript, a method or arguments. -/
theorem attachedWithin (hn : sizeOf ts ≤ size) :
    Yields (fun _ => ∀ t ∈ ts,
        (t.label = .subscript ∨ t.label = .methodCall ∨ t.label = .callArgs) ∧ t.Sound)
      (attachedWithin budget base ts) := by
  induction ts generalizing base with
  | nil => exact fun t ht => (List.not_mem_nil ht).elim
  | cons t rest ih =>
    obtain ⟨tag, span, excerpt, parts⟩ := t
    rw [List.cons.sizeOf_spec, Tree.node.sizeOf_spec] at hn
    have hparts : sizeOf parts ≤ size := by omega
    have goesOn {x : Except Error (Expr Span)}
        (htag : tag = .subscript ∨ tag = .methodCall ∨ tag = .callArgs)
        (hx : Yields (fun _ => (node tag span excerpt parts).Sound) x) :
        Yields (fun _ => ∀ t ∈ node tag span excerpt parts :: rest,
            (t.label = .subscript ∨ t.label = .methodCall ∨ t.label = .callArgs) ∧ t.Sound)
          (x >>= fun attached => Tree.attachedWithin budget attached rest) :=
      hx.bind fun _ ht => (ih (by omega)).mono fun _ hrest =>
        List.forall_mem_cons.mpr ⟨⟨htag, ht⟩, hrest⟩
    rw [Tree.attachedWithin.eq_def]
    dsimp only
    split
    · exact goesOn (.inl rfl) (below.subscriptWithin hparts)
    · exact goesOn (.inr (.inl rfl)) (below.methodCallWithin hparts)
    · exact goesOn (.inr (.inr rfl)) ((below.slots hparts).map fun _ h => h _ _)
    · exact trivial

/-- What is read as a postfix node is one. -/
theorem postfixedWithin (hn : sizeOf ts ≤ size) :
    Yields (fun _ => (node .postfixed whole excerpt ts).Sound) (postfixedWithin budget span ts) := by
  cases ts with
  | nil => exact trivial
  | cons first rest =>
    rw [List.cons.sizeOf_spec] at hn
    simp only [Tree.postfixedWithin]
    refine (below first (by omega) budget).bind fun _ hfirst => ?_
    refine (below.attachedWithin (by omega)).mono fun _ hrest => ?_
    exact .of_children ⟨first, rest, rfl, hfirst.1, fun t ht => (hrest t ht).1⟩
      (List.forall_mem_cons.mpr ⟨hfirst.2, fun t ht => (hrest t ht).2⟩)

/-- A primary holds a single operand. -/
theorem primaryWithin (hn : sizeOf ts ≤ size) :
    Yields (fun _ => ∃ t, ts = [t] ∧ t.Stands) (primaryWithin budget span ts) := by
  unfold Tree.primaryWithin
  split
  · rename_i inner
    rw [List.cons.sizeOf_spec] at hn
    split
    · exact (below.charge (by omega)).bind fun _ hinner => ⟨inner, rfl, hinner⟩
    · exact (below inner (by omega) budget).mono fun _ hinner => ⟨inner, rfl, hinner⟩
  · exact trivial

/-- A root holds a single operand besides the end of the input. -/
theorem rootWithin (hn : sizeOf ts ≤ size) :
    Yields (fun _ => ∃ t, (ts.filter fun t => t.label != .endOfInput) = [t] ∧ t.Stands)
      (rootWithin budget span ts) := by
  induction ts with
  | nil => exact trivial
  | cons child rest ih =>
    rw [List.cons.sizeOf_spec] at hn
    rw [Tree.rootWithin]
    split
    · rename_i hend
      exact (ih (by omega)).mono fun _ ⟨t, ht, hstands⟩ => ⟨t, by simpa [hend] using ht, hstands⟩
    · rename_i hend
      split
      · rename_i hrest
        refine (below child (by omega) budget).mono fun _ hchild => ⟨child, ?_, hchild⟩
        have : (rest.filter fun t => t.label != .endOfInput) = [] := by
          simpa [List.filter_eq_nil_iff] using hrest
        simp [hend, this]
      · exact trivial

end StandsBelow

namespace Tree

/-- What an expression is made of is a sound operand, in any budget. -/
theorem exprWithin_stands (t : Tree Tag) (budget : Nat) :
    Yields (fun _ => t.Stands) (t.exprWithin budget) := by
  -- The induction is on the size of the tree, since slots and entries are no operands themselves.
  induction hsize : sizeOf t using Nat.strongRecOn generalizing t budget with
  | ind size ih => ?_
  have below : StandsBelow size := fun u hu budget => ih _ hu u budget rfl
  obtain ⟨tag, span, excerpt, ts⟩ := t
  have hn : sizeOf ts ≤ size := by
    rw [← hsize, node.sizeOf_spec]
    omega
  have run (htag : tag.standsAlone = true) {p : Tree Tag → Prop}
      (hshape : Alternates IsOperand p ts → (node tag span excerpt ts).WellShaped)
      (hp : ∀ t, p t → t.Sound) (h : Alternates Stands p ts) : (node tag span excerpt ts).Stands :=
    ⟨htag, .of_children (hshape (h.mono (fun _ _ ht => ht.1) fun _ _ ht => ht))
      (h.forall_mem (fun _ ht => ht.2) hp)⟩
  have operator (t : Tree Tag) (ht : t.IsBinaryOperator) : t.Sound := .token (by simp [ht.1])
  cases tag with
  | root =>
    rw [exprWithin]
    refine (below.rootWithin hn).mono fun _ h => ?_
    obtain ⟨t, hts, ht⟩ := h
    refine ⟨rfl, .intro ⟨t, hts, ht.1⟩ ?_⟩
    rw [inspected, hts]
    exact List.forall_mem_singleton.mpr ht.2
  | conditional =>
    rw [exprWithin]
    split
    · exact trivial
    · refine (below.conditionalWithin hn).mono fun _ h => ⟨rfl, .of_children ?_ ?_⟩
      · exact h.mono (fun _ _ ht => ht.1) fun _ _ ht => ht.1
      · exact h.forall_mem (fun _ ht => ht.2) fun _ ht => ht.2
  | logicalOr | logicalAnd | comparison | multiplicative =>
    rw [exprWithin]
    exact (below.binaryWithin hn).mono fun _ => run rfl id operator
  | additive =>
    rw [exprWithin]
    exact (below.additiveWithin hn).mono fun _ => run rfl id operator
  | unary =>
    rw [exprWithin]
    refine (below.unaryWithin hn).mono fun _ h => ?_
    obtain ⟨ops, operand, hts, hops, hoperand⟩ := h
    refine ⟨rfl, .of_children ⟨ops, operand, hts, hops, hoperand.1⟩ ?_⟩
    rw [hts]
    intro t ht
    rcases List.mem_append.mp ht with ht | ht
    · exact .token (by simp [(hops t ht).1])
    · exact List.mem_singleton.mp ht ▸ hoperand.2
  | postfixed =>
    rw [exprWithin]
    exact (below.postfixedWithin hn).mono fun _ h => ⟨rfl, h⟩
  | primary =>
    rw [exprWithin]
    refine (below.primaryWithin hn).mono fun _ h => ?_
    obtain ⟨t, hts, ht⟩ := h
    refine ⟨rfl, .of_children ⟨t, hts, ht.1⟩ ?_⟩
    exact hts ▸ List.forall_mem_singleton.mpr ht.2
  | integer =>
    rw [exprWithin, integer]
    split
    · exact ⟨rfl, .leaf rfl ⟨_, ‹_›⟩⟩
    · exact trivial
  | float =>
    rw [exprWithin, float]
    split
    · rename_i value hvalue
      obtain ⟨hvalue, hfinite⟩ := Option.filter_eq_some_iff.mp hvalue
      exact ⟨rfl, .leaf rfl ⟨value, hvalue, hfinite⟩⟩
    · exact trivial
  | string =>
    rw [exprWithin, string]
    split
    · exact ⟨rfl, .leaf rfl ⟨_, ‹_›⟩⟩
    · exact trivial
  | list =>
    rw [exprWithin]
    exact (below.itemsWithin hn).bind fun _ h =>
      ⟨rfl, .of_children (fun t ht => (h t ht).1) fun t ht => (h t ht).2⟩
  | dict =>
    rw [exprWithin]
    exact (below.entriesWithin hn).bind fun _ h =>
      ⟨rfl, .of_children (fun t ht => (h t ht).1) fun t ht => (h t ht).2⟩
  | literalDict =>
    rw [exprWithin]
    exact (below.literalEntriesWithin hn).bind fun _ h =>
      ⟨rfl, .of_children (fun t ht => (h t ht).1) fun t ht => (h t ht).2⟩
  | lambdaExpr =>
    rw [exprWithin]
    exact (below.lambdaExprWithin hn).mono fun _ h => ⟨rfl, h⟩
  | lambda =>
    rw [exprWithin]
    exact (below.lambdaWithin hn).mono fun _ h => ⟨rfl, h _ _⟩
  | functionCall =>
    rw [exprWithin]
    exact (below.callPartsWithin hn).bind fun _ h => ⟨rfl, h _ _⟩
  | variableRef | optionRef =>
    rw [exprWithin]
    exact (scopedName_checks span ts).bind fun _ h => ⟨rfl, .of_children h.1 h.2⟩
  | envVariable =>
    rw [exprWithin.eq_def]
    dsimp only
    split
    · exact (nameOf_checks _).bind fun _ h =>
        ⟨rfl, .of_children (congrArg (fun tag => [tag]) h.1) (List.forall_mem_singleton.mpr h.2)⟩
    · exact trivial
  | register =>
    rw [exprWithin, register.eq_def]
    split
    · exact ⟨rfl, .leaf rfl ⟨_, _, ‹_›⟩⟩
    · exact trivial
  | _ => exact trivial

/-- A tree that an expression is made of can stand for one by itself, and it is well shaped
wherever reading it looks. -/
theorem toExpr_wellShaped {budget : Nat} {t : Tree Tag} {e : Expr Span}
    (h : t.toExpr budget = .ok e) : t.IsOperand ∧ ∀ u, t.Seen u → u.WellShaped := by
  have hstands : Yields (fun _ => t.Stands) (t.toExpr budget) :=
    .charge fun budget => exprWithin_stands t budget
  rw [h] at hstands
  exact ⟨hstands.1, fun u hu => (hstands.2.seen hu).wellShaped⟩

/-- No source has a number called as it stands, with a blob behind the argument in its slot. The
blob is not seen, and everything else is as it should be. -/
theorem toExpr_wellShaped_number :
    let slot := node .callArg ⟨2, 3⟩ (.ofList ['2'])
      [node .integer ⟨2, 3⟩ (.ofList ['2']) [], node .blob ⟨3, 3⟩ (.ofList []) []]
    let t := node .postfixed ⟨0, 4⟩ (.ofList "1(2)".toList)
      [node .integer ⟨0, 1⟩ (.ofList ['1']) [], node .callArgs ⟨1, 4⟩ (.ofList "(2)".toList) [slot]]
    (t.toExpr 2).isOk = true ∧ t.Seen slot ∧ ∀ u, t.Seen u → u.WellShaped := by
  intro slot t
  have hok : (t.toExpr 2).isOk = true := by decide +kernel
  refine ⟨hok, .child (.child .here (.tail _ (.head _))) (.head _), ?_⟩
  cases h : t.toExpr 2 with
  | error error =>
    rw [h] at hok
    cases hok
  | ok e => exact (toExpr_wellShaped h).2

end Tree

end Vimscript
