import Vimscript.Proofs.Expr.Likeness

/-!
# Trees that read alike give results that agree

What is attached behind a primary is read alike if the parts and the bases are alike, and so is
every node and with it every tree. The main result is `Likeness.exprWithin`.
-/

namespace Vimscript

namespace Likeness

variable {Mark : Type} {k : Likeness Mark} {t t' : Tree Tag} {ts ts' : List (Tree Tag)}
  {span span' : Span}

section

variable {n b b' : Nat} (below : k.AgreesBelow n) (hb : k.Budgets b b')

include below hb

/-- Methods agree if they are called on bases that agree, by name or as lambdas. -/
theorem AgreesBelow.methodCallWithin {whole whole' : Span} {e e' : Expr Span}
    (he : k.Exprs e e') (hwhole : k.left whole = k.right whole') (hn : sizeOf ts ≤ n)
    (h : k.Forest ts ts') (hspan : k.left span = k.right span') :
    k.Results k.Exprs (Tree.methodCallWithin b span whole e ts)
      (Tree.methodCallWithin b' span' whole' e' ts') := by
  match ts with
  | [] =>
    obtain rfl := h.nil_left
    exact .unexpected hspan
  | [.node tag callSpan excerpt parts] =>
    obtain ⟨⟨tag', callSpan', excerpt', parts'⟩, _, rfl, hcall, hnil⟩ := h.cons_left
    obtain rfl := hnil.nil_left
    obtain ⟨rfl, hcallSpan, -, -, -, hparts⟩ := hcall
    simp only [List.cons.sizeOf_spec, Tree.node.sizeOf_spec] at hn
    rw [Tree.methodCallWithin, Tree.methodCallWithin]
    split
    · refine (below.callPartsWithin hb (by omega) hparts hcallSpan).bind ?_
      rintro ⟨scope, name, args⟩ ⟨_, _, args'⟩ ⟨rfl, rfl, hargs⟩
      refine .pure ?_
      simp only [Exprs, Expr.map, Expr.mapItems, hwhole, he.map_eq,
        show Expr.mapItems _ args = _ from hargs]
    · exact .unexpected hspan
  | [lambda, args] =>
    obtain ⟨lambda', _, rfl, hlambda, h⟩ := h.cons_left
    obtain ⟨args', _, rfl, hargs, hnil⟩ := h.cons_left
    obtain rfl := hnil.nil_left
    rw [Tree.methodCallWithin_pair, Tree.methodCallWithin_pair]
    refine (below.calledLambda hb hn hlambda hargs hspan).bind fun called called' hcalled => ?_
    refine .pure ?_
    simp only [Exprs, Expr.map, Expr.mapItems, hwhole, he.map_eq, hcalled.1.map_eq,
      show Expr.mapItems _ called.2 = _ from hcalled.2]
  | _ :: _ :: _ :: _ =>
    obtain ⟨_, _, rfl, -, h⟩ := h.cons_left
    obtain ⟨_, _, rfl, -, h⟩ := h.cons_left
    obtain ⟨_, _, rfl, -, h⟩ := h.cons_left
    rw [Tree.methodCallWithin, Tree.methodCallWithin]
    · exact .unexpected hspan
    all_goals simp

/-- Subscripts agree: a single part is a key, and a separator makes a slice. -/
theorem AgreesBelow.subscriptWithin {whole whole' : Span} {e e' : Expr Span}
    (he : k.Exprs e e') (hwhole : k.left whole = k.right whole') (hn : sizeOf ts ≤ n)
    (h : k.Forest ts ts') (hspan : k.left span = k.right span') :
    k.Results k.Exprs (Tree.subscriptWithin b span whole e ts)
      (Tree.subscriptWithin b' span' whole' e' ts') := by
  match ts with
  | [] =>
    obtain rfl := h.nil_left
    exact .unexpected hspan
  | [only] =>
    obtain ⟨only', _, rfl, honly, hnil⟩ := h.cons_left
    obtain rfl := hnil.nil_left
    simp only [List.cons.sizeOf_spec] at hn
    rw [Tree.subscriptWithin, Tree.subscriptWithin, ← honly.label]
    split
    · refine .pure ?_
      simp only [Exprs, Expr.map, Expr.mapBound, hwhole, he.map_eq]
    · refine (below.charge hb (by omega) honly).bind fun key key' hkey => .pure ?_
      simp only [Exprs, Expr.map, hwhole, he.map_eq, hkey.map_eq]
  | [first, second] =>
    obtain ⟨first', _, rfl, hfirst, h⟩ := h.cons_left
    obtain ⟨second', _, rfl, hsecond, hnil⟩ := h.cons_left
    obtain rfl := hnil.nil_left
    simp only [List.cons.sizeOf_spec] at hn
    rw [Tree.subscriptWithin, Tree.subscriptWithin, ← hfirst.label, ← hsecond.label]
    split
    · refine (below.charge hb (by omega) hsecond).bind fun upper upper' hupper => .pure ?_
      simp only [Exprs, Expr.map, Expr.mapBound, hwhole, he.map_eq, hupper.map_eq]
    · split
      · refine (below.charge hb (by omega) hfirst).bind fun lower lower' hlower => .pure ?_
        simp only [Exprs, Expr.map, Expr.mapBound, hwhole, he.map_eq, hlower.map_eq]
      · exact .unexpected hspan
  | [first, second, third] =>
    obtain ⟨first', _, rfl, hfirst, h⟩ := h.cons_left
    obtain ⟨second', _, rfl, hsecond, h⟩ := h.cons_left
    obtain ⟨third', _, rfl, hthird, hnil⟩ := h.cons_left
    obtain rfl := hnil.nil_left
    simp only [List.cons.sizeOf_spec] at hn
    rw [Tree.subscriptWithin, Tree.subscriptWithin, ← hfirst.label, ← hsecond.label]
    split
    · refine (below.charge hb (by omega) hfirst).bind fun lower lower' hlower => ?_
      refine (below.charge hb (by omega) hthird).bind fun upper upper' hupper => .pure ?_
      simp only [Exprs, Expr.map, Expr.mapBound, hwhole, he.map_eq, hlower.map_eq, hupper.map_eq]
    · exact .unexpected hspan
  | _ :: _ :: _ :: _ :: _ =>
    obtain ⟨_, _, rfl, -, h⟩ := h.cons_left
    obtain ⟨_, _, rfl, -, h⟩ := h.cons_left
    obtain ⟨_, _, rfl, -, h⟩ := h.cons_left
    obtain ⟨_, _, rfl, -, h⟩ := h.cons_left
    rw [Tree.subscriptWithin, Tree.subscriptWithin]
    · exact .unexpected hspan
    all_goals simp

/-- What is attached to a base is read on top of what was attached before. -/
theorem AgreesBelow.attachedWithin {e e' : Expr Span} (he : k.Exprs e e') (hn : sizeOf ts ≤ n)
    (h : k.Forest ts ts') :
    k.Results k.Exprs (Tree.attachedWithin b e ts) (Tree.attachedWithin b' e' ts') := by
  induction ts generalizing ts' e e' with
  | nil =>
    obtain rfl := h.nil_left
    simp only [Tree.attachedWithin]
    exact .pure he
  | cons node rest ih =>
    obtain ⟨⟨tag', span', excerpt', parts'⟩, rest', rfl, hnode, hrest⟩ := h.cons_left
    obtain ⟨tag, span, excerpt, parts⟩ := node
    obtain ⟨rfl, hspan, -, -, -, hparts⟩ := hnode
    simp only [List.cons.sizeOf_spec, Tree.node.sizeOf_spec] at hn
    have hwhole := k.merge he.mark hspan
    rw [Tree.attachedWithin.eq_def, Tree.attachedWithin.eq_def b']
    dsimp only
    have next (a a' : Expr Span) (ha : k.Exprs a a') := ih ha (by omega) hrest
    split
    · exact (below.subscriptWithin hb he hwhole (by omega) hparts hspan).bind next
    · exact (below.methodCallWithin hb he hwhole (by omega) hparts hspan).bind next
    · refine ((below.argsWithin hb (by omega) hparts).map fun args args' hargs => ?_).bind next
      exact Exprs.callOf hwhole he hargs
    · exact (Results.unexpected hspan).bind next

/-- The first part of a postfix node is its base. -/
theorem AgreesBelow.postfixedWithin (hn : sizeOf ts ≤ n) (h : k.Forest ts ts')
    (hspan : k.left span = k.right span') :
    k.Results k.Exprs (Tree.postfixedWithin b span ts) (Tree.postfixedWithin b' span' ts') := by
  cases ts with
  | nil =>
    obtain rfl := h.nil_left
    simp only [Tree.postfixedWithin]
    exact .unexpected hspan
  | cons first rest =>
    obtain ⟨first', rest', rfl, hfirst, hrest⟩ := h.cons_left
    rw [List.cons.sizeOf_spec] at hn
    simp only [Tree.postfixedWithin]
    exact (below _ _ _ _ (by omega) hfirst hb).bind fun base base' hbase =>
      below.attachedWithin hb hbase (by omega) hrest

/-- Parentheses give their span to what stands between them. -/
theorem AgreesBelow.primaryWithin (hn : sizeOf ts ≤ n) (h : k.Forest ts ts')
    (hspan : k.left span = k.right span') :
    k.Results k.Exprs (Tree.primaryWithin b span ts) (Tree.primaryWithin b' span' ts') := by
  match ts with
  | [] =>
    obtain rfl := h.nil_left
    exact .unexpected hspan
  | [inner] =>
    obtain ⟨inner', _, rfl, hinner, hnil⟩ := h.cons_left
    obtain rfl := hnil.nil_left
    simp only [List.cons.sizeOf_spec] at hn
    rw [Tree.primaryWithin, Tree.primaryWithin, ← hinner.label]
    split
    · exact (below.charge hb (by omega) hinner).bind fun e e' he => .pure (he.withMark hspan)
    · exact below _ _ _ _ (by omega) hinner hb
  | _ :: _ :: _ =>
    obtain ⟨_, _, rfl, -, h⟩ := h.cons_left
    obtain ⟨_, _, rfl, -, h⟩ := h.cons_left
    rw [Tree.primaryWithin, Tree.primaryWithin]
    · exact .unexpected hspan
    all_goals simp

end

/-- Trees that read alike give results that agree. -/
theorem exprWithin {b b' : Nat} (h : k.Trees t t') (hb : k.Budgets b b') :
    k.Results k.Exprs (t.exprWithin b) (t'.exprWithin b') := by
  induction hsize : sizeOf t using Nat.strongRecOn generalizing t t' b b' with
  | ind size ih => ?_
  obtain ⟨tag, span, excerpt, children⟩ := t
  obtain ⟨tag', span', excerpt', children'⟩ := t'
  obtain ⟨rfl, hspan, htext, -, hgaps, hchildren⟩ := h
  rw [Tree.node.sizeOf_spec] at hsize
  have below : k.AgreesBelow size := fun t t' b b' ht h hb => ih _ ht h hb rfl
  have hn : sizeOf children ≤ size := by omega
  cases tag with
  | root =>
    simp only [Tree.exprWithin]
    exact below.rootWithin hb hn hchildren hspan
  | conditional =>
    simp only [Tree.exprWithin, hchildren.length_eq]
    split
    · exact .unexpected hspan
    · exact below.conditionalWithin hb hn hchildren hspan
  | logicalOr | logicalAnd | comparison | multiplicative =>
    simp only [Tree.exprWithin]
    exact below.binaryWithin hb hn hchildren hspan
  | additive =>
    simp only [Tree.exprWithin]
    exact below.additiveWithin hb (hgaps rfl) hn hchildren hspan
  | unary =>
    simp only [Tree.exprWithin]
    exact below.unaryWithin hb hn hchildren hspan
  | postfixed =>
    simp only [Tree.exprWithin]
    exact below.postfixedWithin hb hn hchildren hspan
  | primary =>
    simp only [Tree.exprWithin]
    exact below.primaryWithin hb hn hchildren hspan
  | integer =>
    simp only [Tree.exprWithin, Tree.integer, ← htext rfl]
    split
    · exact congrArg (Expr.literal · _) hspan
    · exact .inl ⟨hspan, rfl, rfl⟩
  | float =>
    simp only [Tree.exprWithin, Tree.float, ← htext rfl]
    split
    · exact congrArg (Expr.literal · _) hspan
    · exact .inl ⟨hspan, rfl, rfl⟩
  | string =>
    simp only [Tree.exprWithin, Tree.string, ← htext rfl]
    split
    · exact congrArg (Expr.literal · _) hspan
    · exact .unexpected hspan
  | blob =>
    simp only [Tree.exprWithin]
    exact .inl ⟨hspan, rfl⟩
  | list =>
    simp only [Tree.exprWithin]
    refine (below.itemsWithin hb hn hchildren).bind fun items items' hitems => .pure ?_
    simp only [Exprs, Expr.map, hspan, show Expr.mapItems _ items = _ from hitems]
  | dict =>
    simp only [Tree.exprWithin]
    refine (below.entriesWithin hb hn hchildren).bind fun entries entries' hentries => .pure ?_
    simp only [Exprs, Expr.map, hspan, show Expr.mapEntries _ entries = _ from hentries]
  | literalDict =>
    simp only [Tree.exprWithin]
    refine (below.literalEntriesWithin hb hn hchildren).bind fun entries entries' h => .pure ?_
    simp only [Exprs, Expr.map, hspan, show Expr.mapEntries _ entries = _ from h]
  | lambdaExpr =>
    simp only [Tree.exprWithin]
    exact below.lambdaExprWithin hb hn hchildren hspan
  | lambda =>
    simp only [Tree.exprWithin]
    exact below.lambdaWithin hb hn hchildren hspan
  | functionCall =>
    simp only [Tree.exprWithin]
    refine (below.callPartsWithin hb hn hchildren hspan).bind ?_
    rintro ⟨scope, name, args⟩ ⟨_, _, args'⟩ ⟨rfl, rfl, hargs⟩
    refine .pure ?_
    simp only [Exprs, Expr.map, hspan, show Expr.mapItems _ args = _ from hargs]
  | variableRef | optionRef =>
    simp only [Tree.exprWithin]
    refine (hchildren.scopedName hspan).bind ?_
    rintro ⟨scope, name⟩ _ rfl
    refine .pure ?_
    simp only [Exprs, Expr.map, hspan]
  | envVariable =>
    rcases children with _ | ⟨name, _ | _⟩
    case nil =>
      obtain rfl := hchildren.nil_left
      exact .unexpected hspan
    case cons.nil =>
      obtain ⟨name', _, rfl, hname, hnil⟩ := hchildren.cons_left
      obtain rfl := hnil.nil_left
      refine hname.nameOf.bind fun name _ h => ?_
      subst h
      refine .pure ?_
      simp only [Exprs, Expr.map, hspan]
    case cons.cons =>
      obtain ⟨_, _, rfl, -, h⟩ := hchildren.cons_left
      obtain ⟨_, _, rfl, -, h⟩ := h.cons_left
      exact .unexpected hspan
  | register =>
    simp only [Tree.exprWithin, ← htext rfl]
    unfold Tree.register
    split
    · exact congrArg (Expr.register · _) hspan
    · exact .unexpected hspan
  | _ =>
    simp only [Tree.exprWithin]
    exact .unexpected hspan

end Likeness

end Vimscript
