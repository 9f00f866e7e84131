import Vimscript.Proofs.Expr.Built

/-!
# Building formed trees

A tree that the grammar makes is built without any refusal but those of its faults. Each function
that builds a part of a tree is taken by itself: its report is the list of faults in the nodes that
it is given, in the order of the source. Trees of a smaller size are taken for granted here.
-/

namespace Vimscript.Tree

open Text

/-- Formed trees smaller than a size are built with no refusals but their faults. A number of
levels is left of the budget, and the others are above the tree or begin with it. -/
def ReportsBelow (budget : Nat) (root : Span) (n : Nat) : Prop :=
  ∀ t : Tree Rule, sizeOf t < n → t.Formed → isOperand t.label = true → ∀ left above : Nat,
    left + above + (if t.label = .expr then 1 else 0) = budget →
      Reports (Expr.Every Expr.Built) ((t.map Rule.tag).exprWithin left)
        (faultsBelow budget root above (t.map Rule.tag))

variable {budget n left above : Nat} {root span : Span} {ts : List (Tree Rule)} {t : Tree Rule}

/-- A step over an operator reports what is to be refused in the operand behind it. -/
def StepReports (left : Nat) (step : RunStep) : Prop :=
  ∀ (last op operand : Tree Tag) (a : Expr Span) (o : BinaryOp) (errors : List Error),
    op.label = .operator → op.binaryOp = .ok o → a.Every Expr.Built →
      Reports (Expr.Every Expr.Built) (operand.exprWithin left) errors →
        Reports (Expr.Every Expr.Built) (step last a op operand) errors

/-- Two operands are joined whatever they are. -/
theorem stepReports_binary : StepReports left (binaryStep left) := by
  intro last op operand a o errors _ ho ha hoperand
  refine hoperand.bind_nil fun b hb => .bind_ok ho (.ok ?_)
  exact every_join ha hb

/-- An additive operator is applied to any two operands. -/
theorem stepReports_additive {origin : Nat} {text : List Char} :
    StepReports left (additiveStep left origin text) := by
  intro last op operand a o errors hlabel ho ha hoperand
  refine .bind_ok (if_pos hlabel) (hoperand.bind_nil fun b hb => ?_)
  exact ReportsBelow.applyAdditive_isSome ho ha hb

namespace ReportsBelow

variable (below : ReportsBelow budget root n) (hb : left + above = budget)

include below hb

/-- An operand without a level of its own. -/
theorem operand (hn : sizeOf t < n) (hf : t.Formed) (hlabel : isOperand t.label = true)
    (hne : t.label ≠ .expr) :
    Reports (Expr.Every Expr.Built) ((t.map Rule.tag).exprWithin left)
      (faultsBelow budget root above (t.map Rule.tag)) :=
  below t hn hf hlabel left above (by rw [if_neg hne]; omega)

/-- A level inside another. -/
theorem charge (hbudget : 0 < budget) (hn : sizeOf t < n) (hf : t.Formed) (hlabel : t.label = .expr) :
    Reports (Expr.Every Expr.Built)
      (Tree.charge left (t.map Rule.tag).span fun left => (t.map Rule.tag).exprWithin left)
      (faultsBelow budget root above (t.map Rule.tag)) := by
  cases left with
  | zero =>
    obtain ⟨span, excerpt, children, rfl⟩ := exists_node hlabel
    have hfault : fault? budget root (above + 1) (node .conditional span excerpt
        (children.map (map Rule.tag))) = some (.nestingDepth span none) := by
      rw [fault?, if_pos (by omega), if_neg (by omega)]
    rw [map_tag, faultsBelow, leveled, show Rule.expr.tag = .conditional from rfl, if_pos rfl,
      List.filterMap_cons, hfault]
    rfl
  | succ left =>
    exact below t hn hf (by rw [hlabel]; rfl) left above (by rw [if_pos hlabel]; omega)

/-- A conditional reports its faults in the order of the source, and it is built link by link. -/
theorem conditionalWithin (hbudget : 0 < budget)
    (h : Alternates (·.label = .logicalOr)
      (fun t => t.label = .coalesce ∨ t.label = .ternaryThen) ts)
    (hf : ∀ t ∈ ts, t.Formed) (hn : ∀ t ∈ ts, sizeOf t < n) :
    Reports (Expr.Every Expr.Built) (Tree.conditionalWithin left span (ts.map (map Rule.tag)))
      (faultsAmong budget root above (ts.map (map Rule.tag))) := by
  induction h with
  | @one t h =>
    rw [List.map_singleton, faultsAmong_cons, faultsAmong_nil, List.append_nil,
      Tree.conditionalWithin]
    exact below.operand hb (hn t (by simp)) (hf t (by simp)) (by rw [h]; rfl) (by simp [h])
  | @more t link rest h hlink _ ih =>
    have hright := ih (fun t ht => hf t (by simp [ht])) fun t ht => hn t (by simp [ht])
    have hleft := below.operand hb (hn t (by simp)) (hf t (by simp)) (by rw [h]; rfl) (by simp [h])
    have hlinkFormed := hf link (by simp)
    have hlinkSize := hn link (by simp)
    rw [List.map_cons, List.map_cons, faultsAmong_cons, faultsAmong_cons]
    rcases hlink with hlabel | hlabel
    · obtain ⟨linkSpan, excerpt, parts, rfl⟩ := exists_node hlabel
      obtain ⟨rfl, -⟩ := hlinkFormed.lexeme rfl
      rw [map_tag, faultsBelow_node rfl, List.map_nil, faultsAmong_nil, List.nil_append,
        show Rule.coalesce.tag = .coalesce from rfl, Tree.conditionalWithin]
      refine hleft.bind fun l hl => hright.bind_pure fun r hr => ?_
      exact .of_parts [l, r] trivial rfl (by simp [hl, hr])
    · obtain ⟨linkSpan, excerpt, parts, rfl⟩ := exists_node hlabel
      obtain ⟨hlabels, hparts⟩ := hlinkFormed.labels rfl
      obtain ⟨branch, rfl, hbranch⟩ :=
        List.map_eq_singleton_iff.mp (Rule.ternaryThen_labels hlabels)
      have hsize := Nat.lt_trans (sizeOf_lt (List.mem_singleton.mpr rfl)) hlinkSize
      have hinside := below.charge hb hbudget hsize (hparts branch (by simp)) hbranch
      rw [map_tag, faultsBelow_node rfl, List.map_singleton, faultsAmong_cons, faultsAmong_nil,
        List.append_nil, show Rule.ternaryThen.tag = .ternaryThen from rfl, Tree.conditionalWithin]
      refine hleft.bind fun l hl => hinside.bind fun t ht => hright.bind_pure fun r hr => ?_
      exact .of_parts [l, t, r] trivial rfl (by simp [hl, ht, hr])

/-- What a run of operators is behind its first operand. -/
theorem runFrom {step : RunStep} (hstep : StepReports left step) {operand operator : Rule}
    {first : Tree Rule} (hoperand : isOperand operand = true ∧ operand ≠ .expr)
    (hoperator : operator ∈ operatorRules)
    (h : Alternates (·.label = operand) (·.label = operator) (first :: ts))
    (hf : ∀ t ∈ ts, t.Formed) (hn : ∀ t ∈ ts, sizeOf t < n) {last : Tree Tag} {e : Expr Span}
    (he : e.Every Expr.Built) :
    Reports (Expr.Every Expr.Built) (Tree.runFrom step span last e (ts.map (map Rule.tag)))
      (faultsAmong budget root above (ts.map (map Rule.tag))) := by
  generalize hall : first :: ts = all at h
  induction h generalizing first ts last e with
  | one =>
    obtain ⟨-, rfl⟩ := List.cons.inj hall
    exact .ok he
  | @more _ op rest _ hop hrest ih =>
    obtain ⟨-, rfl⟩ := List.cons.inj hall
    obtain ⟨next, more, rfl, hnext⟩ := hrest.head
    have hright := below.operand hb (hn next (by simp)) (hf next (by simp))
      (by rw [hnext]; exact hoperand.1) (by rw [hnext]; exact hoperand.2)
    obtain ⟨⟨o, ho⟩, htag, hnone⟩ := binaryOp_isSome hop (hf op (by simp)) hoperator
    simp only [List.map_cons, Tree.runFrom, faultsAmong_cons, hnone, List.nil_append]
    refine (hstep last _ _ e o _ htag ho he hright).bind fun joined hjoined => ?_
    exact ih (fun t ht => hf t (by simp [ht])) (fun t ht => hn t (by simp [ht])) hjoined rfl

/-- A run of operators reports the faults in its operands. -/
theorem runWithin {step : RunStep} (hstep : StepReports left step) {operand operator : Rule}
    (hoperand : isOperand operand = true ∧ operand ≠ .expr) (hoperator : operator ∈ operatorRules)
    (h : Alternates (·.label = operand) (·.label = operator) ts) (hf : ∀ t ∈ ts, t.Formed)
    (hn : ∀ t ∈ ts, sizeOf t < n) :
    Reports (Expr.Every Expr.Built) (Tree.runWithin left step span (ts.map (map Rule.tag)))
      (faultsAmong budget root above (ts.map (map Rule.tag))) := by
  obtain ⟨first, rest, rfl, hfirst⟩ := h.head
  have hleft := below.operand hb (hn first (by simp)) (hf first (by simp))
    (by rw [hfirst]; exact hoperand.1) (by rw [hfirst]; exact hoperand.2)
  rw [List.map_cons, faultsAmong_cons, Tree.runWithin]
  exact hleft.bind fun e he => below.runFrom hb hstep hoperand hoperator h
    (fun t ht => hf t (by simp [ht])) (fun t ht => hn t (by simp [ht])) he

/-- Prefix operators add no fault to those of their operand. -/
theorem unaryWithin {ops : List (Tree Rule)} (hops : ∀ t ∈ ops, t.label = .unaryOp)
    (hlabel : t.label = .postfixed) (hf : ∀ u ∈ ops ++ [t], u.Formed) (hn : sizeOf t < n) :
    Reports (Expr.Every Expr.Built)
      (Tree.unaryWithin left span ((ops ++ [t]).map (map Rule.tag)))
      (faultsAmong budget root above ((ops ++ [t]).map (map Rule.tag))) := by
  induction ops with
  | nil =>
    rw [List.nil_append, List.map_singleton, faultsAmong_cons, faultsAmong_nil, List.append_nil,
      Tree.unaryWithin]
    exact below.operand hb hn (hf t (by simp)) (by rw [hlabel]; rfl) (by rw [hlabel]; simp)
  | cons op ops ih =>
    have hinner := ih (fun u hu => hops u (by simp [hu])) fun u hu => hf u (by simp_all)
    have hop := hops op (by simp)
    have hnone := faultsBelow_token hop (hf op (by simp)) ⟨rfl, rfl⟩
    obtain ⟨next, more, hnext⟩ : ∃ next more, (ops ++ [t]).map (map Rule.tag) = next :: more :=
      List.exists_cons_of_ne_nil (by simp)
    rw [List.cons_append, List.map_cons, faultsAmong_cons, hnone, List.nil_append]
    rw [hnext] at hinner ⊢
    rw [Tree.unaryWithin]
    exact hinner.bind_nil fun e he => applyUnary_isSome hop (hf op (by simp)) he

/-- The items of a list report their faults one after the other. -/
theorem itemsWithin (hbudget : 0 < budget) (h : ∀ t ∈ ts, t.label = .expr)
    (hf : ∀ t ∈ ts, t.Formed) (hn : ∀ t ∈ ts, sizeOf t < n) :
    Reports (fun es => ∀ e ∈ es, Expr.Every Expr.Built e)
      (Tree.itemsWithin left (ts.map (map Rule.tag)))
      (faultsAmong budget root above (ts.map (map Rule.tag))) := by
  rw [itemsWithin_eq, faultsAmong_eq_flatMap]
  refine Reports.mapM fun u hu => ?_
  obtain ⟨t, ht, rfl⟩ := List.mem_map.mp hu
  exact below.charge hb hbudget (hn t ht) (hf t ht) (h t ht)

/-- Arguments report their faults one after the other, and places without one report none. -/
theorem argsWithin (hbudget : 0 < budget) (h : ∀ t ∈ ts, t.label = .callArg)
    (hf : ∀ t ∈ ts, t.Formed) (hn : ∀ t ∈ ts, sizeOf t < n) :
    Reports (fun es => ∀ e ∈ es, Expr.Every Expr.Built e)
      (Tree.argsWithin left (ts.map (map Rule.tag)))
      (faultsAmong budget root above (ts.map (map Rule.tag))) := by
  induction ts with
  | nil =>
    rw [List.map_nil, Tree.argsWithin]
    exact .ok (by simp)
  | cons t ts ih =>
    have hmore := ih (fun t ht => h t (by simp [ht])) (fun t ht => hf t (by simp [ht]))
      fun t ht => hn t (by simp [ht])
    have hslot := hf t (by simp)
    have hsize := hn t (by simp)
    obtain ⟨slotSpan, excerpt, parts, rfl⟩ := exists_node (h t (by simp))
    obtain ⟨hlabels, hparts⟩ := hslot.labels rfl
    rw [List.map_cons, faultsAmong_cons, map_tag, faultsBelow_node rfl,
      show Rule.callArg.tag = .callArg from rfl]
    rcases Rule.callArg_labels hlabels with hnil | hsingle
    · obtain rfl := List.map_eq_nil_iff.mp hnil
      simp only [List.map_nil, Tree.argsWithin, if_true, faultsAmong_nil, List.nil_append]
      exact hmore
    · obtain ⟨part, rfl, hpart⟩ := List.map_eq_singleton_iff.mp hsingle
      have harg := below.charge hb hbudget
        (Nat.lt_trans (sizeOf_lt (List.mem_singleton.mpr rfl)) hsize) (hparts part (by simp)) hpart
      simp only [List.map_singleton, Tree.argsWithin, if_true, faultsAmong_cons, faultsAmong_nil,
        List.append_nil]
      exact harg.bind fun e he => hmore.bind_pure fun es hes => by simpa [he] using hes

/-- An entry reports the faults of its key and of its value. -/
theorem entryWithin {entry key : Rule} {chars : List Char}
    {readKey : Tree Tag → Except Error (Expr Span)} (hbudget : 0 < budget)
    (hentry : entry.isToken = false ∧ isFaultless entry.tag = true)
    (hpattern : entry.pattern = Pattern.spaced [.call key, .text chars, .call .expr])
    (hkey : ∀ u : Tree Rule, sizeOf u < n → u.Formed → u.label = key →
      Reports (Expr.Every Expr.Built) (readKey (u.map Rule.tag))
        (faultsBelow budget root above (u.map Rule.tag)))
    (hlabel : t.label = entry) (hf : t.Formed) (hn : sizeOf t < n) :
    Reports (fun e => e.1.Every Expr.Built ∧ e.2.Every Expr.Built)
      (Tree.entryWithin left entry.tag readKey (t.map Rule.tag))
      (faultsBelow budget root above (t.map Rule.tag)) := by
  obtain ⟨span, excerpt, parts, rfl⟩ := exists_node hlabel
  obtain ⟨hlabels, hparts⟩ := hf.labels hentry.1
  rw [hpattern] at hlabels
  obtain ⟨key, value, rfl, hkeyLabel, hvalue⟩ := pair_of_labels (Rule.pair_labels hlabels)
  have hkey := hkey key (Nat.lt_trans (sizeOf_lt (by simp)) hn) (hparts key (by simp)) hkeyLabel
  have hvalue := below.charge hb hbudget (Nat.lt_trans (sizeOf_lt (by simp)) hn)
    (hparts value (by simp)) hvalue
  rw [map_tag, faultsBelow_node hentry.2, List.map_cons, List.map_singleton, Tree.entryWithin,
    faultsAmong_cons, faultsAmong_cons, faultsAmong_nil, List.append_nil]
  simp only [children, label, if_true]
  exact hkey.bind fun k hk => hvalue.bind_pure fun v hv => ⟨hk, hv⟩

/-- Entries report their faults one after the other. -/
theorem entriesWithin (hbudget : 0 < budget) (h : ∀ t ∈ ts, t.label = .dictEntry)
    (hf : ∀ t ∈ ts, t.Formed) (hn : ∀ t ∈ ts, sizeOf t < n) :
    Reports EveryEntry (Tree.entriesWithin left (ts.map (map Rule.tag)))
      (faultsAmong budget root above (ts.map (map Rule.tag))) := by
  rw [entriesWithin_eq, faultsAmong_eq_flatMap]
  refine Reports.mapM fun u hu => ?_
  obtain ⟨t, ht, rfl⟩ := List.mem_map.mp hu
  exact below.entryWithin hb hbudget ⟨rfl, rfl⟩ rfl (fun u => below.charge hb hbudget) (h t ht)
    (hf t ht) (hn t ht)

/-- In a literal dictionary only the values can have faults. -/
theorem literalEntriesWithin (hbudget : 0 < budget) (h : ∀ t ∈ ts, t.label = .literalDictEntry)
    (hf : ∀ t ∈ ts, t.Formed) (hn : ∀ t ∈ ts, sizeOf t < n) :
    Reports EveryEntry (Tree.literalEntriesWithin left (ts.map (map Rule.tag)))
      (faultsAmong budget root above (ts.map (map Rule.tag))) := by
  rw [literalEntriesWithin_eq, faultsAmong_eq_flatMap]
  refine Reports.mapM fun u hu => ?_
  obtain ⟨t, ht, rfl⟩ := List.mem_map.mp hu
  refine below.entryWithin hb hbudget ⟨rfl, rfl⟩ rfl (fun key _ hkeyFormed hkey => ?_) (h t ht)
    (hf t ht) (hn t ht)
  rw [faultsBelow_token hkey hkeyFormed ⟨rfl, rfl⟩]
  exact .bind_ok (if_pos (by rw [label_map, hkey]; rfl)) (.ok (.leaf trivial rfl))

/-- A lambda reports the faults of its body. -/
theorem lambdaWithin (hbudget : 0 < budget) (h : ts.map label = [.lambdaParams, .expr])
    (hf : ∀ t ∈ ts, t.Formed) (hn : ∀ t ∈ ts, sizeOf t < n) :
    Reports (fun e => e.Every Expr.Built ∧ e.isLambda = true)
      (Tree.lambdaWithin left span (ts.map (map Rule.tag)))
      (faultsAmong budget root above (ts.map (map Rule.tag))) := by
  obtain ⟨params, body, rfl, hparams, hbody⟩ := pair_of_labels h
  obtain ⟨⟨names, hnames, hspelled⟩, hnone⟩ := paramNames_isSome hparams (hf params (by simp))
  have hinside := below.charge hb hbudget (hn body (by simp)) (hf body (by simp)) hbody
  simp only [List.map_cons, List.map_nil, Tree.lambdaWithin, faultsAmong_cons, faultsAmong_nil,
    List.append_nil, hnone, List.nil_append]
  refine .bind_ok hnames (hinside.bind_pure fun e he => ⟨?_, rfl⟩)
  exact .of_parts [e] hspelled rfl (by simp [he])

/-- Arguments as a node of their own. -/
theorem args (hbudget : 0 < budget) (hlabel : t.label = .callArgs) (hf : t.Formed)
    (hn : sizeOf t < n) : ∃ span excerpt slots, t.map Rule.tag = .node .callArgs span excerpt slots ∧
      Reports (fun es => ∀ e ∈ es, Expr.Every Expr.Built e) (Tree.argsWithin left slots)
        (faultsBelow budget root above (t.map Rule.tag)) := by
  obtain ⟨span, excerpt, slots, rfl⟩ := exists_node hlabel
  obtain ⟨hlabels, hparts⟩ := hf.labels rfl
  refine ⟨span, excerpt, _, map_tag, ?_⟩
  rw [map_tag, faultsBelow_node rfl]
  exact below.argsWithin hb hbudget
    (fun u hu => Rule.callArgs_labels hlabels _ (List.mem_map_of_mem hu)) hparts
    fun u hu => Nat.lt_trans (sizeOf_lt hu) hn

/-- A call by name reports the faults of its arguments. -/
theorem callPartsWithin (hbudget : 0 < budget) (h : ts.map label = [.functionName, .callArgs] ∨
      ts.map label = [.scope, .functionName, .callArgs])
    (hf : ∀ t ∈ ts, t.Formed) (hn : ∀ t ∈ ts, sizeOf t < n) :
    Reports EveryPart (Tree.callPartsWithin left span (ts.map (map Rule.tag)))
      (faultsAmong budget root above (ts.map (map Rule.tag))) := by
  rcases h with h | h
  · obtain ⟨name, args, rfl, hname, hargs⟩ := pair_of_labels h
    obtain ⟨hok, hspelled, hnone⟩ := functionName_isSome hname (hf name (by simp))
    obtain ⟨argsSpan, excerpt, slots, hslots, hreports⟩ :=
      below.args hb hbudget hargs (hf args (by simp)) (hn args (by simp))
    simp only [List.map_cons, List.map_nil, faultsAmong_cons, faultsAmong_nil, List.append_nil,
      hnone, List.nil_append]
    rw [hslots] at hreports ⊢
    rw [Tree.callPartsWithin]
    refine .bind_ok hok ?_
    rw [if_pos rfl]
    exact hreports.bind_pure fun es hes => ⟨hspelled, hes⟩
  · obtain ⟨scope, _, rfl, hscope, h⟩ := List.map_eq_cons_iff.mp h
    obtain ⟨name, args, rfl, hname, hargs⟩ := pair_of_labels h
    obtain ⟨⟨s, hs⟩, hnone'⟩ := scopeOf_isSome hscope (hf scope (by simp))
    obtain ⟨hok, hspelled, hnone⟩ := functionName_isSome hname (hf name (by simp))
    obtain ⟨argsSpan, excerpt, slots, hslots, hreports⟩ :=
      below.args hb hbudget hargs (hf args (by simp)) (hn args (by simp))
    simp only [List.map_cons, List.map_nil, faultsAmong_cons, faultsAmong_nil, List.append_nil,
      hnone, hnone', List.nil_append]
    rw [hslots] at hreports ⊢
    rw [Tree.callPartsWithin]
    refine .bind_ok hs (.bind_ok hok ?_)
    rw [if_pos rfl]
    exact hreports.bind_pure fun es hes => ⟨hspelled, hes⟩

/-- A lambda as a node of its own. -/
theorem lambda (hbudget : 0 < budget) (hlabel : t.label = .lambda) (hf : t.Formed)
    (hn : sizeOf t < n) : ∃ span excerpt parts, t.map Rule.tag = .node .lambda span excerpt parts ∧
      Reports (fun e => e.Every Expr.Built ∧ e.isLambda = true)
        (Tree.lambdaWithin left span parts) (faultsBelow budget root above (t.map Rule.tag)) := by
  obtain ⟨span, excerpt, parts, rfl⟩ := exists_node hlabel
  obtain ⟨hlabels, hparts⟩ := hf.labels rfl
  refine ⟨span, excerpt, _, map_tag, ?_⟩
  rw [map_tag, faultsBelow_node rfl]
  exact below.lambdaWithin hb hbudget (Rule.lambda_labels hlabels) hparts
    fun u hu => Nat.lt_trans (sizeOf_lt hu) hn

/-- A lambda and its arguments report their faults one after the other. -/
theorem calledLambda {lambda args : Tree Rule} (hbudget : 0 < budget)
    (h : lambda.label = .lambda ∧ args.label = .callArgs) (hf : lambda.Formed ∧ args.Formed)
    (hn : sizeOf lambda < n ∧ sizeOf args < n) :
    Reports (fun called => (called.1.Every Expr.Built ∧ called.1.isLambda = true) ∧
        ∀ e ∈ called.2, Expr.Every Expr.Built e)
      (Tree.calledLambda left span (lambda.map Rule.tag) (args.map Rule.tag))
      (faultsBelow budget root above (lambda.map Rule.tag) ++
        faultsBelow budget root above (args.map Rule.tag)) := by
  obtain ⟨lambdaSpan, excerpt, parts, hparts, hcallee⟩ := below.lambda hb hbudget h.1 hf.1 hn.1
  obtain ⟨argsSpan, argsExcerpt, slots, hslots, hargs⟩ := below.args hb hbudget h.2 hf.2 hn.2
  rw [hparts] at hcallee ⊢
  rw [hslots] at hargs ⊢
  simp only [Tree.calledLambda, label, if_true, Tree.span, children]
  refine hcallee.bind fun callee hcallee => ?_
  exact hargs.bind_pure fun es hes => ⟨hcallee, hes⟩

/-- A lambda reports the faults of its body and of its arguments, if there are any. -/
theorem lambdaExprWithin (hbudget : 0 < budget)
    (h : ts.map label = [.lambda] ∨ ts.map label = [.lambda, .callArgs])
    (hf : ∀ t ∈ ts, t.Formed) (hn : ∀ t ∈ ts, sizeOf t < n) :
    Reports (Expr.Every Expr.Built) (Tree.lambdaExprWithin left span (ts.map (map Rule.tag)))
      (faultsAmong budget root above (ts.map (map Rule.tag))) := by
  rcases h with h | h
  · obtain ⟨lambda, rfl, hlambda⟩ := List.map_eq_singleton_iff.mp h
    obtain ⟨lambdaSpan, excerpt, parts, hparts, hreports⟩ :=
      below.lambda hb hbudget hlambda (hf lambda (by simp)) (hn lambda (by simp))
    simp only [List.map_cons, List.map_nil, faultsAmong_cons, faultsAmong_nil, List.append_nil]
    rw [hparts] at hreports ⊢
    rw [Tree.lambdaExprWithin, if_pos rfl]
    exact hreports.mono fun e he => he.1
  · obtain ⟨lambda, args, rfl, hlabels⟩ := pair_of_labels h
    simp only [List.map_cons, List.map_nil, faultsAmong_cons, faultsAmong_nil, List.append_nil]
    rw [lambdaExprWithin_pair]
    exact (below.calledLambda hb hbudget hlabels ⟨hf _ (by simp), hf _ (by simp)⟩
      ⟨hn _ (by simp), hn _ (by simp)⟩).bind_pure fun called h => every_lambdaCall h.1 h.2

/-- A method reports the faults of its call. -/
theorem methodCallWithin {whole : Span} {e : Expr Span} (he : e.Every Expr.Built)
    (hbudget : 0 < budget)
    (h : ts.map label = [.functionCall] ∨ ts.map label = [.lambda, .callArgs])
    (hf : ∀ t ∈ ts, t.Formed) (hn : ∀ t ∈ ts, sizeOf t < n) :
    Reports (Expr.Every Expr.Built)
      (Tree.methodCallWithin left span whole e (ts.map (map Rule.tag)))
      (faultsAmong budget root above (ts.map (map Rule.tag))) := by
  rcases h with h | h
  · obtain ⟨call, rfl, hcall⟩ := List.map_eq_singleton_iff.mp h
    have hformed := hf call (by simp)
    have hsize := hn call (by simp)
    obtain ⟨callSpan, excerpt, parts, rfl⟩ := exists_node hcall
    obtain ⟨hlabels, hparts⟩ := hformed.labels rfl
    have hsizes (u : Tree Rule) (hu : u ∈ parts) : sizeOf u < n := Nat.lt_trans (sizeOf_lt hu) hsize
    rw [List.map_singleton, faultsAmong_cons, faultsAmong_nil, List.append_nil, map_tag,
      faultsBelow_node rfl, show Rule.functionCall.tag = .functionCall from rfl,
      Tree.methodCallWithin, if_pos rfl]
    refine (below.callPartsWithin hb hbudget (Rule.functionCall_labels hlabels) hparts
      hsizes).bind_pure fun parts hparts => ?_
    exact .of_parts (e :: parts.2.2) hparts.1 rfl (by simpa [he] using hparts.2)
  · obtain ⟨lambda, args, rfl, hlabels⟩ := pair_of_labels h
    simp only [List.map_cons, List.map_nil, faultsAmong_cons, faultsAmong_nil, List.append_nil]
    rw [methodCallWithin_pair]
    exact (below.calledLambda hb hbudget hlabels ⟨hf _ (by simp), hf _ (by simp)⟩
      ⟨hn _ (by simp), hn _ (by simp)⟩).bind_pure fun called h =>
        every_lambdaCall h.1 (by simpa [he] using h.2)

/-- A subscript reports the faults of its key or of its bounds. -/
theorem subscriptWithin {whole : Span} {e : Expr Span} (he : e.Every Expr.Built)
    (hbudget : 0 < budget) (h : Labels Rule.subscript.pattern (ts.map label))
    (hf : ∀ t ∈ ts, t.Formed) (hn : ∀ t ∈ ts, sizeOf t < n) :
    Reports (Expr.Every Expr.Built)
      (Tree.subscriptWithin left span whole e (ts.map (map Rule.tag)))
      (faultsAmong budget root above (ts.map (map Rule.tag))) := by
  have expression {t : Tree Rule} (ht : t ∈ ts) (hlabel : t.label = .expr) :
      (t.map Rule.tag).label ≠ .sliceSeparator ∧ Reports (Expr.Every Expr.Built)
        (Tree.charge left (t.map Rule.tag).span fun left => (t.map Rule.tag).exprWithin left)
        (faultsBelow budget root above (t.map Rule.tag)) := by
    refine ⟨?_, below.charge hb hbudget (hn t ht) (hf t ht) hlabel⟩
    rw [label_map, hlabel]
    decide
  have separator {t : Tree Rule} (ht : t ∈ ts) (hlabel : t.label = .sliceSep) :
      (t.map Rule.tag).label = .sliceSeparator ∧
        faultsBelow budget root above (t.map Rule.tag) = [] := by
    refine ⟨?_, faultsBelow_token hlabel (hf t ht) ⟨rfl, rfl⟩ _ _ _⟩
    rw [label_map, hlabel]
    rfl
  have slice {lower upper : Option (Expr Span)}
      (h : ∀ e ∈ lower.toList ++ upper.toList, e.Every Expr.Built) :
      (Expr.slice whole e lower upper).Every Expr.Built :=
    .of_parts (e :: (lower.toList ++ upper.toList)) trivial rfl
      (List.forall_mem_cons.mpr ⟨he, h⟩)
  rcases Rule.subscript_labels h with h | h | h | h | h
  · obtain ⟨a, rfl, ha⟩ := List.map_eq_singleton_iff.mp h
    obtain ⟨hne, hkey⟩ := expression (by simp) ha
    simp only [List.map_cons, List.map_nil, faultsAmong_cons, faultsAmong_nil, List.append_nil,
      Tree.subscriptWithin, if_neg hne]
    refine hkey.bind_pure fun k hk => ?_
    exact .of_parts [e, k] trivial rfl (by simp [he, hk])
  · obtain ⟨a, b, rfl, ha, hb⟩ := pair_of_labels h
    obtain ⟨hne, hlower⟩ := expression (by simp) ha
    obtain ⟨hsep, hnone⟩ := separator (by simp) hb
    simp only [List.map_cons, List.map_nil, faultsAmong_cons, faultsAmong_nil, List.append_nil,
      hnone, Tree.subscriptWithin, if_neg hne, if_pos hsep]
    exact hlower.bind_pure fun l hl => slice (by simp [hl])
  · obtain ⟨a, _, rfl, ha, h⟩ := List.map_eq_cons_iff.mp h
    obtain ⟨b, c, rfl, hb, hc⟩ := pair_of_labels h
    obtain ⟨hne, hlower⟩ := expression (by simp) ha
    obtain ⟨hsep, hnone⟩ := separator (by simp) hb
    obtain ⟨-, hupper⟩ := expression (by simp) hc
    simp only [List.map_cons, List.map_nil, faultsAmong_cons, faultsAmong_nil, List.append_nil,
      hnone, List.nil_append, Tree.subscriptWithin, if_pos (And.intro hne hsep)]
    exact hlower.bind fun l hl => hupper.bind_pure fun u hu => slice (by simp [hl, hu])
  · obtain ⟨a, rfl, ha⟩ := List.map_eq_singleton_iff.mp h
    obtain ⟨hsep, hnone⟩ := separator (by simp) ha
    simp only [List.map_cons, List.map_nil, faultsAmong_cons, faultsAmong_nil, List.append_nil,
      hnone, Tree.subscriptWithin, if_pos hsep]
    exact .ok (slice (by simp))
  · obtain ⟨a, b, rfl, ha, hb⟩ := pair_of_labels h
    obtain ⟨hsep, hnone⟩ := separator (by simp) ha
    obtain ⟨-, hupper⟩ := expression (by simp) hb
    simp only [List.map_cons, List.map_nil, faultsAmong_cons, faultsAmong_nil, List.append_nil,
      hnone, List.nil_append, Tree.subscriptWithin, if_pos hsep]
    exact hupper.bind_pure fun u hu => slice (by simp [hu])

/-- What is attached to a base reports its faults one after the other. -/
theorem attachedWithin {e : Expr Span} (he : e.Every Expr.Built) (hbudget : 0 < budget)
    (h : ∀ t ∈ ts, t.label ∈ Derives.attachments) (hf : ∀ t ∈ ts, t.Formed)
    (hn : ∀ t ∈ ts, sizeOf t < n) :
    Reports (Expr.Every Expr.Built) (Tree.attachedWithin left e (ts.map (map Rule.tag)))
      (faultsAmong budget root above (ts.map (map Rule.tag))) := by
  induction ts generalizing e with
  | nil =>
    simp only [List.map_nil, Tree.attachedWithin]
    exact .ok he
  | cons t ts ih =>
    have hmore {e : Expr Span} (he : e.Every Expr.Built) := ih he (fun t ht => h t (by simp [ht]))
      (fun t ht => hf t (by simp [ht])) fun t ht => hn t (by simp [ht])
    have hformed := hf t (by simp)
    have hsize := hn t (by simp)
    obtain ⟨r, attachedSpan, excerpt, parts⟩ := t
    have hr : r ∈ Derives.attachments := h _ List.mem_cons_self
    have hparts {u : Tree Rule} (hu : u ∈ parts) := Nat.lt_trans (sizeOf_lt hu) hsize
    rw [List.map_cons, faultsAmong_cons, map_tag]
    simp only [Derives.attachments, List.mem_cons, List.not_mem_nil, or_false] at hr
    rcases hr with rfl | rfl | rfl
    · obtain ⟨hlabels, hf⟩ := hformed.labels rfl
      rw [faultsBelow_node rfl, show Rule.subscript.tag = .subscript from rfl, Tree.attachedWithin]
      exact (below.subscriptWithin hb he hbudget hlabels hf fun u => hparts).bind
        fun e he => hmore he
    · obtain ⟨hlabels, hf⟩ := hformed.labels rfl
      rw [faultsBelow_node rfl, show Rule.methodCall.tag = .methodCall from rfl,
        Tree.attachedWithin]
      exact (below.methodCallWithin hb he hbudget (Rule.methodCall_labels hlabels) hf
        fun u => hparts).bind fun e he => hmore he
    · obtain ⟨hlabels, hf⟩ := hformed.labels rfl
      rw [faultsBelow_node rfl, show Rule.callArgs.tag = .callArgs from rfl, Tree.attachedWithin]
      have hargs := below.argsWithin hb hbudget
        (fun u hu => Rule.callArgs_labels hlabels _ (List.mem_map_of_mem hu)) hf fun u => hparts
      exact (hargs.map fun es hes => every_callOf he hes).bind fun e he => hmore he

/-- A postfix node reports the faults of its primary and then those behind it. -/
theorem postfixed (hbudget : 0 < budget) (h : Labels Rule.postfixed.pattern (ts.map label))
    (hf : ∀ t ∈ ts, t.Formed) (hn : ∀ t ∈ ts, sizeOf t < n) :
    Reports (Expr.Every Expr.Built) (Tree.postfixedWithin left span (ts.map (map Rule.tag)))
      (faultsAmong budget root above (ts.map (map Rule.tag))) := by
  obtain ⟨more, hsplit, hmore⟩ := Rule.postfixed_labels h
  obtain ⟨first, rest, rfl, hfirst, rfl⟩ := List.map_eq_cons_iff.mp hsplit
  have hprimary := below.operand hb (hn first (by simp)) (hf first (by simp))
    (by rw [hfirst]; rfl) (by rw [hfirst]; simp)
  rw [List.map_cons, faultsAmong_cons, Tree.postfixedWithin]
  exact hprimary.bind fun e he => below.attachedWithin hb he hbudget
    (fun t ht => hmore _ (List.mem_map_of_mem ht)) (fun t ht => hf t (by simp [ht]))
    fun t ht => hn t (by simp [ht])

/-- Parentheses are charged a level, and every other primary reports what it holds. -/
theorem primary (hbudget : 0 < budget) (h : Labels Rule.primary.pattern (ts.map label))
    (hf : ∀ t ∈ ts, t.Formed) (hn : ∀ t ∈ ts, sizeOf t < n) :
    Reports (Expr.Every Expr.Built) (Tree.primaryWithin left span (ts.map (map Rule.tag)))
      (faultsAmong budget root above (ts.map (map Rule.tag))) := by
  obtain ⟨r, hsingle, hr⟩ := Rule.primary_labels h
  obtain ⟨inner, rfl, rfl⟩ := List.map_eq_singleton_iff.mp hsingle
  rw [List.map_singleton, faultsAmong_cons, faultsAmong_nil, List.append_nil, Tree.primaryWithin]
  by_cases hexpr : inner.label = .expr
  · rw [if_pos (by rw [label_map, hexpr]; rfl)]
    exact (below.charge hb hbudget (hn inner (by simp)) (hf inner (by simp)) hexpr).bind_pure
      fun e he => Expr.every_withMark he
  · have hr := hr.resolve_right hexpr
    have hspec : ∀ r ∈ Derives.primaryRules, r.tag ≠ .conditional ∧ isOperand r = true := by decide
    rw [if_neg (by rw [label_map]; exact (hspec _ hr).1)]
    exact below.operand hb (hn inner (by simp)) (hf inner (by simp)) (hspec _ hr).2 hexpr

end ReportsBelow

end Vimscript.Tree
