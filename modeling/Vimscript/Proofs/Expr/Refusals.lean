import Vimscript.Proofs.Expr.Reported
import Vimscript.Proofs.Reading

/-!
# Refused sources

A source that has a parse tree is refused for a fault in the tree or not at all, and the fault that
comes first in the source is the one that is reported. A blob, a number that is too large and a
level below the budget are the only faults: the grammar makes no operator, scope or node that
cannot be built. The main result is `Tree.toExpr_of_parseTree`.
-/

namespace Vimscript

open Text

namespace Tree

variable {budget left above : Nat} {root span : Span} {excerpt : Excerpt} {tag : Tag}
  {t : Tree Rule} {ts : List (Tree Rule)}

/-- A token has no faults but its own. -/
theorem faultsBelow_leaf (h : tag ≠ .conditional) :
    faultsBelow budget root above (node tag span excerpt []) =
      (fault? budget root above (node tag span excerpt [])).toList := by
  rw [faultsBelow, leveled, if_neg h, leveledAll, List.filterMap_cons]
  cases fault? budget root above (node tag span excerpt []) <;> rfl

/-- A number is refused exactly if its value does not fit. -/
theorem integer_reports (hlabel : t.label = .integer) (hf : t.Formed) :
    Reports (Expr.Every Expr.Built) ((t.map Rule.tag).exprWithin left)
      (faultsBelow budget root above (t.map Rule.tag)) := by
  obtain ⟨span, excerpt, children, rfl⟩ := exists_node hlabel
  obtain ⟨rfl, rest, hlexeme⟩ := hf.lexeme rfl
  obtain ⟨n, hn⟩ := Numeral.literalValue?_isSome hlexeme
  rw [map_tag, List.map_nil, show Rule.integer.tag = .integer from rfl,
    faultsBelow_leaf (by simp), fault?, exprWithin, integer, Numeral.decode?_eq, hn,
    Option.any_some, Option.bind_some]
  by_cases hlt : n < Numeral.bound
  · rw [if_pos hlt, if_neg (by simpa using hlt)]
    refine .ok (.leaf ?_ rfl)
    change 0 ≤ (Int64.ofNat n).toInt
    rw [Int64.toInt_ofNat_of_lt hlt]
    omega
  · rw [if_neg hlt, if_pos (by simpa using hlt)]
    rfl

/-- A float is refused exactly if its value is not finite. -/
theorem float_reports (hlabel : t.label = .float) (hf : t.Formed) :
    Reports (Expr.Every Expr.Built) ((t.map Rule.tag).exprWithin left)
      (faultsBelow budget root above (t.map Rule.tag)) := by
  obtain ⟨span, excerpt, children, rfl⟩ := exists_node hlabel
  obtain ⟨rfl, rest, hlexeme⟩ := hf.lexeme rfl
  rw [map_tag, List.map_nil, show Rule.float.tag = .float from rfl,
    faultsBelow_leaf (by simp), fault?, exprWithin, float]
  rcases Binary64.ofText?_float hlexeme with ⟨rank, hvalue⟩ | hvalue
  · rw [hvalue, if_neg (by simp)]
    exact .ok (.leaf ⟨rank, rfl⟩ rfl)
  · rw [hvalue, if_pos rfl]
    rfl

/-- A blob is always refused. -/
theorem blob_reports (hlabel : t.label = .blob) (hf : t.Formed) :
    Reports (Expr.Every Expr.Built) ((t.map Rule.tag).exprWithin left)
      (faultsBelow budget root above (t.map Rule.tag)) := by
  obtain ⟨span, excerpt, children, rfl⟩ := exists_node hlabel
  obtain ⟨rfl, -⟩ := hf.lexeme rfl
  rw [map_tag, List.map_nil, show Rule.blob.tag = .blob from rfl, faultsBelow_leaf (by simp),
    fault?, exprWithin]
  rfl

/-- A string is never refused. -/
theorem string_reports (hlabel : t.label = .string) (hf : t.Formed) :
    Reports (Expr.Every Expr.Built) ((t.map Rule.tag).exprWithin left)
      (faultsBelow budget root above (t.map Rule.tag)) := by
  rw [ReportsBelow.faultsBelow_token hlabel hf ⟨rfl, rfl⟩]
  obtain ⟨span, excerpt, children, rfl⟩ := exists_node hlabel
  obtain ⟨rfl, rest, hlexeme⟩ := hf.lexeme rfl
  obtain ⟨value, hvalue⟩ := Quoted.decode_isSome hlexeme
  rw [map_tag, show Rule.string.tag = .string from rfl, exprWithin, string, hvalue]
  exact .ok (.leaf trivial rfl)

/-- Neither is a register. -/
theorem register_reports (hlabel : t.label = .register) (hf : t.Formed) :
    Reports (Expr.Every Expr.Built) ((t.map Rule.tag).exprWithin left)
      (faultsBelow budget root above (t.map Rule.tag)) := by
  rw [ReportsBelow.faultsBelow_token hlabel hf ⟨rfl, rfl⟩]
  obtain ⟨span, excerpt, children, rfl⟩ := exists_node hlabel
  obtain ⟨rfl, rest, c, htext, hc⟩ := hf.lexeme rfl
  rw [map_tag, show Rule.register.tag = .register from rfl, exprWithin, htext, register]
  exact .ok (.leaf hc rfl)

/-- A name token. -/
theorem Formed.name {r : Rule} {valid : List Char → Prop} (hlabel : t.label = r) (hf : t.Formed)
    (hr : r.isToken = true ∧ r.tag = .name)
    (hvalid : ∀ u rest, r.Lexeme u rest → valid u) :
    nameOf (t.map Rule.tag) = .ok t.text ∧ valid t.text ∧
      ∀ budget root above, faultsBelow budget root above (t.map Rule.tag) = [] := by
  refine ⟨ReportsBelow.nameOf_isSome (by rw [hlabel]; exact hr.2), ?_,
    ReportsBelow.faultsBelow_token hlabel hf ⟨hr.1, by rw [hr.2]; rfl⟩⟩
  obtain ⟨span, excerpt, children, rfl⟩ := exists_node hlabel
  obtain ⟨-, rest, hlexeme⟩ := hf.lexeme hr.1
  exact hvalid _ _ hlexeme

/-- A variable has a scope that is known and a name that can be written, and no faults. -/
theorem variableRef_reports (span : Span) (h : Labels Rule.variableRef.pattern (ts.map label))
    (hf : ∀ t ∈ ts, t.Formed) :
    (∃ scope name, scopedName span (ts.map (map Rule.tag)) = .ok (scope, name) ∧
      (Expr.var span scope name).WellSpelled) ∧
        ∀ budget root above, faultsAmong budget root above (ts.map (map Rule.tag)) = [] := by
  rcases Rule.variableRef_labels h with h | h
  · obtain ⟨name, rfl, hname⟩ := List.map_eq_singleton_iff.mp h
    obtain ⟨hok, hvalid, hnone⟩ := Formed.name hname (hf name (by simp)) ⟨rfl, rfl⟩ fun _ _ h => h.1
    refine ⟨⟨none, name.text, ?_, hvalid⟩, by simp [hnone]⟩
    simp only [List.map_singleton, scopedName, hok, bind, Except.bind, pure, Except.pure]
  · obtain ⟨scope, name, rfl, hscope, hname⟩ := pair_of_labels h
    obtain ⟨⟨s, hs⟩, hnone⟩ := ReportsBelow.scopeOf_isSome hscope (hf scope (by simp))
    obtain ⟨hok, hvalid, hnone'⟩ := Formed.name hname (hf name (by simp)) ⟨rfl, rfl⟩ fun _ _ h => h.1
    refine ⟨⟨some s, name.text, ?_, hvalid⟩, by simp [hnone, hnone']⟩
    simp only [List.map_cons, List.map_nil, scopedName, hs, hok, bind, Except.bind, pure,
      Except.pure]

/-- The scope of an option is global or local to a function. -/
theorem scopeOf_optionScope (hlabel : t.label = .optionScope) (hf : t.Formed) :
    ∃ s, scopeOf (t.map Rule.tag) = .ok s ∧ (s = .global ∨ s = .functionLocal) := by
  obtain ⟨span, excerpt, children, rfl⟩ := exists_node hlabel
  obtain ⟨-, rest, hlexeme⟩ := hf.lexeme rfl
  rw [map_tag]
  rcases hlexeme with htext | htext
  · exact ⟨.global, scopeOf_eq_ok rfl htext, .inl rfl⟩
  · exact ⟨.functionLocal, scopeOf_eq_ok rfl htext, .inr rfl⟩

/-- An option has a name that can be written, and no scope or one of the two that options take. -/
theorem option_reports (span : Span) (h : Labels Rule.option.pattern (ts.map label))
    (hf : ∀ t ∈ ts, t.Formed) :
    (∃ scope name, scopedName span (ts.map (map Rule.tag)) = .ok (scope, name) ∧
      (Expr.option span scope name).WellSpelled) ∧
        ∀ budget root above, faultsAmong budget root above (ts.map (map Rule.tag)) = [] := by
  rcases Rule.option_labels h with h | h
  · obtain ⟨name, rfl, hname⟩ := List.map_eq_singleton_iff.mp h
    obtain ⟨hok, hvalid, hnone⟩ := Formed.name hname (hf name (by simp)) ⟨rfl, rfl⟩ fun _ _ h => h.1
    refine ⟨⟨none, name.text, ?_, hvalid, .inl rfl⟩, by simp [hnone]⟩
    simp only [List.map_singleton, scopedName, hok, bind, Except.bind, pure, Except.pure]
  · obtain ⟨scope, name, rfl, hscope, hname⟩ := pair_of_labels h
    obtain ⟨hok, hvalid, hnone⟩ := Formed.name hname (hf name (by simp)) ⟨rfl, rfl⟩ fun _ _ h => h.1
    have hnone' := ReportsBelow.faultsBelow_token hscope (hf scope (by simp)) ⟨rfl, rfl⟩
    obtain ⟨s, hs, hkind⟩ := scopeOf_optionScope hscope (hf scope (by simp))
    refine ⟨⟨some s, name.text, ?_, hvalid, .inr (hkind.imp (congrArg some) (congrArg some))⟩,
      by simp [hnone, hnone']⟩
    simp only [List.map_cons, List.map_nil, scopedName, hs, hok, bind, Except.bind, pure,
      Except.pure]

/-- An environment variable has a name that can be written, and no faults. -/
theorem envVariable_reports (h : Labels Rule.envVariable.pattern (ts.map label))
    (hf : ∀ t ∈ ts, t.Formed) :
    Reports (Expr.Every Expr.Built)
      ((node .envVariable span excerpt (ts.map (map Rule.tag))).exprWithin left)
      (faultsAmong budget root above (ts.map (map Rule.tag))) := by
  obtain ⟨name, rfl, hname⟩ := List.map_eq_singleton_iff.mp (Rule.envVariable_labels h)
  obtain ⟨hok, hvalid, hnone⟩ := Formed.name hname (hf name (by simp)) ⟨rfl, rfl⟩ fun _ _ h => h.1
  simp only [List.map_singleton, exprWithin, hok, bind, Except.bind, pure, Except.pure,
    faultsAmong_cons, faultsAmong_nil, hnone, List.append_nil]
  exact .ok (.leaf hvalid rfl)

/-- A dictionary of what is built is built. -/
theorem every_dict {entries : List (Expr Span × Expr Span)}
    (h : ReportsBelow.EveryEntry entries) : (Expr.dict span entries).Every Expr.Built := by
  refine .of_parts (entries.flatMap fun entry => [entry.1, entry.2]) trivial rfl ?_
  intro e he
  obtain ⟨entry, hentry, he⟩ := List.mem_flatMap.mp he
  simp only [List.mem_cons, List.not_mem_nil, or_false] at he
  rcases he with rfl | rfl
  · exact (h entry hentry).1
  · exact (h entry hentry).2

/-- A formed node of an expression is built without any refusal but those of its faults. A number
of levels is left of the budget, and the others are above the node or begin with it. -/
theorem exprWithin_reports (hbudget : 0 < budget) (hf : t.Formed)
    (hlabel : isOperand t.label = true)
    (hb : left + above + (if t.label = .expr then 1 else 0) = budget) :
    Reports (Expr.Every Expr.Built) ((t.map Rule.tag).exprWithin left)
      (faultsBelow budget root above (t.map Rule.tag)) := by
  induction hsize : sizeOf t using Nat.strongRecOn generalizing t left above with
  | ind size ih => ?_
  have below : ReportsBelow budget root size := fun t ht hf hlabel left above hb =>
    ih _ ht hf hlabel hb rfl
  obtain ⟨r, span, excerpt, children⟩ := t
  have hn : ∀ u ∈ children, sizeOf u < size := fun u hu => hsize ▸ sizeOf_lt hu
  cases hr : r.isToken with
  | true =>
    cases r with
    | integer => exact integer_reports rfl hf
    | float => exact float_reports rfl hf
    | blob => exact blob_reports rfl hf
    | string => exact string_reports rfl hf
    | register => exact register_reports rfl hf
    | _ => first | (cases hr; done) | cases hlabel
  | false =>
    obtain ⟨hlabels, hparts⟩ := hf.labels hr
    rw [map_tag]
    by_cases hexpr : r = .expr
    · subst hexpr
      have hb : left + (above + 1) = budget := by simpa [label, Nat.add_assoc] using hb
      have halternates := (Rule.expr_labels hlabels).of_map
      rw [show Rule.expr.tag = .conditional from rfl, faultsBelow_conditional (by omega),
        exprWithin, if_neg (by rw [List.length_map, halternates.odd]; decide)]
      exact below.conditionalWithin hb hbudget halternates hparts hn
    replace hb : left + above = budget := by simpa [label, hexpr] using hb
    cases r with
    | logicalOr =>
      rw [show Rule.logicalOr.tag = .logicalOr from rfl, faultsBelow_node rfl, exprWithin]
      rw [binaryWithin_eq]
      exact below.runWithin hb stepReports_binary (by decide) (by decide)
        (Rule.tier_labels hlabels).of_map hparts hn
    | logicalAnd =>
      rw [show Rule.logicalAnd.tag = .logicalAnd from rfl, faultsBelow_node rfl, exprWithin]
      rw [binaryWithin_eq]
      exact below.runWithin hb stepReports_binary (by decide) (by decide)
        (Rule.tier_labels hlabels).of_map hparts hn
    | comparison =>
      rw [show Rule.comparison.tag = .comparison from rfl, faultsBelow_node rfl, exprWithin]
      rw [binaryWithin_eq]
      exact below.runWithin hb stepReports_binary (by decide) (by decide)
        (Rule.tier_labels hlabels).of_map hparts hn
    | multiplicative =>
      rw [show Rule.multiplicative.tag = .multiplicative from rfl, faultsBelow_node rfl, exprWithin]
      rw [binaryWithin_eq]
      exact below.runWithin hb stepReports_binary (by decide) (by decide)
        (Rule.tier_labels hlabels).of_map hparts hn
    | additive =>
      rw [show Rule.additive.tag = .additive from rfl, faultsBelow_node rfl, exprWithin]
      rw [additiveWithin_eq]
      exact below.runWithin hb stepReports_additive (by decide) (by decide)
        (Rule.tier_labels hlabels).of_map hparts hn
    | unary =>
      obtain ⟨ops, hops, hkind⟩ := Rule.unary_labels hlabels
      obtain ⟨us, vs, rfl, hus, hvs⟩ := List.map_eq_append_iff.mp hops
      obtain ⟨operand, rfl, hoperand⟩ := List.map_eq_singleton_iff.mp hvs
      rw [show Rule.unary.tag = .unary from rfl, faultsBelow_node rfl, exprWithin]
      exact below.unaryWithin hb (fun u hu => hkind _ (hus ▸ List.mem_map_of_mem hu)) hoperand hparts
        (hn operand (by simp))
    | postfixed =>
      rw [show Rule.postfixed.tag = .postfixed from rfl, faultsBelow_node rfl, exprWithin]
      exact below.postfixed hb hbudget hlabels hparts hn
    | primary =>
      rw [show Rule.primary.tag = .primary from rfl, faultsBelow_node rfl, exprWithin]
      exact below.primary hb hbudget hlabels hparts hn
    | list =>
      rw [show Rule.list.tag = .list from rfl, faultsBelow_node rfl, exprWithin]
      exact (below.itemsWithin hb hbudget
        (fun u hu => Rule.list_labels hlabels _ (List.mem_map_of_mem hu)) hparts hn).bind_pure
          fun es hes => Expr.Every.of_parts _ trivial rfl hes
    | dict =>
      rw [show Rule.dict.tag = .dict from rfl, faultsBelow_node rfl, exprWithin]
      exact (below.entriesWithin hb hbudget
        (fun u hu => Rule.dict_labels hlabels _ (List.mem_map_of_mem hu)) hparts hn).bind_pure
          fun es hes => every_dict hes
    | literalDict =>
      rw [show Rule.literalDict.tag = .literalDict from rfl, faultsBelow_node rfl, exprWithin]
      exact (below.literalEntriesWithin hb hbudget
        (fun u hu => Rule.literalDict_labels hlabels _ (List.mem_map_of_mem hu)) hparts hn).bind_pure
          fun es hes => every_dict hes
    | lambdaExpr =>
      rw [show Rule.lambdaExpr.tag = .lambdaExpr from rfl, faultsBelow_node rfl, exprWithin]
      exact below.lambdaExprWithin hb hbudget (Rule.lambdaExpr_labels hlabels) hparts hn
    | functionCall =>
      rw [show Rule.functionCall.tag = .functionCall from rfl, faultsBelow_node rfl, exprWithin]
      exact (below.callPartsWithin hb hbudget (Rule.functionCall_labels hlabels) hparts hn).bind_pure
        fun parts hparts => Expr.Every.of_parts _ hparts.1 rfl hparts.2
    | variableRef =>
      obtain ⟨⟨scope, name, hname, hspelled⟩, hnone⟩ := variableRef_reports span hlabels hparts
      rw [show Rule.variableRef.tag = .variableRef from rfl, faultsBelow_node rfl, hnone, exprWithin,
        hname]
      exact .ok (.leaf (by cases scope <;> exact hspelled) rfl)
    | option =>
      obtain ⟨⟨scope, name, hname, hspelled⟩, hnone⟩ := option_reports span hlabels hparts
      rw [show Rule.option.tag = .optionRef from rfl, faultsBelow_node rfl, hnone, exprWithin,
        hname]
      exact .ok (.leaf hspelled rfl)
    | envVariable =>
      rw [show Rule.envVariable.tag = .envVariable from rfl, faultsBelow_node rfl]
      exact envVariable_reports hlabels hparts
    | expr => exact absurd rfl hexpr
    | _ => first | (cases hr; done) | cases hlabel

/-- A tree that the grammar makes is built without any refusal but those of its faults. -/
theorem toExpr_reports (budget : Nat) (hf : t.Formed) (hlabel : t.label = .expression) :
    Reports (Expr.Every Expr.Built) ((t.map Rule.tag).toExpr budget)
      ((t.map Rule.tag).faults budget) := by
  obtain ⟨span, excerpt, children, rfl⟩ := exists_node hlabel
  obtain ⟨hlabels, hparts⟩ := hf.labels rfl
  obtain ⟨inner, finish, rfl, hinner, hfinish⟩ := pair_of_labels (Rule.expression_labels hlabels)
  have hnone := ReportsBelow.faultsBelow_token hfinish (hparts finish (by simp)) ⟨rfl, rfl⟩
  have hfaults : ((node .expression span excerpt [inner, finish]).map Rule.tag).faults budget =
      faultsBelow budget span 0 (inner.map Rule.tag) := by
    rw [map_tag, faults, ← faultsBelow, show Rule.expression.tag = .root from rfl,
      show (node Tag.root span excerpt _).span = span from rfl, faultsBelow_node rfl]
    simp only [List.map_cons, List.map_nil, faultsAmong_cons, faultsAmong_nil, hnone,
      List.append_nil]
  rw [hfaults]
  cases budget with
  | zero =>
    obtain ⟨innerSpan, innerExcerpt, parts, rfl⟩ := exists_node hinner
    have hfault : fault? 0 span (0 + 1) (node .conditional innerSpan innerExcerpt
        (parts.map (map Rule.tag))) = some (.nestingDepth span none) := rfl
    rw [map_tag, map_tag, faultsBelow, leveled, show Rule.expr.tag = .conditional from rfl,
      if_pos rfl, List.filterMap_cons, hfault]
    rfl
  | succ budget =>
    have hreports : Reports (Expr.Every Expr.Built) ((inner.map Rule.tag).exprWithin budget)
        (faultsBelow (budget + 1) span 0 (inner.map Rule.tag)) :=
      exprWithin_reports (Nat.succ_pos budget) (hparts inner (by simp)) (by rw [hinner]; rfl)
        (by rw [if_pos hinner])
    have hroot : ((node .expression span excerpt [inner, finish]).map Rule.tag).toExpr (budget + 1) =
        (inner.map Rule.tag).exprWithin budget := by
      rw [map_tag]
      have hne : (inner.map Rule.tag).label ≠ .endOfInput := by
        rw [label_map, hinner]
        decide
      have heq : (finish.map Rule.tag).label = .endOfInput := by
        rw [label_map, hfinish]
        rfl
      simp only [toExpr, charge, show Rule.expression.tag = .root from rfl, exprWithin,
        List.map_cons, List.map_nil, rootWithin, if_neg hne, List.all_cons, List.all_nil, heq,
        decide_true, Bool.and_self, if_true]
    rw [hroot]
    exact hreports

/-- The parse tree of a source is one that the grammar makes. -/
theorem exists_formed_of_parseTree {limits : Limits} {source : List Char} {tree : Tree Tag}
    (h : parseTree limits source = .ok tree) :
    ∃ root : Tree Rule, tree = root.map Rule.tag ∧ root.Formed ∧ root.label = .expression := by
  unfold parseTree at h
  cases hroot : ofSource limits source with
  | error error =>
    rw [hroot] at h
    cases h
  | ok root =>
    rw [hroot] at h
    cases h
    obtain ⟨stop, hparses⟩ := parses_of_ofSource hroot
    exact ⟨root, rfl, hparses.derives.formed root (List.mem_singleton_self root),
      hparses.derives.span_eq.2⟩

/-- Every node of what a source is read as is one that is built. -/
theorem every_built_of_parseWithin {limits : Limits} {source : List Char} {e : Expr Span}
    (h : parseWithin limits source = .ok e) : e.Every Expr.Built := by
  unfold parseWithin at h
  cases htree : parseTree limits source with
  | error error =>
    rw [htree] at h
    cases h
  | ok tree =>
    rw [htree] at h
    obtain ⟨root, rfl, hformed, hlabel⟩ := exists_formed_of_parseTree htree
    have hreports := toExpr_reports limits.exprDepth hformed hlabel
    rw [show (root.map Rule.tag).toExpr limits.exprDepth = .ok e from h] at hreports
    exact hreports.of_ok

/-- The parse tree of a source is built exactly if it has no fault, and refused for the first fault
in it otherwise. -/
theorem toExpr_of_parseTree {limits : Limits} {source : List Char} {tree : Tree Tag}
    (h : parseTree limits source = .ok tree) (budget : Nat) :
    ((∃ e, tree.toExpr budget = .ok e) ↔ tree.faults budget = []) ∧
      (∀ error, tree.toExpr budget = .error error ↔ (tree.faults budget).head? = some error) ∧
      ∀ error, tree.toExpr budget = .error error → error.isFault = true := by
  obtain ⟨root, rfl, hformed, hlabel⟩ := exists_formed_of_parseTree h
  have reports := toExpr_reports budget hformed hlabel
  cases hfaults : (root.map Rule.tag).faults budget with
  | nil =>
    rw [hfaults] at reports
    obtain ⟨e, he, -⟩ := reports
    simp [he]
  | cons error more =>
    rw [hfaults] at reports
    have herror : (root.map Rule.tag).toExpr budget = .error error := reports
    have hfault : error.isFault = true := isFault_of_mem_faults (hfaults ▸ List.mem_cons_self)
    simp [herror, hfault]

/-- A blob inside a list is refused where it stands. -/
theorem toExpr_of_parseTree_blob : ∃ tree,
    parseTree Limits.default "[1, 0z00, 0z]".toList = .ok tree ∧
      (tree.faults 96).head? = some (.unsupported ⟨4, 8⟩ .blob) ∧
      tree.toExpr 96 = .error (.unsupported ⟨4, 8⟩ .blob) := by
  refine ⟨_, rfl, by decide +kernel, ?_⟩
  have htree : parseTree Limits.default "[1, 0z00, 0z]".toList = .ok _ := rfl
  exact ((toExpr_of_parseTree htree 96).2.1 _).mpr (by decide +kernel)

end Tree

end Vimscript
