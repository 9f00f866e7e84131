import Vimscript.Proofs.Expr.Costs

/-!
# What is built costs no more than its text

A field has a bracket for the parentheses that its base may need, and an expression that stood
between parentheses has paid for them. `Tree.Weighed.cost_le` is the invariant for all nodes;
`weight_source_le` is what follows for a whole source.
-/

namespace Vimscript

open Text

namespace CostsBelow

open Vimscript.Tree Vimscript.Expr

variable {size budget : Nat} {span whole : Span} {t : Tree Tag} {ts : List (Tree Tag)}
  {base : Expr Span} {w : Int} (below : CostsBelow size)

include below

/-- The bounds of a slice are printed in brackets like a key. -/
theorem subscriptWithin (hn : sizeOf ts ≤ size) (h : ∀ t ∈ ts, t.Weighed)
    (hbase : base.cost suffixBinding ≤ w) :
    Yields (fun e => e.cost suffixBinding ≤ w - 1 + weights ts)
      (subscriptWithin budget span whole base ts) := by
  have level (t : Tree Tag) (ht : t ∈ ts) : Yields (fun e => e.cost 0 ≤ weight t.text)
      (Tree.charge budget t.span fun budget => exprWithin budget t) :=
    below.charge (Nat.lt_of_lt_of_le (List.sizeOf_lt_of_mem ht) hn) (h t ht)
  have separator (t : Tree Tag) (ht : t ∈ ts) (hlabel : t.label = .sliceSeparator) :
      weight t.text = 0 := (h t ht).weight_eq_zero (by rw [hlabel]; rfl)
  have slice {lower upper : Option (Expr Span)} {a : Int}
      (hbounds : costs (lower.toList ++ upper.toList) ≤ a) :
      (Expr.slice whole base lower upper).cost suffixBinding ≤ w - 1 + a := by
    rw [cost_of_le (Nat.le_refl suffixBinding), weight_slice]
    exact Int.add_le_add (Int.sub_le_sub_right hbase 1) hbounds
  unfold Tree.subscriptWithin
  split
  · rename_i only
    rw [weights_cons, weights_nil, Int.add_zero]
    split
    · rw [separator only (by simp) ‹_›]
      exact slice (Int.le_refl 0)
    · refine (level _ (by simp)).bind fun key hkey => ?_
      show cost suffixBinding (.index whole base key) ≤ _
      rw [cost_of_le (Nat.le_refl suffixBinding), weight_index]
      exact Int.add_le_add (Int.sub_le_sub_right hbase 1) hkey
  · rename_i first second
    split
    · refine (level _ (by simp)).bind fun upper hupper => slice ?_
      have hmark := separator first (by simp) ‹_›
      simp only [Option.toList, List.nil_append, costs_cons, costs_nil, weights_cons, weights_nil]
      omega
    · split
      · refine (level _ (by simp)).bind fun lower hlower => slice ?_
        have hmark := separator second (by simp) ‹_›
        simp only [Option.toList, List.append_nil, costs_cons, costs_nil, weights_cons, weights_nil]
        omega
      · exact trivial
  · rename_i first second third
    split
    · rename_i hlabels
      refine (level _ (by simp)).bind fun lower hlower => ?_
      refine (level _ (by simp)).bind fun upper hupper => slice ?_
      have hmark := separator second (by simp) hlabels.2
      simp only [Option.toList, List.cons_append, List.nil_append, costs_cons, costs_nil,
        weights_cons, weights_nil]
      omega
    · exact trivial
  · exact trivial

/-- The receiver of a method is printed as an argument, where it needs no parentheses. -/
theorem methodCallWithin (hn : sizeOf ts ≤ size) (h : ∀ t ∈ ts, t.Weighed)
    (hbase : base.cost suffixBinding ≤ w) :
    Yields (fun e => e.cost suffixBinding ≤ w + weights ts)
      (methodCallWithin budget span whole base ts) := by
  have hreceiver : base.cost 0 ≤ w := Int.le_trans (cost_mono (Nat.zero_le _)) hbase
  match ts with
  | [] | .node _ _ _ _ :: .node _ _ _ _ :: _ :: _ => exact trivial
  | [.node tag callSpan excerpt parts] =>
    rw [Tree.methodCallWithin]
    split
    · rename_i htag
      subst htag
      have hweighed := h (node .functionCall callSpan excerpt parts) (by simp)
      simp only [List.cons.sizeOf_spec, Tree.node.sizeOf_spec] at hn
      have hsize : sizeOf parts ≤ size := by omega
      refine (below.callPartsWithin hsize hweighed.parts).bind fun called hcalled => ?_
      have heq := hweighed.weight_eq .functionCall rfl (by decide)
      simp only [Tag.brackets, children, Int.zero_add] at heq
      show cost suffixBinding (.call whole called.1 called.2.1 (base :: called.2.2)) ≤ _
      rw [cost_of_le (show suffixBinding ≤ atomBinding by decide), weight_call, costs_cons,
        weights_cons, weights_nil, heq]
      omega
    · exact trivial
  | [callee, slots] =>
    rw [methodCallWithin_pair]
    refine (below.calledLambda hn h).bind fun called hcalled => ?_
    show cost suffixBinding (.lambdaCall whole called.1 (base :: called.2)) ≤ _
    rw [cost_of_le (Nat.le_refl suffixBinding), weight_lambdaCall, costs_cons]
    omega

/-- Each thing attached adds its weight. -/
theorem attachedWithin (hbase : base.cost suffixBinding ≤ w) (hn : sizeOf ts ≤ size)
    (h : ∀ t ∈ ts, t.Weighed) :
    Yields (fun e => e.cost suffixBinding ≤ w + weights ts) (attachedWithin budget base ts) := by
  induction ts generalizing base w with
  | nil => exact Int.le_trans hbase (Int.le_of_eq (Int.add_zero w).symm)
  | cons t rest ih =>
    have hweighed := h t List.mem_cons_self
    have hsize : sizeOf t.children ≤ size := by
      have := sizeOf_children_lt (List.mem_cons_self : t ∈ t :: rest)
      omega
    rw [List.cons.sizeOf_spec] at hn
    have goesOn {x : Except Error (Expr Span)}
        (hx : Yields (fun e => e.cost suffixBinding ≤ w + weight t.text) x) :
        Yields (fun e => e.cost suffixBinding ≤ w + weights (t :: rest))
          (x >>= fun attached => Tree.attachedWithin budget attached rest) :=
      hx.bind fun attached hattached =>
        (ih hattached (by omega) fun t ht => h t (List.mem_cons_of_mem _ ht)).mono fun e he => by
          rw [weights_cons]
          omega
    obtain ⟨tag, span, excerpt, parts⟩ := t
    have heq := hweighed.weight_eq tag rfl
    have hparts := hweighed.parts
    dsimp only [children] at hsize heq hparts
    rw [Tree.attachedWithin.eq_def]
    dsimp only
    split
    · refine goesOn ((below.subscriptWithin hsize hparts hbase).mono fun e he => ?_)
      rw [heq (by decide)]
      exact Int.le_trans he (Int.le_of_eq (Int.add_assoc w (-1) _))
    · refine goesOn ((below.methodCallWithin hsize hparts hbase).mono fun e he => ?_)
      rw [heq (by decide)]
      exact Int.le_trans he (Int.add_le_add_left (Int.le_of_eq (Int.zero_add _).symm) w)
    · refine goesOn ((below.argsWithin hsize hparts).map fun args hargs => ?_)
      rw [heq (by decide), show Tag.brackets .callArgs _ = 1 from rfl, cost_callOf]
      omega
    · exact trivial

/-- A postfix node costs what its primary and all that is attached to it cost. -/
theorem postfixedWithin (hn : sizeOf ts ≤ size)
    (h : ∀ t ∈ ts, t.Weighed ∧ suffixBinding ≤ t.label.level) :
    Yields (fun e => e.cost suffixBinding ≤ weights ts) (postfixedWithin budget span ts) := by
  cases ts with
  | nil => exact trivial
  | cons first rest =>
    have hsize : sizeOf first < size ∧ sizeOf rest ≤ size := by
      rw [List.cons.sizeOf_spec] at hn
      omega
    obtain ⟨hweighed, hlevel⟩ := h first List.mem_cons_self
    simp only [Tree.postfixedWithin]
    refine (below.operand hsize.1 hweighed hlevel).bind fun base hbase => ?_
    rw [weights_cons]
    exact below.attachedWithin hbase hsize.2 fun t ht => (h t (List.mem_cons_of_mem first ht)).1

/-- The parentheses around an expression pay for those it may need. -/
theorem primaryWithin (hn : sizeOf ts ≤ size)
    (h : ∀ t ∈ ts, t.Weighed ∧ Tag.asks .primary t.label ≤ t.label.level) :
    Yields (fun e => e.cost suffixBinding ≤ Tag.brackets .primary (ts.map label) + weights ts)
      (primaryWithin budget span ts) := by
  unfold Tree.primaryWithin
  split
  · rename_i inner
    rw [List.cons.sizeOf_spec] at hn
    obtain ⟨hweighed, hlevel⟩ := h inner List.mem_cons_self
    rw [weights_cons, weights_nil, Int.add_zero, List.map_singleton]
    split
    · rename_i hlabel
      refine (below.charge (by omega) hweighed).bind fun e he => ?_
      have hcost := e.cost_le_succ suffixBinding 0
      show cost suffixBinding (e.withMark span) ≤ _
      rw [cost_withMark, hlabel, show Tag.brackets .primary [.conditional] = 1 from rfl]
      omega
    · rename_i hlabel
      rw [Tag.asks, if_neg hlabel] at hlevel
      have hbrackets : Tag.brackets .primary [inner.label] = 0 := by
        unfold Tag.brackets
        split <;> simp_all
      rw [hbrackets, Int.zero_add]
      exact below.operand (by omega) hweighed hlevel
  · exact trivial

/-- The end of the input has no weight. -/
theorem rootWithin (hn : sizeOf ts ≤ size) (h : ∀ t ∈ ts, t.Weighed) :
    Yields (fun e => e.cost 0 ≤ weights ts) (rootWithin budget span ts) := by
  have hend {t : Tree Tag} (ht : t.Weighed) (hlabel : t.label = .endOfInput) : weight t.text = 0 :=
    ht.weight_eq_zero (by rw [hlabel]; rfl)
  induction ts with
  | nil => exact trivial
  | cons child rest ih =>
    have hchild := h child List.mem_cons_self
    have hrest := fun t ht => h t (List.mem_cons_of_mem child ht)
    rw [List.cons.sizeOf_spec] at hn
    rw [Tree.rootWithin, weights_cons]
    split
    · rw [hend hchild ‹_›, Int.zero_add]
      exact ih (by omega) hrest
    · split
      · rename_i hall
        have hzero : weights rest = 0 := weights_eq_zero fun t ht =>
          hend (hrest t ht) (of_decide_eq_true (List.all_eq_true.mp hall t ht))
        rw [hzero, Int.add_zero]
        exact below.operand (by omega) hchild (Nat.zero_le _)
      · exact trivial

end CostsBelow

/-- What is built from a weighed tree costs no more at the level of the tree than the text of the
tree weighs, in any budget. -/
theorem Tree.Weighed.cost_le {t : Tree Tag} (h : t.Weighed) (budget : Nat) :
    Yields (fun e => e.cost t.label.level ≤ weight t.text) (t.exprWithin budget) := by
  induction hsize : sizeOf t using Nat.strongRecOn generalizing t budget with
  | ind size ih => ?_
  have below : CostsBelow size := fun u hu hweighed budget => ih _ hu hweighed budget rfl
  obtain ⟨tag, span, excerpt, children⟩ := t
  have hn : sizeOf children ≤ size := by
    rw [← hsize, Tree.node.sizeOf_spec]
    omega
  have parts : ∀ t ∈ children, t.Weighed := h.parts
  have asks : ∀ t ∈ children, t.Weighed ∧ tag.asks t.label ≤ t.label.level := fun t ht =>
    ⟨parts t ht, h.asks_le t ht⟩
  have heq (hne : tag ≠ .string) : weight excerpt.toList =
      tag.brackets (children.map Tree.label) + Tree.weights children := h.weight_eq tag rfl hne
  -- A node without brackets weighs what its children weigh.
  have bare {x : Except Error (Expr Span)} (hne : tag ≠ .string)
      (hbrackets : tag.brackets (children.map Tree.label) = 0)
      (hx : Yields (fun e => Expr.cost tag.level e ≤ Tree.weights children) x) :
      Yields (fun e => Expr.cost tag.level e ≤ weight excerpt.toList) x := by
    rwa [heq hne, hbrackets, Int.zero_add]
  have atom (e : Expr Span) (hbinding : e.binding = Expr.atomBinding)
      (hweight : weight e.source ≤ weight excerpt.toList) :
      e.cost Expr.suffixBinding ≤ weight excerpt.toList := by
    rwa [Expr.cost_of_le (hbinding ▸ by decide)]
  change Yields (fun e => Expr.cost tag.level e ≤ weight excerpt.toList) _
  cases tag with
  | root =>
    rw [Tree.exprWithin]
    exact bare (by decide) rfl (below.rootWithin hn parts)
  | conditional =>
    rw [Tree.exprWithin]
    split
    · exact trivial
    · exact bare (by decide) rfl (below.conditionalWithin hn asks)
  | logicalOr | logicalAnd | comparison | multiplicative =>
    rw [Tree.exprWithin]
    exact bare (by decide) rfl (below.binaryWithin hn (h.inTier (by simp)))
  | additive =>
    rw [Tree.exprWithin]
    exact bare (by decide) rfl (below.additiveWithin hn (h.inTier (by simp)))
  | unary =>
    rw [Tree.exprWithin]
    exact bare (by decide) rfl (below.unaryWithin hn asks)
  | postfixed =>
    rw [Tree.exprWithin]
    exact bare (by decide) rfl (below.postfixedWithin hn asks)
  | primary =>
    rw [Tree.exprWithin, heq (by decide)]
    exact below.primaryWithin hn asks
  | integer =>
    have hzero := h.weight_eq_zero rfl
    rw [Tree.exprWithin, Tree.integer]
    split
    · exact atom _ rfl (le_of_eq_of_le (weight_integer _) (Int.le_of_eq hzero.symm))
    · exact trivial
  | float =>
    have hzero := h.weight_eq_zero rfl
    rw [Tree.exprWithin, Tree.float]
    split
    · rename_i value hvalue
      have hfinite := (Option.filter_eq_some_iff.mp hvalue).2
      exact atom _ rfl
        (le_of_eq_of_le (Binary64.weight_sourceText hfinite) (Int.le_of_eq hzero.symm))
    · exact trivial
  | string =>
    rw [Tree.exprWithin, Tree.string]
    split
    · rename_i value hvalue
      exact atom _ rfl
        (Int.le_of_eq (Quoted.weight_encode.trans (Quoted.weight_decode hvalue)))
    · exact trivial
  | list =>
    rw [Tree.exprWithin]
    refine (below.itemsWithin hn parts).bind fun es hes => atom _ rfl ?_
    rw [Expr.weight_list, heq (by decide)]
    exact Int.le_trans (Int.sub_le_sub_right hes 1) (Int.le_of_eq (Int.add_comm _ (-1)))
  | dict =>
    rw [Tree.exprWithin]
    refine (below.entriesWithin hn parts).bind fun es hes => atom _ rfl ?_
    rwa [Expr.weight_dict, heq (by decide), show Tag.brackets .dict _ = 0 from rfl, Int.zero_add]
  | literalDict =>
    rw [Tree.exprWithin]
    refine (below.literalEntriesWithin hn parts).bind fun es hes => atom _ rfl ?_
    rwa [Expr.weight_dict, heq (by decide), show Tag.brackets .literalDict _ = 0 from rfl,
      Int.zero_add]
  | lambdaExpr =>
    rw [Tree.exprWithin]
    exact bare (by decide) rfl (below.lambdaExprWithin hn parts)
  | lambda =>
    rw [Tree.exprWithin]
    exact bare (by decide) rfl (below.lambdaWithin hn parts)
  | functionCall =>
    rw [Tree.exprWithin]
    refine (below.callPartsWithin hn parts).bind fun called hcalled => ?_
    obtain ⟨scope, name, args⟩ := called
    obtain ⟨hname, hargs⟩ := hcalled
    refine atom (.call span scope name args) rfl ?_
    dsimp only at hname hargs
    rw [Expr.weight_call, hname, heq (by decide), show Tag.brackets .functionCall _ = 0 from rfl]
    omega
  | variableRef =>
    rw [Tree.exprWithin]
    refine (CostsBelow.scopedName parts).bind fun named hnamed => atom _ rfl ?_
    show weight (Scope.optionalText named.1 ++ named.2) ≤ _
    rw [weight_append, Scope.weight_optionalText, hnamed.1, heq (by decide), hnamed.2]
    rfl
  | optionRef =>
    rw [Tree.exprWithin]
    refine (CostsBelow.scopedName parts).bind fun named hnamed => atom _ rfl ?_
    show weight ('&' :: (Scope.optionalText named.1 ++ named.2)) ≤ _
    rw [weight_cons, weight_append, Scope.weight_optionalText, hnamed.1, heq (by decide), hnamed.2]
    rfl
  | envVariable =>
    rw [Tree.exprWithin.eq_def]
    dsimp only
    split
    · rename_i name
      refine (CostsBelow.nameOf (parts name (by simp))).bind fun u hu => atom _ rfl ?_
      show weight ('$' :: u) ≤ _
      rw [weight_cons, hu.1, heq (by decide), Tree.weights_cons, hu.2]
      rfl
    · exact trivial
  | register =>
    have hzero := h.weight_eq_zero rfl
    have hchars := h.all_isTokenChar rfl
    dsimp only [Tree.text] at hzero hchars
    rw [Tree.exprWithin, Tree.register.eq_def]
    split
    · rename_i name rest htext
      refine atom _ rfl (le_of_eq_of_le (weight_of_isTokenChar ?_)
        (Int.le_of_eq hzero.symm))
      rw [htext] at hchars
      simp only [List.all_cons, Bool.and_eq_true] at hchars
      show List.all ['@', name] isTokenChar = true
      simp [hchars.1, hchars.2.1]
    · exact trivial
  | _ => exact trivial

/-- What a source is read as is printed with no more weight than the source has. -/
theorem weight_source_le {limits : Limits} {source : List Char} {e : Expr Span}
    (h : parseWithin limits source = .ok e) : weight e.source ≤ weight source := by
  obtain ⟨stop, root, hparses, hroot⟩ := Denotes.parses_of_parseWithin h
  have hderives := hparses.derives
  obtain ⟨mid, t, -, hstop, hend, hnodes⟩ := Derives.expression_iff.mp hderives
  have htext : root.text = source := by
    have hmoves := hderives.moves_text.rest_eq
    rw [hend, List.append_nil] at hmoves
    exact hmoves.symm
  have hcost : Yields (fun e => e.cost 0 ≤ weight source)
      ((root.map Rule.tag).toExpr limits.exprDepth) := .charge fun budget => by
    have hyields := (hderives.weighed root (List.mem_singleton_self root)).cost_le budget
    rwa [Tree.label_map, hderives.span_eq.2, Tree.text_map, htext] at hyields
  rw [hroot] at hcost
  rw [← Expr.cost_zero]
  exact hcost

end Vimscript
