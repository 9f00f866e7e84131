import Vimscript.Proofs.Expr.Alike
import Vimscript.Proofs.Expr.Traversal

/-!
# Parts that read alike

Parts that read alike give results that agree: expressions of one shape with the same marks, or
refusals for one cause at places with the same mark, unless the first ran out of a smaller budget.
Runs of operators, lists of parts, lambdas and calls are taken by themselves here, with trees of a
smaller size taken for granted.
-/

namespace Vimscript

namespace Likeness

variable {Mark : Type} {k : Likeness Mark} {t t' : Tree Tag} {ts ts' : List (Tree Tag)}
  {span span' : Span}

/-- Trees smaller than a size read alike. -/
def AgreesBelow (k : Likeness Mark) (n : Nat) : Prop := ∀ (t t' : Tree Tag) (b b' : Nat),
  sizeOf t < n → k.Trees t t' → k.Budgets b b' →
    k.Results k.Exprs (t.exprWithin b) (t'.exprWithin b')

/-- Two lists of expressions of one shape with the same marks. -/
def Items (k : Likeness Mark) (items items' : List (Expr Span)) : Prop :=
  Expr.mapItems k.left items = Expr.mapItems k.right items'

/-- Two lists of entries of one shape with the same marks. -/
def Entries (k : Likeness Mark) (entries entries' : List (Expr Span × Expr Span)) : Prop :=
  Expr.mapEntries k.left entries = Expr.mapEntries k.right entries'

/-- Items that agree one by one agree as a list. -/
theorem Items.of_forall₂ {items items' : List (Expr Span)} (h : List.Forall₂ k.Exprs items items') :
    k.Items items items' := by
  induction h with
  | nil => rfl
  | cons he _ ih =>
    simp only [Items, Expr.mapItems, he.map_eq, show Expr.mapItems _ _ = _ from ih]

/-- Entries whose keys and values agree one by one agree as a list. -/
theorem Entries.of_forall₂ {entries entries' : List (Expr Span × Expr Span)}
    (h : List.Forall₂ (fun entry entry' => k.Exprs entry.1 entry'.1 ∧ k.Exprs entry.2 entry'.2)
      entries entries') : k.Entries entries entries' := by
  induction h with
  | nil => rfl
  | cons he _ ih =>
    simp only [Entries, Expr.mapEntries, he.1.map_eq, he.2.map_eq,
      show Expr.mapEntries _ _ = _ from ih]

/-- A key that stands for itself is read alike on both sides. -/
theorem Trees.literalKey (h : k.Trees t t') :
    k.Results k.Exprs (Tree.literalKey t) (Tree.literalKey t') := by
  unfold Tree.literalKey
  refine h.expect_bind fun htag => .pure ?_
  simp only [Exprs, Expr.map, h.span, h.text (by rw [htag]; rfl)]

/-- Steps that agree over operands smaller than a size, where the nodes from one operand to the next
have the gaps that are asked for. -/
def StepsAgree (k : Likeness Mark) (n : Nat) (gaps : List (Tree Tag) → List (Tree Tag) → Prop)
    (step step' : Tree.RunStep) : Prop :=
  ∀ {last last' op op' operand operand' left left'}, sizeOf operand < n → k.Trees op op' →
    k.Trees operand operand' → gaps [last, op, operand] [last', op', operand'] →
      k.Exprs left left' →
        k.Results k.Exprs (step last left op operand) (step' last' left' op' operand')

/-- Runs that are folded by steps that agree do. -/
theorem StepsAgree.runFrom {n : Nat} {gaps : List (Tree Tag) → List (Tree Tag) → Prop}
    {step step' : Tree.RunStep} (hstep : k.StepsAgree n gaps step step')
    (hspan : k.left span = k.right span') {last last' : Tree Tag} {left left' : Expr Span}
    (hleft : k.Exprs left left') (hn : sizeOf ts ≤ n) (h : k.Forest ts ts')
    (hgaps : ∀ m, gaps (((last :: ts).drop m).take 3) (((last' :: ts').drop m).take 3)) :
    k.Results k.Exprs (Tree.runFrom step span last left ts)
      (Tree.runFrom step' span' last' left' ts') := by
  induction last, left, ts using Tree.runFrom.induct generalizing last' left' ts' with
  | case1 last left =>
    obtain rfl := h.nil_left
    exact .pure hleft
  | case2 last left op =>
    obtain ⟨_, _, rfl, -, hnil⟩ := h.cons_left
    obtain rfl := hnil.nil_left
    exact .unexpected hspan
  | case3 last left op operand rest ih =>
    obtain ⟨op', _, rfl, hop, h⟩ := h.cons_left
    obtain ⟨operand', rest', rfl, hoperand, hrest⟩ := h.cons_left
    simp only [List.cons.sizeOf_spec] at hn
    rw [Tree.runFrom, Tree.runFrom]
    refine (hstep (by omega) hop hoperand (hgaps 0) hleft).bind fun joined joined' hjoined => ?_
    exact ih joined hjoined (by omega) hrest fun m => hgaps (m + 2)

section

variable {n b b' : Nat} (below : k.AgreesBelow n) (hb : k.Budgets b b')

include below hb

/-- A level inside another. -/
theorem AgreesBelow.charge (ht : sizeOf t < n) (h : k.Trees t t') :
    k.Results k.Exprs (Tree.charge b t.span fun b => t.exprWithin b)
      (Tree.charge b' t'.span fun b => t'.exprWithin b) :=
  .charge hb h.span fun _ _ hb => below _ _ _ _ ht h hb

/-- Roots agree: on both sides the one child that is no end of the input counts. -/
theorem AgreesBelow.rootWithin (hn : sizeOf ts ≤ n) (h : k.Forest ts ts')
    (hspan : k.left span = k.right span') :
    k.Results k.Exprs (Tree.rootWithin b span ts) (Tree.rootWithin b' span' ts') := by
  induction ts generalizing ts' with
  | nil =>
    obtain rfl := h.nil_left
    exact .unexpected hspan
  | cons t ts ih =>
    obtain ⟨u, us, rfl, ht, hrest⟩ := h.cons_left
    rw [List.cons.sizeOf_spec] at hn
    have hall : (ts.all fun other => other.label = .endOfInput) =
        us.all fun other => other.label = .endOfInput := by
      exact hrest.all_label (· = .endOfInput)
    simp only [Tree.rootWithin, ht.label, hall]
    split
    · exact ih (by omega) hrest
    · split
      · exact below _ _ _ _ (by omega) ht hb
      · exact .unexpected hspan

/-- Conditionals agree link by link, from the right. -/
theorem AgreesBelow.conditionalWithin (hn : sizeOf ts ≤ n) (h : k.Forest ts ts')
    (hspan : k.left span = k.right span') :
    k.Results k.Exprs (Tree.conditionalWithin b span ts) (Tree.conditionalWithin b' span' ts') := by
  induction hlength : ts.length using Nat.strongRecOn generalizing ts ts' with
  | ind length ih => ?_
  match ts with
  | [] =>
    obtain rfl := h.nil_left
    simp only [Tree.conditionalWithin]
    exact .unexpected hspan
  | [operand] =>
    obtain ⟨operand', _, rfl, hoperand, hnil⟩ := h.cons_left
    obtain rfl := hnil.nil_left
    simp only [Tree.conditionalWithin]
    exact below _ _ _ _ (by simp at hn; omega) hoperand hb
  | operand :: .node tag branchSpan excerpt parts :: rest =>
    obtain ⟨operand', _, rfl, hoperand, h⟩ := h.cons_left
    obtain ⟨⟨tag', branchSpan', excerpt', parts'⟩, rest', rfl, hbranch, hrest⟩ := h.cons_left
    obtain ⟨rfl, hbranchSpan, -, -, -, hparts⟩ := hbranch
    simp only [List.cons.sizeOf_spec, Tree.node.sizeOf_spec] at hn
    rw [Tree.conditionalWithin, Tree.conditionalWithin]
    refine (below _ _ _ _ (by omega) hoperand hb).bind fun left left' hleft => ?_
    have right := ih _ (by simp at hlength; omega) (by omega) hrest rfl
    split
    · refine right.bind fun right right' hright => .pure ?_
      simp only [Exprs, Expr.map, k.merge hleft.mark hright.mark, hleft.map_eq, hright.map_eq]
    · obtain ⟨branch', _, rfl, hbranch, hnil⟩ := hparts.cons_left
      obtain rfl := hnil.nil_left
      simp only [List.cons.sizeOf_spec] at hn
      refine (below.charge hb (by omega) hbranch).bind fun ifTrue ifTrue' hifTrue => ?_
      refine right.bind fun right right' hright => .pure ?_
      simp only [Exprs, Expr.map, k.merge hleft.mark hright.mark, hleft.map_eq, hright.map_eq,
        hifTrue.map_eq]
    · rename_i hcoalesce hternary
      split
      · exact (hcoalesce rfl).elim
      · obtain ⟨branch, _, rfl, -, hnil⟩ := hparts.cons_right
        obtain rfl := hnil.nil_right
        exact (hternary _ rfl rfl).elim
      · exact .unexpected hbranchSpan

/-- A run is folded from its first operand on, which agrees as well. -/
theorem AgreesBelow.runWithin {step step' : Tree.RunStep}
    (gaps : List (Tree Tag) → List (Tree Tag) → Prop) (hstep : k.StepsAgree n gaps step step')
    (hn : sizeOf ts ≤ n) (h : k.Forest ts ts') (hspan : k.left span = k.right span')
    (hgaps : ∀ m, gaps ((ts.drop m).take 3) ((ts'.drop m).take 3)) :
    k.Results k.Exprs (Tree.runWithin b step span ts) (Tree.runWithin b' step' span' ts') := by
  cases ts with
  | nil =>
    obtain rfl := h.nil_left
    exact .unexpected hspan
  | cons first rest =>
    obtain ⟨first', rest', rfl, hfirst, hrest⟩ := h.cons_left
    rw [List.cons.sizeOf_spec] at hn
    rw [Tree.runWithin, Tree.runWithin]
    exact (below _ _ _ _ (by omega) hfirst hb).bind fun left left' hleft =>
      hstep.runFrom hspan hleft (by omega) hrest hgaps

/-- Runs of other operators agree whatever the blanks are. -/
theorem AgreesBelow.binaryWithin (hn : sizeOf ts ≤ n) (h : k.Forest ts ts')
    (hspan : k.left span = k.right span') :
    k.Results k.Exprs (Tree.binaryWithin b span ts) (Tree.binaryWithin b' span' ts') := by
  rw [Tree.binaryWithin_eq, Tree.binaryWithin_eq]
  refine below.runWithin hb (fun _ _ => True) ?_ hn h hspan fun _ => trivial
  intro last last' op op' operand operand' left left' ht hop hoperand _ hleft
  refine (below _ _ _ _ ht hoperand hb).bind fun right right' hright => ?_
  refine hop.binaryOp.bind fun op _ h => ?_
  subst h
  exact hleft.join hright

/-- The blanks between the nodes of an additive run are the same on both sides. -/
def SameGaps (origin origin' : Nat) (text text' : List Char) (ts ts' : List (Tree Tag)) : Prop :=
  ∀ n, Tree.blankAmong origin text ((ts.drop n).take 3) =
    Tree.blankAmong origin' text' ((ts'.drop n).take 3)

/-- Additive runs agree if the blanks between their nodes are the same. -/
theorem AgreesBelow.additiveWithin {text text' : List Char}
    (hgaps : SameGaps span.start span'.start text text' ts ts')
    (hn : sizeOf ts ≤ n) (h : k.Forest ts ts') (hspan : k.left span = k.right span') :
    k.Results k.Exprs (Tree.additiveWithin b span text ts)
      (Tree.additiveWithin b' span' text' ts') := by
  rw [Tree.additiveWithin_eq, Tree.additiveWithin_eq]
  refine below.runWithin hb (fun nodes nodes' =>
    Tree.blankAmong span.start text nodes = Tree.blankAmong span'.start text' nodes') ?_ hn h hspan
      hgaps
  intro last last' op op' operand operand' left left' ht hop hoperand htight hleft
  refine hop.expect_bind fun htag => ?_
  rw [htight]
  exact (below _ _ _ _ ht hoperand hb).bind fun right right' hright =>
    hop.applyAdditive htag hleft hright hoperand.key?_text

/-- Prefix operators agree, the last one being applied first. -/
theorem AgreesBelow.unaryWithin (hn : sizeOf ts ≤ n) (h : k.Forest ts ts')
    (hspan : k.left span = k.right span') :
    k.Results k.Exprs (Tree.unaryWithin b span ts) (Tree.unaryWithin b' span' ts') := by
  induction ts generalizing ts' with
  | nil =>
    obtain rfl := h.nil_left
    simp only [Tree.unaryWithin]
    exact .unexpected hspan
  | cons op rest ih =>
    obtain ⟨op', rest', rfl, hop, hrest⟩ := h.cons_left
    rw [List.cons.sizeOf_spec] at hn
    cases rest with
    | nil =>
      obtain rfl := hrest.nil_left
      simp only [Tree.unaryWithin]
      exact below _ _ _ _ (by omega) hop hb
    | cons next rest =>
      have inner := ih (by omega) hrest
      obtain ⟨next', rest', rfl, -, -⟩ := hrest.cons_left
      simp only [Tree.unaryWithin]
      exact inner.bind fun operand operand' hoperand => hop.applyUnary hoperand

/-- Arguments agree, and places without one are left out on both sides. -/
theorem AgreesBelow.argsWithin (hn : sizeOf ts ≤ n) (h : k.Forest ts ts') :
    k.Results k.Items (Tree.argsWithin b ts) (Tree.argsWithin b' ts') := by
  induction ts generalizing ts' with
  | nil =>
    obtain rfl := h.nil_left
    simp only [Tree.argsWithin]
    exact .pure rfl
  | cons slot rest ih =>
    obtain ⟨⟨tag', span', excerpt', parts'⟩, rest', rfl, hslot, hrest⟩ := h.cons_left
    obtain ⟨tag, span, excerpt, parts⟩ := slot
    obtain ⟨rfl, hspan, -, -, -, hparts⟩ := hslot
    simp only [List.cons.sizeOf_spec, Tree.node.sizeOf_spec] at hn
    cases parts with
    | nil =>
      obtain rfl := hparts.nil_left
      rw [Tree.argsWithin, Tree.argsWithin]
      split
      · exact ih (by omega) hrest
      · exact .unexpected hspan
    | cons part more =>
      obtain ⟨part', more', rfl, hpart, -⟩ := hparts.cons_left
      rw [List.cons.sizeOf_spec] at hn
      rw [Tree.argsWithin, Tree.argsWithin]
      split
      · refine (below.charge hb (by omega) hpart).bind fun arg arg' harg => ?_
        refine (ih (by omega) hrest).bind fun args args' hargs => .pure ?_
        simp only [Items, Expr.mapItems, harg.map_eq, show Expr.mapItems _ args = _ from hargs]
      · exact .unexpected hspan

/-- Items agree one by one. -/
theorem AgreesBelow.itemsWithin (hn : sizeOf ts ≤ n) (h : k.Forest ts ts') :
    k.Results k.Items (Tree.itemsWithin b ts) (Tree.itemsWithin b' ts') := by
  rw [Tree.itemsWithin_eq, Tree.itemsWithin_eq]
  refine (h.mapM fun t ht t' hread => below.charge hb ?_ hread).mono fun _ _ => Items.of_forall₂
  exact Nat.lt_of_lt_of_le (List.sizeOf_lt_of_mem ht) hn

/-- Entries read alike if their keys do. -/
theorem AgreesBelow.entries {tag : Tag} {readKey readKey' : Tree Tag → Except Error (Expr Span)}
    (hkey : ∀ {key key' : Tree Tag}, sizeOf key < n → k.Trees key key' →
      k.Results k.Exprs (readKey key) (readKey' key')) (hn : sizeOf ts ≤ n) (h : k.Forest ts ts') :
    k.Results k.Entries (ts.mapM (Tree.entryWithin b tag readKey))
      (ts'.mapM (Tree.entryWithin b' tag readKey')) := by
  refine (h.mapM (R := fun entry entry' => k.Exprs entry.1 entry'.1 ∧ k.Exprs entry.2 entry'.2)
    fun t ht t' hread => ?_).mono fun _ _ => Entries.of_forall₂
  have hchildren := Tree.sizeOf_children_lt ht
  unfold Tree.entryWithin
  rw [← hread.label]
  rcases hread.children.pair_or with ⟨key, value, key', value', hts, hts', hk, hv⟩ | ⟨hne, hne'⟩
  · rw [hts] at hchildren
    simp only [List.cons.sizeOf_spec] at hchildren
    rw [hts, hts']
    dsimp only
    split
    · refine (hkey (by omega) hk).bind fun a a' ha => ?_
      exact (below.charge hb (by omega) hv).bind fun e e' he => .pure ⟨ha, he⟩
    · exact .unexpected hread.span
  · split
    · exact absurd ‹_› (hne _ _)
    · exact .unexpected hread.span

/-- Entries agree, with expressions as their keys. -/
theorem AgreesBelow.entriesWithin (hn : sizeOf ts ≤ n) (h : k.Forest ts ts') :
    k.Results k.Entries (Tree.entriesWithin b ts) (Tree.entriesWithin b' ts') := by
  rw [Tree.entriesWithin_eq, Tree.entriesWithin_eq]
  exact below.entries hb (fun ht hread => below.charge hb ht hread) hn h

/-- So do literal entries, with tokens as their keys. -/
theorem AgreesBelow.literalEntriesWithin (hn : sizeOf ts ≤ n) (h : k.Forest ts ts') :
    k.Results k.Entries (Tree.literalEntriesWithin b ts) (Tree.literalEntriesWithin b' ts') := by
  rw [Tree.literalEntriesWithin_eq, Tree.literalEntriesWithin_eq]
  exact below.entries hb (fun _ hread => hread.literalKey) hn h

/-- Lambdas agree if their parameters and their bodies do. -/
theorem AgreesBelow.lambdaWithin (hn : sizeOf ts ≤ n) (h : k.Forest ts ts')
    (hspan : k.left span = k.right span') :
    k.Results k.Exprs (Tree.lambdaWithin b span ts) (Tree.lambdaWithin b' span' ts') := by
  rcases h.pair_or with ⟨params, body, params', body', rfl, rfl, hparams, hbody⟩ | ⟨hne, hne'⟩
  · simp only [List.cons.sizeOf_spec] at hn
    rw [Tree.lambdaWithin, Tree.lambdaWithin]
    have names : k.Results Eq (Tree.paramNames params) (Tree.paramNames params') := by
      unfold Tree.paramNames
      refine hparams.expect_bind fun _ => ?_
      exact (hparams.children.mapM fun _ _ _ hname => hname.nameOf).mono fun _ _ hnames =>
        List.forall₂_eq_eq_eq ▸ hnames
    refine names.bind fun names _ h => ?_
    subst h
    refine (below.charge hb (by omega) hbody).bind fun e e' he => .pure ?_
    simp only [Exprs, Expr.map, hspan, he.map_eq]
  · rw [Tree.lambdaWithin, Tree.lambdaWithin]
    · exact .unexpected hspan
    · exact fun params body => hne' params body
    · exact fun params body => hne params body

/-- Arguments stand on both sides or on neither. -/
theorem AgreesBelow.args_bind {α : Type} {rel : α → α → Prop} {tag : Tag}
    {next next' : List (Expr Span) → Except Error α} (hn : sizeOf ts ≤ n) (h : k.Forest ts ts')
    (hspan : k.left span = k.right span')
    (hnext : ∀ args args', k.Items args args' → k.Results rel (next args) (next' args')) :
    k.Results rel
      (if tag = .callArgs then Tree.argsWithin b ts >>= next else Tree.unexpected span)
      (if tag = .callArgs then Tree.argsWithin b' ts' >>= next' else Tree.unexpected span') := by
  split
  · exact (below.argsWithin hb hn h).bind hnext
  · exact .unexpected hspan

/-- The parts of two calls of one function, with arguments of one shape. -/
def CallParts (k : Likeness Mark) (parts parts' : Option Scope × List Char × List (Expr Span)) :
    Prop := parts.1 = parts'.1 ∧ parts.2.1 = parts'.2.1 ∧ k.Items parts.2.2 parts'.2.2

/-- The parts of calls by name agree: scopes and names are the same. -/
theorem AgreesBelow.callPartsWithin (hn : sizeOf ts ≤ n) (h : k.Forest ts ts')
    (hspan : k.left span = k.right span') :
    k.Results k.CallParts (Tree.callPartsWithin b span ts)
      (Tree.callPartsWithin b' span' ts') := by
  match ts with
  | [] =>
    obtain rfl := h.nil_left
    exact .unexpected hspan
  | [_] =>
    obtain ⟨_, _, rfl, -, hnil⟩ := h.cons_left
    obtain rfl := hnil.nil_left
    exact .unexpected hspan
  | [name, .node tag argsSpan excerpt slots] =>
    obtain ⟨name', _, rfl, hname, h⟩ := h.cons_left
    obtain ⟨⟨tag', argsSpan', excerpt', slots'⟩, _, rfl, hargs, hnil⟩ := h.cons_left
    obtain rfl := hnil.nil_left
    obtain ⟨rfl, hargsSpan, -, -, -, hslots⟩ := hargs
    simp only [List.cons.sizeOf_spec, Tree.node.sizeOf_spec] at hn
    rw [Tree.callPartsWithin, Tree.callPartsWithin]
    refine hname.nameOf.bind fun name _ h => ?_
    subst h
    exact below.args_bind hb (by omega) hslots hargsSpan fun args args' hargs =>
      .pure ⟨rfl, rfl, hargs⟩
  | [scope, name, .node tag argsSpan excerpt slots] =>
    obtain ⟨scope', _, rfl, hscope, h⟩ := h.cons_left
    obtain ⟨name', _, rfl, hname, h⟩ := h.cons_left
    obtain ⟨⟨tag', argsSpan', excerpt', slots'⟩, _, rfl, hargs, hnil⟩ := h.cons_left
    obtain rfl := hnil.nil_left
    obtain ⟨rfl, hargsSpan, -, -, -, hslots⟩ := hargs
    simp only [List.cons.sizeOf_spec, Tree.node.sizeOf_spec] at hn
    rw [Tree.callPartsWithin, Tree.callPartsWithin]
    refine hscope.scopeOf.bind fun scope _ h => ?_
    subst h
    refine hname.nameOf.bind fun name _ h => ?_
    subst h
    exact below.args_bind hb (by omega) hslots hargsSpan fun args args' hargs =>
      .pure ⟨rfl, rfl, hargs⟩
  | _ :: _ :: _ :: _ :: _ =>
    obtain ⟨_, _, rfl, -, h⟩ := h.cons_left
    obtain ⟨_, _, rfl, -, h⟩ := h.cons_left
    obtain ⟨_, _, rfl, -, h⟩ := h.cons_left
    obtain ⟨_, _, rfl, -, h⟩ := h.cons_left
    rw [Tree.callPartsWithin, Tree.callPartsWithin]
    · exact .unexpected hspan
    all_goals simp

/-- Lambdas that are called agree with their arguments. -/
theorem AgreesBelow.calledLambda {lambda lambda' args args' : Tree Tag}
    (hn : sizeOf [lambda, args] ≤ n) (hlambda : k.Trees lambda lambda') (hargs : k.Trees args args')
    (hspan : k.left span = k.right span') :
    k.Results (fun called called' => k.Exprs called.1 called'.1 ∧ k.Items called.2 called'.2)
      (Tree.calledLambda b span lambda args) (Tree.calledLambda b' span' lambda' args') := by
  have hlambdaSize := Tree.sizeOf_children_lt (show lambda ∈ [lambda, args] by simp)
  have hargsSize := Tree.sizeOf_children_lt (show args ∈ [lambda, args] by simp)
  unfold Tree.calledLambda
  rw [← hlambda.label, ← hargs.label]
  split
  · refine (below.lambdaWithin hb (by omega) hlambda.children hlambda.span).bind fun e e' he => ?_
    exact below.args_bind hb (by omega) hargs.children hargs.span fun args args' hargs =>
      .pure ⟨he, hargs⟩
  · exact .unexpected hspan

/-- So do lambdas with arguments or without. -/
theorem AgreesBelow.lambdaExprWithin (hn : sizeOf ts ≤ n) (h : k.Forest ts ts')
    (hspan : k.left span = k.right span') :
    k.Results k.Exprs (Tree.lambdaExprWithin b span ts) (Tree.lambdaExprWithin b' span' ts') := by
  match ts with
  | [] =>
    obtain rfl := h.nil_left
    exact .unexpected hspan
  | [.node tag lambdaSpan excerpt parts] =>
    obtain ⟨⟨tag', lambdaSpan', excerpt', parts'⟩, _, rfl, hlambda, hnil⟩ := h.cons_left
    obtain rfl := hnil.nil_left
    obtain ⟨rfl, hlambdaSpan, -, -, -, hparts⟩ := hlambda
    simp only [List.cons.sizeOf_spec, Tree.node.sizeOf_spec] at hn
    rw [Tree.lambdaExprWithin, Tree.lambdaExprWithin]
    split
    · exact below.lambdaWithin hb (by omega) hparts hlambdaSpan
    · exact .unexpected hlambdaSpan
  | [lambda, args] =>
    obtain ⟨lambda', _, rfl, hlambda, h⟩ := h.cons_left
    obtain ⟨args', _, rfl, hargs, hnil⟩ := h.cons_left
    obtain rfl := hnil.nil_left
    rw [Tree.lambdaExprWithin_pair, Tree.lambdaExprWithin_pair]
    refine (below.calledLambda hb hn hlambda hargs hlambda.span).bind fun called called' hcalled => ?_
    refine .pure ?_
    simp only [Exprs, Expr.map, hspan, hcalled.1.map_eq,
      show Expr.mapItems _ called.2 = _ from hcalled.2]
  | _ :: _ :: _ :: _ =>
    obtain ⟨_, _, rfl, -, h⟩ := h.cons_left
    obtain ⟨_, _, rfl, -, h⟩ := h.cons_left
    obtain ⟨_, _, rfl, -, h⟩ := h.cons_left
    rw [Tree.lambdaExprWithin, Tree.lambdaExprWithin]
    · exact .unexpected hspan
    all_goals simp

end

end Likeness

end Vimscript
