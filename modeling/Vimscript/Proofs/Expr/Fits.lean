import Vimscript.Proofs.Expr.Placed
import Vimscript.Proofs.Expr.Yields

/-!
# Where the nodes of an expression lie

What is built from a placed tree lies in the source as the tree does: every node of the expression
is over a text without blanks at its ends and has its parts inside it. Each way of building is taken
by itself, with trees of a smaller size taken for granted. The main result is `Tree.Placed.fits`.
-/

namespace Vimscript

open Text

/-- What is built from smaller placed trees lies where they do. -/
def FitsBelow (source : List Char) (size : Nat) : Prop :=
  ∀ t : Tree Tag, sizeOf t < size → t.Placed source → ∀ budget,
    Yields (Fits source t.span.start t.span.stop) (t.exprWithin budget)

namespace FitsBelow

open Vimscript.Tree

variable {source : List Char} {size budget : Nat} {span callSpan whole : Span} {t : Tree Tag}
  {ts : List (Tree Tag)} {k l m n : Nat} {e : Expr Span} {text : List Char}

/-- An additive operator joins two neighbours, makes the second the key of a field or extends a key
with it. -/
theorem applyAdditive {tight : Bool} {op : Tree Tag} {left right : Expr Span}
    (hleft : Fits source k l left) (hright : Fits source m n right) (hle : l ≤ m) :
    Yields (Fits source k n) (applyAdditive tight op left right text) := by
  have hplain : Yields (Fits source k n) ((binaryOp op).map fun op => Expr.join op left right) :=
    Yields.any.map fun o _ => hleft.pair hright hle rfl rfl
  unfold Tree.applyAdditive
  dsimp only
  split
  · exact Expr.dot_fits hleft hright hle text
  · split
    · split
      · exact Expr.extendKey?_fits hleft hright hle ‹_›
      · exact hplain
    · exact hplain

/-- A call stands over the whole of its callee and its arguments. -/
theorem callOf {callee : Expr Span} {args : List (Expr Span)} (htight : whole.Tight source)
    (hcallee : FitsInside source whole callee) (hargs : ∀ e ∈ args, FitsInside source whole e) :
    FitsOn source whole (callOf whole callee args) := by
  have hparts := List.forall_mem_cons.mpr ⟨hcallee, hargs⟩
  unfold Tree.callOf
  split
  · exact FitsOn.of_parts (e := .lambdaCall whole _ args) htight hparts
  · exact FitsOn.of_parts (e := .funcrefCall whole _ args) htight hparts

/-- What holds of both parts of each entry holds of all of them. -/
theorem forall_mem_entries {p : Expr Span → Prop} {entries : List (Expr Span × Expr Span)}
    (h : ∀ entry ∈ entries, p entry.1 ∧ p entry.2) :
    ∀ part ∈ entries.flatMap fun entry => [entry.1, entry.2], p part := by
  intro part hpart
  obtain ⟨entry, hentry, hpart⟩ := List.mem_flatMap.mp hpart
  obtain rfl | hpart := List.mem_cons.mp hpart
  · exact (h entry hentry).1
  · obtain rfl := List.mem_singleton.mp hpart
    exact (h entry hentry).2

variable (below : FitsBelow source size)

include below

/-- A level inside another stands inside the span of its node. -/
theorem charge (ht : sizeOf t < size) (h : t.Placed source) :
    Yields (FitsInside source t.span) (Tree.charge budget t.span fun b => t.exprWithin b) :=
  .charge fun budget => (below t ht h budget).mono fun _ => Fits.inside

/-- A conditional reaches from its condition to its last branch. -/
theorem conditionalWithin (hn : sizeOf ts ≤ size) (h : ∀ t ∈ ts, t.Placed source)
    (hgaps : Gapped source m n ts) : Yields (Fits source m n) (conditionalWithin budget span ts) := by
  induction hlength : ts.length using Nat.strongRecOn generalizing ts m with
  | ind length ih => ?_
  match ts with
  | [] => exact trivial
  | [operand] =>
    simp only [Tree.conditionalWithin]
    exact (below operand (by simp at hn; omega) (h operand (by simp)) budget).mono fun e he =>
      he.widen hgaps.1 hgaps.2
  | operand :: .node tag branchSpan excerpt parts :: rest =>
    simp only [List.cons.sizeOf_spec, Tree.node.sizeOf_spec] at hn
    obtain ⟨hfirst, hlink, hmore⟩ := hgaps
    have hplaced : (node tag branchSpan excerpt parts).Placed source := h _ (by simp)
    rw [Tree.conditionalWithin]
    refine (below operand (by omega) (h operand (by simp)) budget).bind fun left hleft => ?_
    have hright : Yields (Fits source branchSpan.stop n) (Tree.conditionalWithin budget span rest) :=
      ih _ (by simp at hlength; omega) (by omega) (fun t ht => h t (by simp [ht])) hmore rfl
    have hle := hplaced.le
    have hleft := hleft.widen hfirst hlink
    split
    · refine hright.bind fun right hright => ?_
      exact hleft.pair hright hle rfl rfl
    · rename_i branch
      simp only [List.cons.sizeOf_spec] at hn
      have hbranch : branch.Placed source := hplaced.parts branch (List.mem_singleton_self branch)
      refine (below.charge (by omega) hbranch).bind fun ifTrue htrue => ?_
      refine hright.bind fun right hright => ?_
      refine hleft.join hright hle rfl fun part hpart => ?_
      simp only [Expr.parts, List.mem_cons, List.not_mem_nil, or_false] at hpart
      rcases hpart with rfl | rfl | rfl
      · exact .inl rfl
      · exact .inr (.inr (htrue.mono (hplaced.inside branch (List.mem_singleton_self branch))))
      · exact .inr (.inl rfl)
    · exact trivial

/-- What is folded so far reaches to the operand in front of the rest of the run. -/
theorem runWithin {step : RunStep} (hn : sizeOf ts ≤ size) (h : ∀ t ∈ ts, t.Placed source)
    (hgaps : Gapped source m n ts)
    (hstep : ∀ {last op operand left l}, sizeOf operand < size → operand.Placed source →
      Fits source m l left → l ≤ operand.span.start →
        Yields (Fits source m operand.span.stop) (step last left op operand)) :
    Yields (Fits source m n) (runWithin budget step span ts) := by
  cases ts with
  | nil => exact trivial
  | cons first rest =>
    rw [List.cons.sizeOf_spec] at hn
    rw [Tree.runWithin]
    refine (below first (by omega) (h first List.mem_cons_self) budget).bind fun left hleft => ?_
    refine Yields.runFrom (fun _ left rest => sizeOf rest ≤ size ∧
      (∀ t ∈ rest, t.Placed source) ∧ ∃ l, Fits source m l left ∧ Gapped source l n rest) ?_ ?_ ?_
    · rintro last left op operand rest ⟨hn, h, l, hleft, hgaps⟩
      simp only [List.cons.sizeOf_spec] at hn
      refine (hstep (by omega) (h operand (by simp)) hleft (hgaps.le_second (h op (by simp)))).mono
        fun joined hjoined => ⟨by omega, fun t ht => h t (by simp [ht]), _, hjoined, hgaps.2.2⟩
    · rintro last left ⟨-, -, l, hleft, hgaps⟩
      exact hleft.widen hleft.start.boundary.1.gap hgaps
    · exact ⟨by omega, fun t ht => h t (List.mem_cons_of_mem first ht), _,
        hleft.widen hgaps.1 hleft.stop.boundary.2.gap, hgaps.2⟩

/-- A run of operators reaches from its first operand to its last. -/
theorem binaryWithin (hn : sizeOf ts ≤ size) (h : ∀ t ∈ ts, t.Placed source)
    (hgaps : Gapped source m n ts) : Yields (Fits source m n) (binaryWithin budget span ts) := by
  rw [binaryWithin_eq]
  refine below.runWithin hn h hgaps fun ht hplaced hleft hle => ?_
  refine (below _ ht hplaced budget).bind fun right hright => Yields.any.bind fun o _ => ?_
  exact hleft.pair hright hle rfl rfl

/-- So does an additive run, whatever its points and dashes make of it. -/
theorem additiveWithin (hn : sizeOf ts ≤ size) (h : ∀ t ∈ ts, t.Placed source)
    (hgaps : Gapped source m n ts) :
    Yields (Fits source m n) (additiveWithin budget span text ts) := by
  rw [additiveWithin_eq]
  refine below.runWithin hn h hgaps fun ht hplaced hleft hle => Yields.any.bind fun _ _ => ?_
  exact (below _ ht hplaced budget).bind fun right hright => applyAdditive hleft hright hle

/-- Prefix operators reach from the first of them to the end of the operand. -/
theorem unaryWithin (hn : sizeOf ts ≤ size) (h : ∀ t ∈ ts, t.Placed source)
    (hgaps : Gapped source m n ts) : Yields (Fits source m n) (unaryWithin budget span ts) := by
  induction ts generalizing m with
  | nil => exact trivial
  | cons op rest ih =>
    rw [List.cons.sizeOf_spec] at hn
    cases rest with
    | nil =>
      simp only [Tree.unaryWithin]
      exact (below op (by simp at hn; omega) (h op (by simp)) budget).mono fun e he =>
        he.widen hgaps.1 hgaps.2
    | cons next rest =>
      have hop := h op List.mem_cons_self
      simp only [Tree.unaryWithin]
      refine (ih (by omega) (fun t ht => h t (List.mem_cons_of_mem op ht)) hgaps.2).bind
        fun operand hoperand => ?_
      unfold applyUnary
      refine (Yields.expect .operator op).bind fun _ hlabel => ?_
      have htight := hop.tight (by rw [hlabel]; rfl)
      have hmerge := merge_of_le (a := op.span) (b := operand.mark) hop.le hoperand.start.le
        (Nat.le_of_lt hoperand.tight.lt)
      split
      · rename_i o _
        have hon := FitsOn.of_parts (e := .unary (op.span.merge operand.mark) o operand)
          (htight.merge hoperand.tight) fun part hpart => by
            obtain rfl := List.mem_singleton.mp hpart
            exact hoperand.inside_of (Span.inside_merge_right _ _)
        refine FitsOn.fits hon ?_ ?_
        · change Gap source m (op.span.merge operand.mark).start
          rw [hmerge]
          exact hgaps.1
        · change Gap source (op.span.merge operand.mark).stop n
          rw [hmerge]
          exact hoperand.stop
      · exact trivial

/-- Arguments stand inside the span around them. -/
theorem argsWithin (hn : sizeOf ts ≤ size) (h : ∀ t ∈ ts, t.Placed source)
    (hinside : ∀ t ∈ ts, t.span.Inside span) :
    Yields (fun es => ∀ e ∈ es, FitsInside source span e) (argsWithin budget ts) := by
  induction ts with
  | nil => exact fun e he => (List.not_mem_nil he).elim
  | cons t rest ih =>
    rw [List.cons.sizeOf_spec] at hn
    have hrest := ih (by omega) (fun t ht => h t (List.mem_cons_of_mem _ ht))
      fun t ht => hinside t (List.mem_cons_of_mem _ ht)
    have hplaced := h t List.mem_cons_self
    have hspan := hinside t List.mem_cons_self
    obtain ⟨tag, slotSpan, excerpt, parts⟩ := t
    rw [Tree.node.sizeOf_spec] at hn
    cases parts with
    | nil =>
      rw [Tree.argsWithin]
      split
      · exact hrest
      · exact trivial
    | cons part more =>
      rw [List.cons.sizeOf_spec] at hn
      have hpart := hplaced.parts part List.mem_cons_self
      rw [Tree.argsWithin]
      split
      · refine (below.charge (by omega) hpart).bind fun arg harg => ?_
        refine hrest.bind fun args hargs => List.forall_mem_cons.mpr ⟨harg.mono ?_, hargs⟩
        exact (hplaced.inside part List.mem_cons_self).trans hspan
      · exact trivial

/-- So do items. -/
theorem itemsWithin (hn : sizeOf ts ≤ size) (h : ∀ t ∈ ts, t.Placed source)
    (hinside : ∀ t ∈ ts, t.span.Inside span) :
    Yields (fun es => ∀ e ∈ es, FitsInside source span e) (itemsWithin budget ts) := by
  rw [itemsWithin_eq]
  refine Yields.mapM_forall fun t ht => ?_
  have hsize := List.sizeOf_lt_of_mem ht
  exact (below.charge (by omega) (h t ht)).mono fun e he => he.mono (hinside t ht)

/-- The key and the value of an entry are inside it, and the entry is inside the dictionary. -/
theorem entries {tag : Tag} {readKey : Tree Tag → Except Error (Expr Span)} (hn : sizeOf ts ≤ size)
    (h : ∀ t ∈ ts, t.Placed source) (hinside : ∀ t ∈ ts, t.span.Inside span)
    (hkey : ∀ key : Tree Tag, sizeOf key < size → key.Placed source →
      Yields (FitsInside source key.span) (readKey key)) :
    Yields (fun es => ∀ e ∈ es, FitsInside source span e.1 ∧ FitsInside source span e.2)
      (ts.mapM (entryWithin budget tag readKey)) := by
  refine Yields.mapM_forall fun t ht => Yields.entryWithin fun key value _ hchildren => ?_
  have hplaced := h t ht
  have hpart (part : Tree Tag) (hpart : part ∈ t.children) :
      sizeOf part < size ∧ part.Placed source ∧ part.span.Inside span :=
    ⟨by have := List.sizeOf_lt_of_mem hpart; have := sizeOf_children_lt ht; omega,
      hplaced.parts part hpart, (hplaced.inside part hpart).trans (hinside t ht)⟩
  obtain ⟨hkeySize, hkeyPlaced, hkeyInside⟩ := hpart key (by simp [hchildren])
  obtain ⟨hvalueSize, hvaluePlaced, hvalueInside⟩ := hpart value (by simp [hchildren])
  refine (hkey key hkeySize hkeyPlaced).mono fun k hk => ?_
  exact (below.charge hvalueSize hvaluePlaced).mono fun v hv =>
    ⟨hk.mono hkeyInside, hv.mono hvalueInside⟩

/-- The keys and the values of entries stand inside the span around the entries. -/
theorem entriesWithin (hn : sizeOf ts ≤ size) (h : ∀ t ∈ ts, t.Placed source)
    (hinside : ∀ t ∈ ts, t.span.Inside span) :
    Yields (fun es => ∀ e ∈ es, FitsInside source span e.1 ∧ FitsInside source span e.2)
      (entriesWithin budget ts) := by
  rw [entriesWithin_eq]
  exact below.entries hn h hinside fun key => below.charge

/-- In literal entries the keys stand where their tokens do. -/
theorem literalEntriesWithin (hn : sizeOf ts ≤ size) (h : ∀ t ∈ ts, t.Placed source)
    (hinside : ∀ t ∈ ts, t.span.Inside span) :
    Yields (fun es => ∀ e ∈ es, FitsInside source span e.1 ∧ FitsInside source span e.2)
      (literalEntriesWithin budget ts) := by
  rw [literalEntriesWithin_eq]
  refine below.entries hn h hinside fun key _ hplaced => ?_
  refine (Yields.expect .literalDictKey key).bind fun _ hlabel => ?_
  exact (FitsOn.leaf (e := .literal key.span (.string key.text))
    (hplaced.tight (by rw [hlabel]; rfl)) rfl).fits_self.inside

/-- A lambda stands over its braces. -/
theorem lambdaWithin (hn : sizeOf ts ≤ size) (h : ∀ t ∈ ts, t.Placed source)
    (hinside : ∀ t ∈ ts, t.span.Inside span) (htight : span.Tight source) :
    Yields (FitsOn source span) (lambdaWithin budget span ts) := by
  match ts with
  | [] | [_] | _ :: _ :: _ :: _ => exact trivial
  | [params, body] =>
    simp only [List.cons.sizeOf_spec] at hn
    simp only [Tree.lambdaWithin]
    refine Yields.any.bind fun names _ => ?_
    refine (below.charge (by omega) (h body (by simp))).bind fun e he => ?_
    refine FitsOn.of_parts (e := .lambda span names e) htight fun part hpart => ?_
    obtain rfl := List.mem_singleton.mp hpart
    exact he.mono (hinside body (by simp))

/-- Arguments below one of several nodes stand inside the span around all of them. -/
theorem slotsOf {t : Tree Tag} (hn : sizeOf ts ≤ size) (h : ∀ t ∈ ts, t.Placed source)
    (hinside : ∀ t ∈ ts, t.span.Inside span) (hmem : t ∈ ts) :
    Yields (fun es => ∀ e ∈ es, FitsInside source span e) (Tree.argsWithin budget t.children) := by
  have hplaced := h t hmem
  have hsize := sizeOf_children_lt hmem
  exact below.argsWithin (by omega) hplaced.parts fun u hu =>
    (hplaced.inside u hu).trans (hinside t hmem)

/-- The arguments of a call by name stand inside the span of the call. -/
theorem callPartsWithin (hn : sizeOf ts ≤ size) (h : ∀ t ∈ ts, t.Placed source)
    (hinside : ∀ t ∈ ts, t.span.Inside span) :
    Yields (fun parts => ∀ e ∈ parts.2.2, FitsInside source span e)
      (callPartsWithin budget callSpan ts) := by
  unfold Tree.callPartsWithin
  split
  · rename_i name tag argsSpan excerpt slots
    refine Yields.any.bind fun _ _ => ?_
    split
    · exact (below.slotsOf hn h hinside (t := node tag argsSpan excerpt slots) (by simp)).bind
        fun es hes => hes
    · exact trivial
  · rename_i scope name tag argsSpan excerpt slots
    refine Yields.any.bind fun _ _ => Yields.any.bind fun _ _ => ?_
    split
    · exact (below.slotsOf hn h hinside (t := node tag argsSpan excerpt slots) (by simp)).bind
        fun es hes => hes
    · exact trivial
  · exact trivial

/-- A lambda among the parts of a node. -/
theorem lambdaOf {t : Tree Tag} (hn : sizeOf ts ≤ size) (h : ∀ t ∈ ts, t.Placed source)
    (hmem : t ∈ ts) (hlabel : t.label = .lambda) :
    Yields (FitsOn source t.span) (Tree.lambdaWithin budget t.span t.children) := by
  have hplaced := h t hmem
  have hsize := sizeOf_children_lt hmem
  exact below.lambdaWithin (by omega) hplaced.parts hplaced.inside
    (hplaced.tight (by rw [hlabel]; rfl))

/-- A lambda and its arguments are inside what they are parts of. -/
theorem calledLambda {lambda args : Tree Tag} (hn : sizeOf [lambda, args] ≤ size)
    (h : ∀ t ∈ [lambda, args], t.Placed source)
    (hinside : ∀ t ∈ [lambda, args], t.span.Inside whole) :
    Yields (fun called => FitsInside source whole called.1 ∧
      ∀ e ∈ called.2, FitsInside source whole e) (calledLambda budget span lambda args) := by
  unfold Tree.calledLambda
  split
  · refine (below.lambdaOf hn h (by simp) ‹_›).bind fun callee hcallee => ?_
    have hcallee : FitsInside source whole callee :=
      ⟨hcallee.1, hcallee.2 ▸ hinside lambda (by simp)⟩
    split
    · exact (below.slotsOf hn h hinside (by simp)).bind fun es hes => ⟨hcallee, hes⟩
    · exact trivial
  · exact trivial

/-- A lambda that is called stands over its arguments as well. -/
theorem lambdaExprWithin (hn : sizeOf ts ≤ size) (h : ∀ t ∈ ts, t.Placed source)
    (htight : span.Tight source) (hgaps : Gapped source span.start span.stop ts) :
    Yields (Fits source span.start span.stop) (lambdaExprWithin budget span ts) := by
  have hinside := hgaps.inOrder.inside h
  match ts with
  | [] | .node _ _ _ _ :: .node _ _ _ _ :: _ :: _ => exact trivial
  | [.node tag lambdaSpan excerpt parts] =>
    rw [Tree.lambdaExprWithin]
    split
    · rename_i htag
      exact (below.lambdaOf hn h (t := node tag lambdaSpan excerpt parts) (by simp) htag).mono
        fun e he => he.fits hgaps.1 hgaps.2
    · exact trivial
  | [lambda, args] =>
    rw [lambdaExprWithin_pair]
    refine (below.calledLambda hn h hinside).bind fun called hcalled => ?_
    exact (FitsOn.of_parts (e := .lambdaCall span called.1 called.2) htight
      (List.forall_mem_cons.mpr hcalled)).fits_self

/-- A subscript makes an expression over its base and its brackets. -/
theorem subscriptWithin {base : Expr Span} (hn : sizeOf ts ≤ size) (h : ∀ t ∈ ts, t.Placed source)
    (hinside : ∀ t ∈ ts, t.span.Inside whole) (htight : whole.Tight source)
    (hbase : FitsInside source whole base) :
    Yields (FitsOn source whole) (subscriptWithin budget span whole base ts) := by
  have level (t : Tree Tag) (ht : t ∈ ts) : Yields (FitsInside source whole)
      (Tree.charge budget t.span fun budget => exprWithin budget t) :=
    (below.charge (Nat.lt_of_lt_of_le (List.sizeOf_lt_of_mem ht) hn) (h t ht)).mono
      fun e he => he.mono (hinside t ht)
  have slice {lower upper : Option (Expr Span)}
      (hlower : ∀ e ∈ lower, FitsInside source whole e)
      (hupper : ∀ e ∈ upper, FitsInside source whole e) :
      FitsOn source whole (.slice whole base lower upper) := by
    refine FitsOn.of_parts (e := .slice whole base lower upper) htight fun part hpart => ?_
    simp only [Expr.parts, List.mem_cons, List.mem_append, Option.mem_toList] at hpart
    rcases hpart with rfl | hpart | hpart
    · exact hbase
    · exact hlower part hpart
    · exact hupper part hpart
  unfold Tree.subscriptWithin
  split
  · split
    · exact slice (by simp) (by simp)
    · refine (level _ (by simp)).bind fun key hkey => ?_
      exact FitsOn.of_parts (e := .index whole base key) htight <| List.forall_mem_cons.mpr
        ⟨hbase, List.forall_mem_singleton.mpr hkey⟩
  · split
    · exact (level _ (by simp)).bind fun upper hupper =>
        slice (by simp) (by simpa using hupper)
    · split
      · exact (level _ (by simp)).bind fun lower hlower =>
          slice (by simpa using hlower) (by simp)
      · exact trivial
  · split
    · refine (level _ (by simp)).bind fun lower hlower => ?_
      exact (level _ (by simp)).bind fun upper hupper =>
        slice (by simpa using hlower) (by simpa using hupper)
    · exact trivial
  · exact trivial

/-- A method makes an expression over its receiver and its call. -/
theorem methodCallWithin {base : Expr Span} (hn : sizeOf ts ≤ size) (h : ∀ t ∈ ts, t.Placed source)
    (hinside : ∀ t ∈ ts, t.span.Inside whole) (htight : whole.Tight source)
    (hbase : FitsInside source whole base) :
    Yields (FitsOn source whole) (methodCallWithin budget span whole base ts) := by
  match ts with
  | [] | .node _ _ _ _ :: .node _ _ _ _ :: _ :: _ => exact trivial
  | [.node tag callSpan excerpt parts] =>
    rw [Tree.methodCallWithin]
    split
    · have hplaced := h (node tag callSpan excerpt parts) (by simp)
      have hcall := hinside (node tag callSpan excerpt parts) (by simp)
      rw [List.cons.sizeOf_spec, Tree.node.sizeOf_spec] at hn
      have hsize : sizeOf parts ≤ size := by omega
      refine (below.callPartsWithin hsize hplaced.parts fun u hu =>
        (hplaced.inside u hu).trans hcall).bind fun called hcalled => ?_
      exact FitsOn.of_parts (e := .call whole called.1 called.2.1 (base :: called.2.2)) htight <|
        List.forall_mem_cons.mpr ⟨hbase, hcalled⟩
    · exact trivial
  | [lambda, args] =>
    rw [methodCallWithin_pair]
    refine (below.calledLambda hn h hinside).bind fun called hcalled => ?_
    exact FitsOn.of_parts (e := .lambdaCall whole called.1 (base :: called.2)) htight <|
      List.forall_mem_cons.mpr ⟨hcalled.1, List.forall_mem_cons.mpr ⟨hbase, hcalled.2⟩⟩

/-- Each thing attached makes a base that reaches to its end. -/
theorem attachedWithin {base : Expr Span} (hbase : Fits source k m base) (hn : sizeOf ts ≤ size)
    (h : ∀ t ∈ ts, t.Placed source) (hgaps : Gapped source m n ts) :
    Yields (Fits source k n) (attachedWithin budget base ts) := by
  induction ts generalizing m base with
  | nil => exact hbase.widen hbase.start.boundary.1.gap hgaps
  | cons t rest ih =>
    have hplaced := h t List.mem_cons_self
    obtain ⟨hfirst, hrest⟩ := hgaps
    have hle := hfirst.le
    obtain ⟨tag, span, excerpt, parts⟩ := t
    rw [List.cons.sizeOf_spec, Tree.node.sizeOf_spec] at hn
    have hsize : sizeOf parts ≤ size := by omega
    have hbelow : FitsInside source (base.mark.merge span) base :=
      hbase.inside_of (Span.inside_merge_left _ _)
    have hinside (u : Tree Tag) (hu : u ∈ parts) : u.span.Inside (base.mark.merge span) :=
      (hplaced.inside u hu).trans (Span.inside_merge_right _ _)
    rw [Tree.attachedWithin.eq_def]
    dsimp only
    have goesOn {x : Except Error (Expr Span)} (hspan : span.Tight source)
        (hx : Yields (FitsOn source (base.mark.merge span)) x) :
        Yields (Fits source k n) (x >>= fun attached => Tree.attachedWithin budget attached rest) :=
      hx.bind fun attached hattached =>
        ih (hbase.extend hle (Nat.le_of_lt hspan.lt) hspan.boundary.2.gap hattached) (by omega)
          (fun t ht => h t (List.mem_cons_of_mem _ ht)) hrest
    split
    · have hspan : span.Tight source := hplaced.tight rfl
      exact goesOn hspan (below.subscriptWithin hsize hplaced.parts hinside
        (hbase.tight.merge hspan) hbelow)
    · have hspan : span.Tight source := hplaced.tight rfl
      exact goesOn hspan (below.methodCallWithin hsize hplaced.parts hinside
        (hbase.tight.merge hspan) hbelow)
    · have hspan : span.Tight source := hplaced.tight rfl
      exact goesOn hspan ((below.argsWithin hsize hplaced.parts hinside).map fun args hargs =>
        callOf (hbase.tight.merge hspan) hbelow hargs)
    · exact trivial

/-- A postfix node reaches from its primary to the last of what is attached to it. -/
theorem postfixedWithin (hn : sizeOf ts ≤ size) (h : ∀ t ∈ ts, t.Placed source)
    (hgaps : Gapped source m n ts) : Yields (Fits source m n) (postfixedWithin budget span ts) := by
  cases ts with
  | nil => exact trivial
  | cons first rest =>
    rw [List.cons.sizeOf_spec] at hn
    have hfirst := h first List.mem_cons_self
    simp only [Tree.postfixedWithin]
    refine (below first (by omega) hfirst budget).bind fun base hbase => ?_
    exact below.attachedWithin (hbase.widen hgaps.1 hbase.stop.boundary.2.gap) (by omega)
      (fun t ht => h t (List.mem_cons_of_mem first ht)) hgaps.2

/-- What stands between parentheses comes to be over them as well. -/
theorem primaryWithin (hn : sizeOf ts ≤ size) (h : ∀ t ∈ ts, t.Placed source)
    (hinside : ∀ t ∈ ts, t.span.Inside span) (htight : span.Tight source)
    (hgaps : ∀ inner, ts = [inner] → inner.label ≠ .conditional →
      Gapped source span.start span.stop ts) :
    Yields (Fits source span.start span.stop) (primaryWithin budget span ts) := by
  unfold Tree.primaryWithin
  split
  · rename_i inner
    rw [List.cons.sizeOf_spec] at hn
    have hinner := h inner List.mem_cons_self
    split
    · refine (below.charge (by omega) hinner).bind fun e he => ?_
      have he := he.mono (hinside inner List.mem_cons_self)
      have hon := FitsOn.of_parts (e := e.withMark span) (by rwa [Expr.mark_withMark])
        fun part hpart => by
          rw [Expr.mark_withMark]
          rw [Expr.parts_withMark] at hpart
          exact FitsInside.mono ⟨he.1.part hpart, he.1.here.2 part hpart⟩ he.2
      rw [Expr.mark_withMark] at hon
      exact hon.fits_self
    · rename_i hlabel
      have hgaps := hgaps inner rfl hlabel
      exact (below inner (by omega) hinner budget).mono fun e he => he.widen hgaps.1 hgaps.2
  · exact trivial

end FitsBelow

/-- What is built from a placed tree lies where the tree does, in any budget. -/
theorem Tree.Placed.fits {source : List Char} {t : Tree Tag} (h : t.Placed source) (budget : Nat) :
    Yields (Fits source t.span.start t.span.stop) (t.exprWithin budget) := by
  induction hsize : sizeOf t using Nat.strongRecOn generalizing t budget with
  | ind size ih => ?_
  have below : FitsBelow source size := fun u hu hplaced budget => ih _ hu hplaced budget rfl
  obtain ⟨tag, span, excerpt, children⟩ := t
  have hn : sizeOf children ≤ size := by
    rw [← hsize, Tree.node.sizeOf_spec]
    omega
  have leaf {e : Expr Span} (htight : span.Tight source) (hmark : e.mark = span)
      (hparts : e.parts = []) : Fits source span.start span.stop e := by
    subst hmark
    exact (FitsOn.leaf htight hparts).fits_self
  have parent {e : Expr Span} (htight : span.Tight source) (hmark : e.mark = span)
      (hparts : ∀ part ∈ e.parts, FitsInside source span part) :
      Fits source span.start span.stop e := by
    subst hmark
    exact (FitsOn.of_parts htight hparts).fits_self
  cases tag with
  | root => exact (h.label_ne_root rfl).elim
  | conditional =>
    rw [Tree.exprWithin]
    split
    · exact trivial
    · exact below.conditionalWithin hn h.parts (h.bare rfl)
  | logicalOr | logicalAnd | comparison | multiplicative =>
    rw [Tree.exprWithin]
    exact below.binaryWithin hn h.parts (h.bare rfl)
  | additive =>
    rw [Tree.exprWithin]
    exact below.additiveWithin hn h.parts (h.bare rfl)
  | unary =>
    rw [Tree.exprWithin]
    exact below.unaryWithin hn h.parts (h.bare rfl)
  | postfixed =>
    rw [Tree.exprWithin]
    exact below.postfixedWithin hn h.parts (h.bare rfl)
  | primary =>
    rw [Tree.exprWithin]
    refine below.primaryWithin hn h.parts h.inside (h.tight rfl) ?_
    rintro inner rfl hlabel
    exact h.bare (bne_iff_ne.mpr hlabel)
  | integer =>
    rw [Tree.exprWithin, Tree.integer]
    split
    · exact leaf (h.tight rfl) rfl rfl
    · exact trivial
  | float =>
    rw [Tree.exprWithin, Tree.float]
    split
    · exact leaf (h.tight rfl) rfl rfl
    · exact trivial
  | string =>
    rw [Tree.exprWithin, Tree.string]
    split
    · exact leaf (h.tight rfl) rfl rfl
    · exact trivial
  | list =>
    rw [Tree.exprWithin]
    refine (below.itemsWithin hn h.parts h.inside).bind fun es hes => ?_
    exact parent (h.tight rfl) rfl hes
  | dict =>
    rw [Tree.exprWithin]
    refine (below.entriesWithin hn h.parts h.inside).bind fun es hes => ?_
    exact parent (h.tight rfl) rfl (FitsBelow.forall_mem_entries hes)
  | literalDict =>
    rw [Tree.exprWithin]
    refine (below.literalEntriesWithin hn h.parts h.inside).bind fun es hes => ?_
    exact parent (h.tight rfl) rfl (FitsBelow.forall_mem_entries hes)
  | lambdaExpr =>
    rw [Tree.exprWithin]
    exact below.lambdaExprWithin hn h.parts (h.tight rfl) (h.bare rfl)
  | lambda =>
    rw [Tree.exprWithin]
    exact (below.lambdaWithin hn h.parts h.inside (h.tight rfl)).mono fun e he => he.fits_self
  | functionCall =>
    rw [Tree.exprWithin]
    refine (below.callPartsWithin hn h.parts h.inside).bind fun called hcalled => ?_
    exact parent (h.tight rfl) rfl hcalled
  | variableRef =>
    rw [Tree.exprWithin]
    exact Yields.any.bind fun _ _ => leaf (h.tight rfl) rfl rfl
  | optionRef =>
    rw [Tree.exprWithin]
    exact Yields.any.bind fun _ _ => leaf (h.tight rfl) rfl rfl
  | envVariable =>
    rw [Tree.exprWithin.eq_def]
    dsimp only
    split
    · exact Yields.any.bind fun _ _ => leaf (h.tight rfl) rfl rfl
    · exact trivial
  | register =>
    rw [Tree.exprWithin, Tree.register.eq_def]
    split
    · exact leaf (h.tight rfl) rfl rfl
    · exact trivial
  | _ => exact trivial

end Vimscript
