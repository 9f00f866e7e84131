import Vimscript.Proofs.Expr.Weighed
import Vimscript.Proofs.Expr.Yields

/-!
# What is built from parts costs no more than their text

The expression of a node, printed where something that binds like the node is wanted, weighs no
more than the text of the node did. Here this is shown of what stands below a primary, as long as
it holds of all smaller trees: an operator costs what its operands cost, and what stands between
brackets costs what it does by itself.
-/

namespace Vimscript

open Text

/-- What is built from smaller weighed trees costs no more than their texts weigh. -/
def CostsBelow (size : Nat) : Prop :=
  ∀ t : Tree Tag, sizeOf t < size → t.Weighed → ∀ budget,
    Yields (fun e => e.cost t.label.level ≤ weight t.text) (t.exprWithin budget)

namespace CostsBelow

open Vimscript.Tree Vimscript.Expr

variable {size budget tier : Nat} {span : Span} {t : Tree Tag} {ts : List (Tree Tag)}
  {left : Expr Span} {text : List Char} {w : Int}

/-- An operator token has no weight. -/
theorem binaryOp (h : t.InTier tier) :
    Yields (fun op => op.tier = tier ∧ weight t.text = 0) (binaryOp t) := by
  unfold Tree.binaryOp
  refine (Yields.expect .operator t).bind fun _ hlabel => ?_
  split
  · exact ⟨h.tier_eq hlabel _ ‹_›, h.weighed.weight_eq_zero (by rw [hlabel]; rfl)⟩
  · exact trivial

/-- A field of a point pays with its bracket for the parentheses that its base may need; a dash goes
on with a key that is printed between quotes. -/
theorem applyAdditive {tight : Bool} {op : Tree Tag} {right : Expr Span} (hleft : left.cost 4 ≤ w)
    (hright : right.cost 5 ≤ weight text) (hop : op.InTier 4) :
    Yields (fun e => e.cost 4 ≤ w + weight text)
      (applyAdditive tight op left right (trim text)) := by
  have hplain : Yields (fun e => e.cost 4 ≤ w + weight text)
      ((Tree.binaryOp op).map fun op => Expr.join op left right) :=
    (binaryOp hop).map fun o ho => by
      rw [cost_join ho.1]
      exact Int.add_le_add hleft hright
  have htrim : weight (trim text) ≤ weight text := Int.le_of_eq weight_trim
  unfold Tree.applyAdditive
  dsimp only
  split
  · exact Int.le_trans (cost_dot_le hright htrim) (Int.add_le_add_right hleft _)
  · split
    · split
      · rename_i extended hextended
        show extended.cost 4 ≤ _
        rw [cost_extendKey? hextended]
        exact Int.add_le_add hleft htrim
      · exact hplain
    · exact hplain

/-- Parts that cost no more than their nodes weigh cost no more together. -/
theorem costs_le_weights {es : List (Expr Span)}
    (h : List.Forall₂ (fun t e => e.cost 0 ≤ weight t.text) ts es) : costs es ≤ weights ts := by
  induction h with
  | nil => exact Int.le_refl 0
  | cons he _ ih =>
    rw [costs_cons, weights_cons]
    exact Int.add_le_add he ih

/-- Keys and values that cost no more than their entries weigh cost no more together. -/
theorem entryCosts_le_weights {es : List (Expr Span × Expr Span)}
    (h : List.Forall₂ (fun t entry => entry.1.cost 0 + entry.2.cost 0 ≤ weight t.text) ts es) :
    costs (es.flatMap fun entry => [entry.1, entry.2]) ≤ weights ts := by
  induction h with
  | nil => exact Int.le_refl 0
  | cons he _ ih =>
    rw [List.flatMap_cons, costs_append, costs_cons, costs_cons, costs_nil, Int.add_zero,
      weights_cons]
    exact Int.add_le_add he ih

/-- Names have no weight, nor have the nodes that they are read from. -/
theorem weights_of_names {names : List (List Char)}
    (h : List.Forall₂ (fun t name => weight name = 0 ∧ weight t.text = 0) ts names) :
    (∀ name ∈ names, weight name = 0) ∧ weights ts = 0 := by
  induction h with
  | nil => exact ⟨List.forall_mem_nil _, rfl⟩
  | cons hname _ ih =>
    refine ⟨List.forall_mem_cons.mpr ⟨hname.1, ih.1⟩, ?_⟩
    rw [weights_cons, hname.2, ih.2]
    rfl

/-- A name token weighs nothing, and so does the name. -/
theorem nameOf (h : t.Weighed) :
    Yields (fun name => weight name = 0 ∧ weight t.text = 0) (nameOf t) := by
  unfold Tree.nameOf
  refine (Yields.expect .name t).bind fun _ hlabel => ?_
  have hname := h.weight_eq_zero (by rw [hlabel]; rfl)
  exact ⟨hname, hname⟩

/-- A scope token weighs nothing. -/
theorem scopeOf (h : t.Weighed) : Yields (fun _ => weight t.text = 0) (scopeOf t) := by
  unfold Tree.scopeOf
  refine (Yields.expect .scope t).bind fun _ hlabel => ?_
  split
  · exact h.weight_eq_zero (by rw [hlabel]; rfl)
  · exact trivial

/-- Parameters weigh nothing, one by one and in their node. -/
theorem paramNames (h : t.Weighed) :
    Yields (fun names => (∀ name ∈ names, weight name = 0) ∧ weight t.text = 0) (paramNames t) := by
  unfold Tree.paramNames
  refine (Yields.expect .lambdaParams t).bind fun _ hlabel => ?_
  refine (Yields.mapM fun u hu => nameOf (h.parts u hu)).mono fun names hnames => ?_
  rw [h.weight_eq .lambdaParams hlabel (by decide), show Tag.brackets .lambdaParams _ = 0 from rfl,
    Int.zero_add]
  exact weights_of_names hnames

/-- A name with or without a scope weighs nothing. -/
theorem scopedName (h : ∀ t ∈ ts, t.Weighed) :
    Yields (fun parts => weight parts.2 = 0 ∧ weights ts = 0) (scopedName span ts) := by
  unfold Tree.scopedName
  split
  · refine (nameOf (h _ (by simp))).bind fun name hname => ⟨hname.1, ?_⟩
    rw [weights_cons, weights_nil, hname.2]
    rfl
  · refine (scopeOf (h _ (by simp))).bind fun scope hscope => ?_
    refine (nameOf (h _ (by simp))).bind fun name hname => ⟨hname.1, ?_⟩
    rw [weights_cons, weights_cons, weights_nil, hscope, hname.2]
    rfl
  · exact trivial

variable (below : CostsBelow size)

include below

/-- A part at a level that it reaches. -/
theorem operand {level : Nat} (ht : sizeOf t < size) (h : t.Weighed)
    (hlevel : level ≤ t.label.level) :
    Yields (fun e => e.cost level ≤ weight t.text) (t.exprWithin budget) :=
  (below t ht h budget).mono fun _ he => Int.le_trans (cost_mono hlevel) he

/-- A part between brackets. -/
theorem charge (ht : sizeOf t < size) (h : t.Weighed) :
    Yields (fun e => e.cost 0 ≤ weight t.text)
      (Tree.charge budget t.span fun b => t.exprWithin b) :=
  .charge fun _ => below.operand ht h (Nat.zero_le _)

/-- The rest of a conditional is its last part, at the level of the whole. -/
theorem conditionalWithin (hn : sizeOf ts ≤ size) (h : ∀ t ∈ ts, t.Weighed ∧ 1 ≤ t.label.level) :
    Yields (fun e => e.cost 0 ≤ weights ts) (conditionalWithin budget span ts) := by
  induction hlength : ts.length using Nat.strongRecOn generalizing ts with
  | ind length ih => ?_
  match ts with
  | [] => exact trivial
  | [operand] =>
    simp only [Tree.conditionalWithin]
    rw [weights_cons, weights_nil, Int.add_zero]
    exact below.operand (by simp at hn; omega) (h operand (by simp)).1 (Nat.zero_le _)
  | operand :: .node tag branchSpan excerpt parts :: rest =>
    simp only [List.cons.sizeOf_spec, Tree.node.sizeOf_spec] at hn
    have hbranch : (node tag branchSpan excerpt parts).Weighed := (h _ (by simp)).1
    rw [Tree.conditionalWithin, weights_cons, weights_cons]
    obtain ⟨hweighed, hlevel⟩ := h operand (by simp)
    refine (below.operand (by omega) hweighed hlevel).bind fun left hleft => ?_
    have hright : Yields (fun e => e.cost 0 ≤ weights rest)
        (Tree.conditionalWithin budget span rest) :=
      ih _ (by simp at hlength; omega) (by omega) (fun t ht => h t (by simp [ht])) rfl
    split
    · refine hright.bind fun right hright => ?_
      have hmark := hbranch.weight_eq_zero rfl
      show cost 0 (.falsy _ left right) ≤ _
      rw [cost_zero, weight_falsy]
      exact le_of_le_of_eq (Int.add_le_add hleft hright) (by omega)
    · rename_i branch
      simp only [List.cons.sizeOf_spec] at hn
      refine (below.charge (by omega) (hbranch.parts branch (by simp [children]))).bind
        fun ifTrue htrue => ?_
      refine hright.bind fun right hright => ?_
      have hmark := hbranch.weight_eq .ternaryThen rfl (by decide)
      simp only [children, Tag.brackets, weights_cons, weights_nil] at hmark
      show cost 0 (.ternary _ left ifTrue right) ≤ _
      rw [cost_zero, weight_ternary]
      have hcost := Int.add_le_add (Int.add_le_add hleft htrue) hright
      exact le_of_le_of_eq hcost (by omega)
    · exact trivial

/-- What is folded so far costs no more than what has been read of the run. -/
theorem runWithin {step : RunStep} (hn : sizeOf ts ≤ size) (h : ∀ t ∈ ts, t.InTier tier)
    (hstep : ∀ {last op operand left w}, sizeOf operand < size → op.InTier tier →
      operand.InTier tier → left.cost tier ≤ w →
        Yields (fun e => e.cost tier ≤ w + weight op.text + weight operand.text)
          (step last left op operand)) :
    Yields (fun e => e.cost tier ≤ weights ts) (runWithin budget step span ts) := by
  cases ts with
  | nil => exact trivial
  | cons first rest =>
    rw [List.cons.sizeOf_spec] at hn
    have hfirst := h first List.mem_cons_self
    rw [Tree.runWithin]
    refine (below.operand (by omega) hfirst.weighed (Nat.le_of_lt hfirst.tighter)).bind
      fun left hleft => ?_
    refine Yields.runFrom (fun _ left more => sizeOf more ≤ size ∧
      (∀ t ∈ more, t.InTier tier) ∧ ∃ w, left.cost tier ≤ w ∧ w + weights more = weights (first :: rest))
      ?_ ?_ ⟨by omega, fun t ht => h t (List.mem_cons_of_mem first ht), _, hleft,
        (weights_cons ..).symm⟩
    · rintro last left op operand more ⟨hn, h, w, hleft, hall⟩
      simp only [List.cons.sizeOf_spec] at hn
      rw [weights_cons, weights_cons] at hall
      exact (hstep (by omega) (h op (by simp)) (h operand (by simp)) hleft).mono fun joined hjoined =>
        ⟨by omega, fun t ht => h t (by simp [ht]), _, hjoined, by omega⟩
    · rintro last left ⟨-, -, w, hleft, hall⟩
      rw [weights_nil, Int.add_zero] at hall
      exact hall ▸ hleft

/-- Operators of one tier cost what their operands cost. -/
theorem binaryWithin (hn : sizeOf ts ≤ size) (h : ∀ t ∈ ts, t.InTier tier) :
    Yields (fun e => e.cost tier ≤ weights ts) (binaryWithin budget span ts) := by
  rw [binaryWithin_eq]
  refine below.runWithin hn h fun ht hop hoperand hleft => ?_
  refine (below.operand ht hoperand.weighed hoperand.tighter).bind fun right hright => ?_
  refine (binaryOp hop).bind fun o ho => ?_
  show (Expr.join o _ right).cost tier ≤ _
  rw [cost_join ho.1, ho.2, Int.add_zero]
  exact Int.add_le_add hleft hright

/-- So do additive ones, although they may make fields. -/
theorem additiveWithin (hn : sizeOf ts ≤ size) (h : ∀ t ∈ ts, t.InTier 4) :
    Yields (fun e => e.cost 4 ≤ weights ts) (additiveWithin budget span text ts) := by
  rw [additiveWithin_eq]
  refine below.runWithin hn h fun ht hop hoperand hleft => ?_
  refine (Yields.expect .operator _).bind fun _ hlabel => ?_
  refine (below.operand ht hoperand.weighed hoperand.tighter).bind fun right hright => ?_
  rw [hop.weighed.weight_eq_zero (by rw [hlabel]; rfl), Int.add_zero]
  exact applyAdditive hleft hright hop

/-- Prefix operators add no weight. -/
theorem unaryWithin (hn : sizeOf ts ≤ size)
    (h : ∀ t ∈ ts, t.Weighed ∧ suffixBinding ≤ t.label.level) :
    Yields (fun e => e.cost unaryBinding ≤ weights ts) (unaryWithin budget span ts) := by
  induction ts with
  | nil => exact trivial
  | cons op rest ih =>
    rw [List.cons.sizeOf_spec] at hn
    obtain ⟨hweighed, hlevel⟩ := h op List.mem_cons_self
    cases rest with
    | nil =>
      simp only [Tree.unaryWithin]
      rw [weights_cons, weights_nil, Int.add_zero]
      exact below.operand (by simp at hn; omega) hweighed (Nat.le_trans (by decide) hlevel)
    | cons next rest =>
      simp only [Tree.unaryWithin]
      refine (ih (by omega) fun t ht => h t (List.mem_cons_of_mem op ht)).bind
        fun operand hoperand => ?_
      unfold applyUnary
      refine (Yields.expect .operator op).bind fun _ hlabel => ?_
      have hmark := hweighed.weight_eq_zero (by rw [hlabel]; rfl)
      split
      · rename_i o _
        show cost unaryBinding (.unary _ o operand) ≤ _
        rw [cost_of_le (Nat.le_refl unaryBinding), weight_unary, weights_cons, hmark,
          Int.zero_add]
        exact hoperand
      · exact trivial

/-- Arguments cost no more than the places for them weigh. -/
theorem argsWithin (hn : sizeOf ts ≤ size) (h : ∀ t ∈ ts, t.Weighed) :
    Yields (fun es => costs es ≤ weights ts) (argsWithin budget ts) := by
  induction ts with
  | nil => exact Int.le_refl 0
  | cons t rest ih =>
    rw [List.cons.sizeOf_spec] at hn
    have hrest := ih (by omega) fun t ht => h t (List.mem_cons_of_mem _ ht)
    have hweighed := h t List.mem_cons_self
    obtain ⟨tag, slotSpan, excerpt, parts⟩ := t
    rw [Tree.node.sizeOf_spec] at hn
    have hslot (htag : tag = .callArg) :
        weight (node tag slotSpan excerpt parts).text = weights parts := by
      subst htag
      have heq := hweighed.weight_eq .callArg rfl (by decide)
      rwa [show Tag.brackets _ _ = 0 from rfl, Int.zero_add] at heq
    cases parts with
    | nil =>
      rw [Tree.argsWithin]
      split
      · rw [weights_cons, hslot ‹_›, weights_nil, Int.zero_add]
        exact hrest
      · exact trivial
    | cons part more =>
      rw [List.cons.sizeOf_spec] at hn
      rw [Tree.argsWithin]
      split
      · rename_i htag
        -- Nothing stands behind the part of an argument, so no text is passed over.
        have hmore : more = [] := by
          cases hweighed with
          | node _ _ _ _ single =>
            have := single htag
            rw [List.length_cons] at this
            exact List.length_eq_zero_iff.mp (by omega)
        refine (below.charge (by omega) (hweighed.parts part List.mem_cons_self)).bind
          fun arg harg => ?_
        refine hrest.bind fun args hargs => ?_
        show costs (arg :: args) ≤ _
        rw [costs_cons, weights_cons, hslot htag, hmore, weights_cons, weights_nil, Int.add_zero]
        exact Int.add_le_add harg hargs
      · exact trivial

/-- Items cost no more than their texts weigh. -/
theorem itemsWithin (hn : sizeOf ts ≤ size) (h : ∀ t ∈ ts, t.Weighed) :
    Yields (fun es => costs es ≤ weights ts) (itemsWithin budget ts) := by
  rw [itemsWithin_eq]
  exact (Yields.mapM fun t ht =>
    below.charge (Nat.lt_of_lt_of_le (List.sizeOf_lt_of_mem ht) hn) (h t ht)).mono
      fun es => costs_le_weights

/-- An entry costs what its key and its value cost. -/
theorem entries {tag : Tag} {readKey : Tree Tag → Except Error (Expr Span)}
    (htag : tag = .dictEntry ∨ tag = .literalDictEntry) (hn : sizeOf ts ≤ size)
    (h : ∀ t ∈ ts, t.Weighed) (hkey : ∀ key : Tree Tag, sizeOf key < size → key.Weighed →
      Yields (fun e => e.cost 0 ≤ weight key.text) (readKey key)) :
    Yields (fun es => costs (es.flatMap fun entry => [entry.1, entry.2]) ≤ weights ts)
      (ts.mapM (entryWithin budget tag readKey)) := by
  refine (Yields.mapM (R := fun t entry => entry.1.cost 0 + entry.2.cost 0 ≤ weight t.text)
    fun t ht => Yields.entryWithin fun key value hlabel hchildren => ?_).mono
      fun es => entryCosts_le_weights
  have hpart (part : Tree Tag) (hpart : part ∈ t.children) :
      sizeOf part < size ∧ part.Weighed := by
    have := List.sizeOf_lt_of_mem hpart
    have := sizeOf_children_lt ht
    exact ⟨by omega, (h t ht).parts part hpart⟩
  obtain ⟨hkeySize, hkeyWeighed⟩ := hpart key (by simp [hchildren])
  obtain ⟨hvalueSize, hvalueWeighed⟩ := hpart value (by simp [hchildren])
  refine (hkey key hkeySize hkeyWeighed).mono fun k hk => ?_
  refine (below.charge hvalueSize hvalueWeighed).mono fun v hv => ?_
  have heq := (h t ht).weight_eq tag hlabel (by rcases htag with rfl | rfl <;> decide)
  have hbare : tag.brackets (t.children.map label) = 0 := by rcases htag with rfl | rfl <;> rfl
  rw [hbare, hchildren, weights_cons, weights_cons, weights_nil] at heq
  dsimp only
  omega

/-- Keys and values cost no more than the entries weigh. -/
theorem entriesWithin (hn : sizeOf ts ≤ size) (h : ∀ t ∈ ts, t.Weighed) :
    Yields (fun es => costs (es.flatMap fun entry => [entry.1, entry.2]) ≤ weights ts)
      (entriesWithin budget ts) := by
  rw [entriesWithin_eq]
  exact below.entries (.inl rfl) hn h fun key => below.charge

/-- A key that stands for itself is printed between quotes. -/
theorem literalEntriesWithin (hn : sizeOf ts ≤ size) (h : ∀ t ∈ ts, t.Weighed) :
    Yields (fun es => costs (es.flatMap fun entry => [entry.1, entry.2]) ≤ weights ts)
      (literalEntriesWithin budget ts) := by
  rw [literalEntriesWithin_eq]
  refine below.entries (.inr rfl) hn h fun key _ _ => Yields.any.bind fun _ _ => ?_
  show (Expr.literal key.span (.string key.text)).cost 0 ≤ weight key.text
  rw [cost_zero]
  exact Int.le_of_eq Quoted.weight_encode

/-- A lambda costs what its body costs, since braces weigh nothing. -/
theorem lambdaWithin (hn : sizeOf ts ≤ size) (h : ∀ t ∈ ts, t.Weighed) :
    Yields (fun e => e.cost suffixBinding ≤ weights ts) (lambdaWithin budget span ts) := by
  match ts with
  | [] | [_] | _ :: _ :: _ :: _ => exact trivial
  | [params, body] =>
    simp only [List.cons.sizeOf_spec] at hn
    simp only [Tree.lambdaWithin]
    refine (paramNames (h params (by simp))).bind fun names hnames => ?_
    refine (below.charge (by omega) (h body (by simp))).bind fun e he => ?_
    show cost suffixBinding (.lambda span names e) ≤ _
    rw [cost_of_le (show suffixBinding ≤ atomBinding by decide), weight_lambda _ _ hnames.1]
    simp only [weights_cons, weights_nil, hnames.2]
    omega

/-- Arguments among the parts of a node. -/
theorem slotsOf (hn : sizeOf ts ≤ size) (h : ∀ t ∈ ts, t.Weighed) (hmem : t ∈ ts)
    (hlabel : t.label = .callArgs) :
    Yields (fun es => 1 + costs es ≤ weight t.text) (Tree.argsWithin budget t.children) := by
  have hweighed := h t hmem
  have hsize := sizeOf_children_lt hmem
  refine (below.argsWithin (by omega) hweighed.parts).mono fun es hes => ?_
  rw [hweighed.weight_eq .callArgs hlabel (by decide)]
  exact Int.add_le_add_left hes 1

/-- A call by name costs its arguments and the parenthesis in front of them. -/
theorem callPartsWithin {callSpan : Span} (hn : sizeOf ts ≤ size) (h : ∀ t ∈ ts, t.Weighed) :
    Yields (fun parts => weight parts.2.1 = 0 ∧ 1 + costs parts.2.2 ≤ weights ts)
      (callPartsWithin budget callSpan ts) := by
  unfold Tree.callPartsWithin
  split
  · rename_i name tag argsSpan excerpt slots
    refine (nameOf (h name (by simp))).bind fun _ hname => ?_
    split
    · rename_i htag
      refine (below.slotsOf hn h (t := node tag argsSpan excerpt slots) (by simp) htag).bind
        fun es hes => ⟨hname.1, ?_⟩
      simp only [weights_cons, weights_nil, hname.2]
      omega
    · exact trivial
  · rename_i scope name tag argsSpan excerpt slots
    refine (scopeOf (h scope (by simp))).bind fun _ hscope => ?_
    refine (nameOf (h name (by simp))).bind fun _ hname => ?_
    split
    · rename_i htag
      refine (below.slotsOf hn h (t := node tag argsSpan excerpt slots) (by simp) htag).bind
        fun es hes => ⟨hname.1, ?_⟩
      simp only [weights_cons, weights_nil, hscope, hname.2]
      omega
    · exact trivial
  · exact trivial

/-- A lambda among the parts of a node. -/
theorem lambdaOf (hn : sizeOf ts ≤ size) (h : ∀ t ∈ ts, t.Weighed) (hmem : t ∈ ts)
    (hlabel : t.label = .lambda) :
    Yields (fun e => e.cost suffixBinding ≤ weight t.text)
      (Tree.lambdaWithin budget t.span t.children) := by
  have hweighed := h t hmem
  have hsize := sizeOf_children_lt hmem
  refine (below.lambdaWithin (by omega) hweighed.parts).mono fun e he => ?_
  rw [hweighed.weight_eq .lambda hlabel (by decide)]
  exact Int.le_trans he (Int.le_of_eq (Int.zero_add _).symm)

/-- A lambda and its arguments, whose parentheses pay for a pair that the lambda may need. -/
theorem calledLambda {lambda args : Tree Tag} (hn : sizeOf [lambda, args] ≤ size)
    (h : ∀ t ∈ [lambda, args], t.Weighed) :
    Yields (fun called => called.1.cost suffixBinding + (1 + costs called.2) ≤
      weights [lambda, args]) (calledLambda budget span lambda args) := by
  unfold Tree.calledLambda
  split
  · refine (below.lambdaOf hn h (by simp) ‹_›).bind fun callee hcallee => ?_
    split
    · refine (below.slotsOf hn h (by simp) ‹_›).bind fun es hes => ?_
      rw [weights_cons, weights_cons, weights_nil, Int.add_zero]
      exact Int.add_le_add hcallee hes
    · exact trivial
  · exact trivial

/-- A lambda that is called stands bare in front of its arguments. -/
theorem lambdaExprWithin (hn : sizeOf ts ≤ size) (h : ∀ t ∈ ts, t.Weighed) :
    Yields (fun e => e.cost suffixBinding ≤ weights ts) (lambdaExprWithin budget span ts) := by
  match ts with
  | [] | .node _ _ _ _ :: .node _ _ _ _ :: _ :: _ => exact trivial
  | [.node tag lambdaSpan excerpt parts] =>
    rw [Tree.lambdaExprWithin]
    split
    · rename_i htag
      rw [weights_cons, weights_nil, Int.add_zero]
      exact below.lambdaOf hn h (t := node tag lambdaSpan excerpt parts) (by simp) htag
    · exact trivial
  | [callee, slots] =>
    rw [lambdaExprWithin_pair]
    refine (below.calledLambda hn h).bind fun called hcalled => ?_
    show cost suffixBinding (.lambdaCall span called.1 called.2) ≤ _
    rw [cost_of_le (Nat.le_refl suffixBinding), weight_lambdaCall]
    omega

end CostsBelow

end Vimscript
