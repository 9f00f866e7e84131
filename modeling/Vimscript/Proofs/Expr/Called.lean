import Vimscript.Proofs.Tightness

/-!
# Calls by name

An expression that is a call by name comes from one function call in the parse tree, under nodes
that stand for what they hold, in parentheses, or last among what is attached to a receiver. The
name of the call ends where its arguments open. It begins the node only where none of these stands
in front of it and the call has no scope.
-/

namespace Vimscript

open Pattern Text

/-- The name that is called, if an expression is a call by name. -/
def Expr.calledName? {Mark : Type} : Expr Mark → Option (List Char)
  | call _ _ name _ => some name
  | _ => none

/-- A node comes out as the call of a name in front of the arguments: whether the name stands first
in it, the token of the name, and the arguments. -/
inductive Tree.Calls : Bool → Tree Tag → Tree Tag → Tree Tag → Prop where
  | plain {span : Span} {excerpt : Excerpt} {name slots : Tree Tag} :
    Calls true (.node .functionCall span excerpt [name, slots]) name slots
  | withScope {span : Span} {excerpt : Excerpt} {scope name slots : Tree Tag} :
    Calls false (.node .functionCall span excerpt [scope, name, slots]) name slots
  | withReceiver {first : Bool} {span methodSpan : Span} {excerpt methodExcerpt : Excerpt}
    {front : List (Tree Tag)} {call name slots : Tree Tag} (hfront : front ≠ [])
    (h : Calls first call name slots) :
    Calls false (.node .postfixed span excerpt
      (front ++ [.node .methodCall methodSpan methodExcerpt [call]])) name slots
  | enclosed {first : Bool} {span : Span} {excerpt : Excerpt} {inner name slots : Tree Tag}
    (hinner : inner.label = .conditional) (h : Calls first inner name slots) :
    Calls false (.node .primary span excerpt [inner]) name slots
  | only {first : Bool} {tag : Tag} {span : Span} {excerpt : Excerpt} {inner name slots : Tree Tag}
    (hbare : (Tree.node tag span excerpt [inner]).isBare = true) (h : Calls first inner name slots) :
    Calls first (.node tag span excerpt [inner]) name slots

namespace Tree

/-- An expression that is a call by name has the name of a call that the node comes out as. -/
def Names (t : Tree Tag) (e : Expr Span) : Prop :=
  ∀ text, e.calledName? = some text → ∃ first name slots, t.Calls first name slots ∧ name.text = text

variable {budget : Nat} {span whole : Span} {excerpt : Excerpt} {t : Tree Tag} {ts : List (Tree Tag)}
  {left right e : Expr Span} {text : List Char}

/-- What is no call by name tells nothing of the nodes that it comes from. -/
theorem names_of_none (h : e.calledName? = none) : t.Names e := by
  intro text htext
  cases h.symm.trans htext

/-- A node over a single one comes out as the same call. -/
theorem Names.only {tag : Tag} (h : t.Names e) (hbare : (node tag span excerpt [t]).isBare = true) :
    (node tag span excerpt [t]).Names e := by
  intro text htext
  obtain ⟨first, name, slots, hcalls, hname⟩ := h text htext
  exact ⟨first, name, slots, .only hbare hcalls, hname⟩

/-- Parentheses leave a call a call. -/
theorem Names.enclosed (h : t.Names e) (ht : t.label = .conditional) :
    (node .primary span excerpt [t]).Names (e.withMark whole) := by
  intro text htext
  obtain ⟨first, name, slots, hcalls, hname⟩ := h text (by cases e <;> exact htext)
  exact ⟨false, name, slots, .enclosed ht hcalls, hname⟩

/-- An additive operator makes no call by name, since a call behind a point becomes that of a
field. -/
theorem applyAdditive_calledName? {tight : Bool} {op : Tree Tag} :
    Yields (fun e => e.calledName? = none) (applyAdditive tight op left right text) := by
  have hplain : Yields (fun e : Expr Span => e.calledName? = none)
      ((binaryOp op).map fun op => Expr.join op left right) :=
    Yields.any.map fun _ _ => rfl
  unfold applyAdditive
  dsimp only
  split
  · unfold Expr.dot
    split
    · rfl
    · split <;> rfl
  · split
    · split
      · rename_i extended hextended
        unfold Expr.extendKey? at hextended
        split at hextended <;> cases hextended
        rfl
      · exact hplain
    · exact hplain

/-- A step over operators that are folded with no regard to blanks joins two operands. -/
theorem binaryStep_calledName? {last op operand : Tree Tag} :
    Yields (fun e => e.calledName? = none) (binaryStep budget last left op operand) :=
  Yields.any.bind fun _ _ => Yields.any.bind fun _ _ => rfl

/-- A step over an additive operator makes no call by name either. -/
theorem additiveStep_calledName? {origin : Nat} {last op operand : Tree Tag} :
    Yields (fun e => e.calledName? = none) (additiveStep budget origin text last left op operand) :=
  Yields.any.bind fun _ _ => Yields.any.bind fun _ _ => applyAdditive_calledName?

/-- The parts of a call by name are its scope, its name and its arguments. -/
theorem callPartsWithin_names : Yields (fun parts => ∀ span excerpt, ∃ first name slots,
      (node .functionCall span excerpt ts).Calls first name slots ∧ name.text = parts.2.1)
    (callPartsWithin budget whole ts) := by
  have named (name : Tree Tag) : Yields (fun text => text = name.text) (nameOf name) := by
    unfold nameOf
    exact Yields.any.bind fun _ _ => rfl
  unfold callPartsWithin
  split
  · refine (named _).bind fun _ hname => ?_
    split
    · exact Yields.any.bind fun _ _ _ _ => ⟨true, _, _, .plain, hname.symm⟩
    · exact trivial
  · refine Yields.any.bind fun _ _ => (named _).bind fun _ hname => ?_
    split
    · exact Yields.any.bind fun _ _ _ _ => ⟨false, _, _, .withScope, hname.symm⟩
    · exact trivial
  · exact trivial

/-- A method that is called by name is a call with a receiver. -/
theorem methodCallWithin_names {base : Expr Span} :
    Yields (fun e => ∀ text, e.calledName? = some text → ∃ first call name slots, ts = [call] ∧
      call.Calls first name slots ∧ name.text = text) (methodCallWithin budget span whole base ts) := by
  unfold methodCallWithin
  split
  · rename_i tag callSpan callExcerpt parts
    split
    · rename_i htag
      subst htag
      refine callPartsWithin_names.bind fun called hcalled text htext => ?_
      obtain ⟨first, name, slots, hcalls, hname⟩ := hcalled callSpan callExcerpt
      exact ⟨first, _, name, slots, rfl, hcalls, hname.trans (Option.some.inj htext)⟩
    · exact trivial
  · split
    · refine Yields.any.bind fun callee _ => ?_
      split
      · exact Yields.any.bind fun args _ => nofun
      · exact trivial
    · exact trivial
  · exact trivial

/-- A subscript makes no call by name. -/
theorem subscriptWithin_calledName? {base : Expr Span} :
    Yields (fun e => e.calledName? = none) (subscriptWithin budget span whole base ts) := by
  unfold subscriptWithin
  split
  · split
    · rfl
    · exact Yields.any.bind fun _ _ => rfl
  · split
    · exact Yields.any.bind fun _ _ => rfl
    · split
      · exact Yields.any.bind fun _ _ => rfl
      · exact trivial
  · split
    · exact Yields.any.bind fun _ _ => Yields.any.bind fun _ _ => rfl
    · exact trivial
  · exact trivial

/-- Neither does a call of a value. -/
theorem callOf_calledName? {args : List (Expr Span)} : (callOf whole e args).calledName? = none := by
  unfold callOf
  split <;> rfl

/-- A lambda is no call by name. -/
theorem lambdaWithin_calledName? :
    Yields (fun e => e.calledName? = none) (lambdaWithin budget span ts) := by
  unfold lambdaWithin
  split
  · exact Yields.any.bind fun _ _ => Yields.any.bind fun _ _ => rfl
  · exact trivial

/-- Neither is a lambda that is called. -/
theorem lambdaExprWithin_calledName? :
    Yields (fun e => e.calledName? = none) (lambdaExprWithin budget span ts) := by
  unfold lambdaExprWithin
  split
  · split
    · exact lambdaWithin_calledName?
    · exact trivial
  · split
    · refine Yields.any.bind fun _ _ => ?_
      split
      · exact Yields.any.bind fun _ _ => rfl
      · exact trivial
    · exact trivial
  · exact trivial

/-- What is attached last tells whether a call by name comes out. -/
theorem attachedWithin_names {base : Expr Span} :
    Yields (fun e => ∀ text, e.calledName? = some text →
      ts = [] ∧ base.calledName? = some text ∨
        ∃ front span excerpt first call name slots, ts = front ++ [node .methodCall span excerpt [call]] ∧
          call.Calls first name slots ∧ name.text = text) (attachedWithin budget base ts) := by
  -- From the left: what is attached makes a new base for the rest, and only the last one counts.
  induction ts generalizing base with
  | nil => exact fun text htext => .inl ⟨rfl, htext⟩
  | cons t rest ih =>
    obtain ⟨tag, span, excerpt, parts⟩ := t
    have goesOn {x : Except Error (Expr Span)}
        (hx : Yields (fun e => ∀ text, e.calledName? = some text → ∃ first call name slots,
          node tag span excerpt parts = node .methodCall span excerpt [call] ∧
            call.Calls first name slots ∧ name.text = text) x) :
        Yields (fun e => ∀ text, e.calledName? = some text →
          node tag span excerpt parts :: rest = [] ∧ base.calledName? = some text ∨
            ∃ front span' excerpt' first call name slots, node tag span excerpt parts :: rest =
              front ++ [node .methodCall span' excerpt' [call]] ∧
                call.Calls first name slots ∧ name.text = text)
          (x >>= fun attached => attachedWithin budget attached rest) := by
      refine hx.bind fun attached hattached => ih.mono fun e he text htext => .inr ?_
      rcases he text htext with ⟨rfl, hlast⟩ | ⟨front, span', excerpt', first, call, name, slots, rfl, h⟩
      · obtain ⟨first, call, name, slots, ht, h⟩ := hattached text hlast
        exact ⟨[], span, excerpt, first, call, name, slots, congrArg (fun t => [t]) ht, h⟩
      · exact ⟨_ :: front, span', excerpt', first, call, name, slots, rfl, h⟩
    have none {x : Except Error (Expr Span)} (hx : Yields (fun e => e.calledName? = none) x) :
        Yields (fun e => ∀ text, e.calledName? = some text → ∃ first call name slots,
          node tag span excerpt parts = node .methodCall span excerpt [call] ∧
            call.Calls first name slots ∧ name.text = text) x :=
      hx.mono fun e he text htext => by cases he.symm.trans htext
    rw [attachedWithin.eq_def]
    dsimp only
    split
    · exact goesOn (none subscriptWithin_calledName?)
    · refine goesOn (methodCallWithin_names.mono fun e he text htext => ?_)
      obtain ⟨first, call, name, slots, rfl, h⟩ := he text htext
      exact ⟨first, call, name, slots, rfl, h⟩
    · exact goesOn (none (Yields.any.map fun args _ => callOf_calledName?))
    · exact trivial

section

variable {tag : Tag} (h : ∀ t ∈ ts, ∀ budget, Yields t.Names (t.exprWithin budget))

include h

/-- A conditional of one operand is that operand, and any other is no call. -/
theorem conditionalWithin_names :
    Yields (node .conditional whole excerpt ts).Names (conditionalWithin budget span ts) := by
  match ts with
  | [] => exact trivial
  | [operand] =>
    simp only [conditionalWithin]
    exact (h operand (List.mem_singleton_self operand) budget).mono fun e he => he.only rfl
  | operand :: .node tag branchSpan branchExcerpt parts :: rest =>
    rw [conditionalWithin]
    refine Yields.any.bind fun left _ => ?_
    split
    · exact Yields.any.bind fun _ _ => names_of_none rfl
    · exact Yields.any.bind fun _ _ => Yields.any.bind fun _ _ => names_of_none rfl
    · exact trivial

/-- A run of one operand is that operand, and a longer one is no call if its steps make none. -/
theorem runWithin_names {step : RunStep} (hbare : ∀ t, (node tag whole excerpt [t]).isBare = true)
    (hstep : ∀ last left op operand,
      Yields (fun e => e.calledName? = none) (step last left op operand)) :
    Yields (node tag whole excerpt ts).Names (runWithin budget step span ts) := by
  match ts with
  | [] => exact trivial
  | [operand] =>
    rw [runWithin]
    exact (h operand (List.mem_singleton_self operand) budget).bind fun e he =>
      he.only (hbare operand)
  | first :: op :: rest =>
    rw [runWithin]
    refine Yields.any.bind fun left _ => ?_
    -- Nothing is known of the first operand, and there is a step behind it.
    refine Yields.mono (Yields.runFrom (q := fun e => e.calledName? = none)
      (fun _ left ts => ts = [] → left.calledName? = none)
      (fun last left op operand rest _ => (hstep last left op operand).mono fun _ hjoined _ => hjoined)
      (fun _ _ hleft => hleft rfl) fun hnil => (List.cons_ne_nil _ _ hnil).elim) fun e he =>
        names_of_none he

/-- A prefix operator makes no call, and without one the node is its operand. -/
theorem unaryWithin_names :
    Yields (node .unary whole excerpt ts).Names (unaryWithin budget span ts) := by
  match ts with
  | [] => exact trivial
  | [operand] =>
    simp only [unaryWithin]
    exact (h operand (List.mem_singleton_self operand) budget).mono fun e he => he.only rfl
  | op :: next :: rest =>
    simp only [unaryWithin, applyUnary]
    refine Yields.any.bind fun operand _ => Yields.any.bind fun _ _ => ?_
    split
    · exact names_of_none rfl
    · exact trivial

/-- With nothing attached a postfix node is its primary, and otherwise a call comes from the last
method. -/
theorem postfixedWithin_names :
    Yields (node .postfixed whole excerpt ts).Names (postfixedWithin budget span ts) := by
  match ts with
  | [] => exact trivial
  | first :: rest =>
    simp only [postfixedWithin]
    refine (h first List.mem_cons_self budget).bind fun base hbase => ?_
    refine attachedWithin_names.mono fun e he text htext => ?_
    rcases he text htext with ⟨rfl, hlast⟩ | ⟨front, _, _, _, call, name, slots, rfl, hcalls, hname⟩
    · exact hbase.only rfl text hlast
    · exact ⟨false, name, slots, .withReceiver (List.cons_ne_nil first front) hcalls, hname⟩

/-- Parentheses leave a call a call, and other primaries are what they hold. -/
theorem primaryWithin_names :
    Yields (node .primary whole excerpt ts).Names (primaryWithin budget span ts) := by
  match ts with
  | [] | _ :: _ :: _ => exact trivial
  | [inner] =>
    have hinner := h inner (List.mem_singleton_self inner)
    rw [primaryWithin]
    split
    · rename_i hlabel
      exact Yields.bind (.charge hinner) fun e he => he.enclosed hlabel
    · rename_i hlabel
      exact (hinner budget).mono fun e he => he.only (bne_iff_ne.mpr hlabel)

end

/-- Whatever a placed node is made of, if it is a call by name, the node comes out as that call. -/
theorem Placed.names {source : List Char} (h : t.Placed source) (budget : Nat) :
    Yields t.Names (t.exprWithin budget) := by
  -- The induction is on the tree: a call by name is passed on by nodes over a single one, by
  -- parentheses and by methods.
  induction h generalizing budget with
  | @node tag span excerpt ts below _ _ _ _ _ ih =>
  have other {x : Except Error (Expr Span)} (hx : Yields (fun e => e.calledName? = none) x) :
      Yields (Tree.node tag span excerpt ts).Names x :=
    hx.mono fun e he => names_of_none he
  cases tag with
  | root => exact (below rfl).elim
  | conditional =>
    rw [exprWithin]
    split
    · exact trivial
    · exact conditionalWithin_names ih
  | logicalOr | logicalAnd | comparison | multiplicative =>
    rw [exprWithin]
    rw [binaryWithin_eq]
    exact runWithin_names ih (fun _ => rfl) fun _ _ _ _ => binaryStep_calledName?
  | additive =>
    rw [exprWithin]
    rw [additiveWithin_eq]
    exact runWithin_names ih (fun _ => rfl) fun _ _ _ _ => additiveStep_calledName?
  | unary =>
    rw [exprWithin]
    exact unaryWithin_names ih
  | postfixed =>
    rw [exprWithin]
    exact postfixedWithin_names ih
  | primary =>
    rw [exprWithin]
    exact primaryWithin_names ih
  | functionCall =>
    rw [exprWithin]
    refine callPartsWithin_names.bind fun called hcalled text htext => ?_
    obtain ⟨first, name, slots, hcalls, hname⟩ := hcalled span excerpt
    exact ⟨first, name, slots, hcalls, hname.trans (Option.some.inj htext)⟩
  | integer | float | string =>
    refine other ?_
    first | rw [exprWithin, integer] | rw [exprWithin, float] | rw [exprWithin, string]
    split
    · rfl
    · exact trivial
  | list | dict | literalDict | variableRef | optionRef =>
    refine other ?_
    rw [exprWithin]
    exact Yields.any.bind fun _ _ => rfl
  | lambdaExpr =>
    rw [exprWithin]
    exact other lambdaExprWithin_calledName?
  | lambda =>
    rw [exprWithin]
    exact other lambdaWithin_calledName?
  | envVariable =>
    refine other ?_
    rw [exprWithin.eq_def]
    dsimp only
    split
    · exact Yields.any.bind fun _ _ => rfl
    · exact trivial
  | register =>
    refine other ?_
    rw [exprWithin, register.eq_def]
    split
    · rfl
    · exact trivial
  | _ => exact trivial

/-- A node of tags that was derived where it stands. -/
def Laid (source : List Char) (t : Tree Tag) : Prop :=
  ∃ u : Tree Rule, u.map Rule.tag = t ∧ u.LaidIn source

namespace Laid

variable {source : List Char} {t u inner : Tree Tag} {span : Span} {excerpt : Excerpt}
  {ts : List (Tree Tag)} {r : Rule}

/-- What is laid out in a source stands in it. -/
theorem between (h : t.Laid source) : Between source t.span.start t.span.stop t.text := by
  obtain ⟨v, rfl, hlaid⟩ := h
  rw [span_map, text_map]
  exact hlaid.between

/-- It is in place there. -/
theorem placed (h : t.Laid source) : t.Placed source := by
  obtain ⟨v, rfl, here, stop, hhere, hlays⟩ := h
  exact (hlays.placed hhere).1 _ (List.mem_singleton_self _)

/-- Its children are laid out in the source as well. -/
theorem child (h : t.Laid source) (hu : u ∈ t.children) : u.Laid source := by
  obtain ⟨v, rfl, hlaid⟩ := h
  rw [children_map] at hu
  obtain ⟨w, hw, rfl⟩ := List.mem_map.mp hu
  exact ⟨w, rfl, hlaid.child hw⟩

/-- The children of a node whose rule is known are laid out from where it begins. -/
theorem below (h : (node r.tag span excerpt ts).Laid source) (hr : r.isToken = false)
    (hunique : r ∈ [.additive, .postfixed, .primary, .functionCall]) :
    ∃ here stop us, here.In source ∧ here.offset = span.start ∧ us.map (map Rule.tag) = ts ∧
      Derives r.pattern here stop us := by
  obtain ⟨v, hv, hlaid⟩ := h
  obtain rfl : v.label = r := Rule.eq_of_tag (by rw [← label_map, hv]; rfl) hunique
  obtain ⟨here, stop, hhere, hstart, -, hlays⟩ := hlaid.below hr
  refine ⟨here, stop, v.children, hhere, ?_, ?_, hlays.derives⟩
  · rw [hstart, ← span_map, hv]
    rfl
  · rw [← children_map, hv]
    rfl

/-- The name in a function call ends at the parenthesis that opens the arguments, and it begins the
call or stands behind a scope. -/
theorem callParts (h : (node .functionCall span excerpt ts).Laid source) :
    ∃ front name slots, ts = front ++ [name, slots] ∧ name.span.stop = slots.span.start ∧
      slots.text.head? = some '(' ∧ (front = [] ∧ Gap source span.start name.span.start ∨
        (∃ scope, front = [scope]) ∧ span.start < name.span.start) := by
  obtain ⟨here, stop, us, hhere, hstart, rfl, hderives⟩ := h.below (r := .functionCall) rfl (by decide)
  obtain ⟨inner, vs, _, hscope, hcall, rfl⟩ := Derives.seq_iff.mp (Derives.counted_iff.mp hderives)
  obtain ⟨mid, _, _, hname, hslots, rfl⟩ := Derives.seq_iff.mp hcall
  have hname := Derives.call_iff.mp hname
  have hslots := Derives.call_iff.mp hslots
  obtain ⟨name, rfl⟩ := hname.eq_singleton
  obtain ⟨slots, rfl⟩ := hslots.eq_singleton
  refine ⟨vs.map (map Rule.tag), name.map Rule.tag, slots.map Rule.tag, by simp, ?_, ?_, ?_⟩
  · rw [span_map, span_map, hname.span_eq.1, hslots.span_eq.1]
  · obtain ⟨c, u, hmove, hc⟩ := hslots.starts_cons rfl
    obtain rfl : c = '(' := eq_of_beq hc
    rw [text_map, hslots.moves_text.text_unique hmove]
    rfl
  · rw [← hstart, span_map, hname.span_eq.1]
    rcases Derives.opt_iff.mp (Derives.counted_iff.mp hscope) with ⟨rfl, rfl⟩ | hscope
    · exact .inl ⟨rfl, hhere.boundary.gap⟩
    · have hscope := Derives.call_iff.mp hscope
      obtain ⟨scope, rfl⟩ := hscope.eq_singleton
      obtain ⟨c, u, hmove, -⟩ := hscope.starts_cons rfl
      refine .inr ⟨⟨scope.map Rule.tag, rfl⟩, ?_⟩
      have := c.utf8Size_pos
      rw [hmove.offset_eq, byteLength_cons]
      dsimp only
      omega

/-- What stands between parentheses begins behind the first of them. -/
theorem lt_of_enclosed (h : (node .primary span excerpt [inner]).Laid source)
    (hinner : inner.label = .conditional) : span.start < inner.span.start := by
  obtain ⟨here, stop, us, -, hstart, hus, hderives⟩ := h.below (r := .primary) rfl (by decide)
  obtain ⟨t, rfl, rfl⟩ := List.map_eq_singleton_iff.mp hus
  rw [label_map] at hinner
  rw [span_map, ← hstart]
  rcases Derives.primary_iff.mp hderives with ⟨r, hr, hderives⟩ | hderives
  · have hother : ∀ r ∈ Derives.primaryRules, r.tag ≠ .conditional := by decide
    rw [hderives.span_eq.2] at hinner
    exact (hother r hr hinner).elim
  · obtain ⟨mid, us, vs, hopen, hmore, hsplit⟩ :=
      Derives.spaced_iff.mp (Derives.counted_iff.mp hderives)
    obtain ⟨place, ws, xs, hexpr, hclose, rfl⟩ := Derives.spaced_iff.mp hmore
    obtain ⟨hparen, rfl⟩ := Derives.text_iff.mp hopen
    obtain ⟨-, rfl⟩ := Derives.text_iff.mp hclose
    rw [List.nil_append, List.append_nil] at hsplit
    subst hsplit
    have hskip := (Cursor.moves_skipSpaces mid).offset_le
    have hmid : mid.offset = here.offset + 1 := hparen.offset_eq
    rw [(Derives.call_iff.mp hexpr).span_eq.1]
    dsimp only
    omega

/-- What is attached behind a primary begins behind it. -/
theorem lt_of_attached {front : List (Tree Tag)}
    (h : (node .postfixed span excerpt (front ++ [u])).Laid source) (hfront : front ≠ []) :
    span.start < u.span.start := by
  obtain ⟨first, more, rfl⟩ := List.exists_cons_of_ne_nil hfront
  obtain ⟨here, stop, us, -, -, hus, hderives⟩ := h.below (r := .postfixed) rfl (by decide)
  obtain ⟨rs, hrs, -⟩ := Rule.postfixed_labels hderives.labels
  have hprimary : first.label = .primary := by
    have hlabels := congrArg (List.map label) hus
    rw [List.map_map, show label ∘ map Rule.tag = Rule.tag ∘ label from funext label_map,
      ← List.map_map, hrs] at hlabels
    exact (List.cons.inj hlabels).1.symm
  have hfirst := (h.placed.parts first List.mem_cons_self).tight (by rw [hprimary]; rfl)
  have horder := h.placed.order
  have hinside := InOrder.inside horder.2 (fun v hv => h.placed.parts v (List.mem_cons_of_mem _ hv)) u
    (by simp)
  exact Nat.lt_of_le_of_lt horder.1 (Nat.lt_of_lt_of_le hfirst.lt hinside.1)

end Laid

/-- The name of a call ends where its arguments open. It stands first in the node, perhaps behind
blanks, or else something other than blanks stands in front of it. -/
theorem Calls.stands {source : List Char} {first : Bool} {t name slots : Tree Tag}
    (h : t.Calls first name slots) (hlaid : t.Laid source) :
    Between source name.span.start slots.span.start name.text ∧ slots.text.head? = some '(' ∧
      t.span.start ≤ name.span.start ∧
        (first = true → Gap source t.span.start name.span.start) ∧
          (first = false → t.span.start < name.span.start) := by
  induction h with
  | @plain span excerpt name slots =>
    have hname := (hlaid.child (u := name) (by simp [children])).between
    obtain ⟨front, _, _, hparts, hstop, hopen, ⟨rfl, hgap⟩ | ⟨⟨scope, rfl⟩, -⟩⟩ := hlaid.callParts
    · cases hparts
      exact ⟨hstop ▸ hname, hopen, hgap.le, fun _ => hgap, by simp⟩
    · cases hparts
  | @withScope span excerpt scope name slots =>
    have hname := (hlaid.child (u := name) (by simp [children])).between
    obtain ⟨front, _, _, hparts, hstop, hopen, ⟨rfl, -⟩ | ⟨⟨scope, rfl⟩, hlt⟩⟩ := hlaid.callParts
    · cases hparts
    · cases hparts
      exact ⟨hstop ▸ hname, hopen, Nat.le_of_lt hlt, by simp, fun _ => hlt⟩
  | @withReceiver first span methodSpan excerpt methodExcerpt front call name slots hfront h ih =>
    have hmethod := hlaid.child (u := .node .methodCall methodSpan methodExcerpt [call])
      (List.mem_append_right front (List.mem_singleton_self _))
    obtain ⟨hname, hopen, hle, -⟩ := ih (hmethod.child (List.mem_singleton_self _))
    have hattached := hlaid.lt_of_attached hfront
    have hcall := (hmethod.placed.inside call (List.mem_singleton_self _)).1
    have hlt := Nat.lt_of_lt_of_le hattached (Nat.le_trans hcall hle)
    exact ⟨hname, hopen, Nat.le_of_lt hlt, by simp, fun _ => hlt⟩
  | @enclosed first span excerpt inner name slots hinner h ih =>
    obtain ⟨hname, hopen, hle, -⟩ := ih (hlaid.child (List.mem_singleton_self _))
    have hlt := Nat.lt_of_lt_of_le (hlaid.lt_of_enclosed hinner) hle
    exact ⟨hname, hopen, Nat.le_of_lt hlt, by simp, fun _ => hlt⟩
  | @only first tag span excerpt inner name slots hbare h ih =>
    obtain ⟨hname, hopen, hle, hfirst, hbehind⟩ := ih (hlaid.child (List.mem_singleton_self _))
    have hgap := (hlaid.placed.bare hbare).1
    exact ⟨hname, hopen, Nat.le_trans hgap.le hle, fun h => hgap.trans (hfirst h),
      fun h => Nat.lt_of_le_of_lt hgap.le (hbehind h)⟩

end Tree

end Vimscript
