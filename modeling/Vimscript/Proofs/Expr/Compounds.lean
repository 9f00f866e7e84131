import Vimscript.Proofs.Expr.Builds

/-!
# Lists, calls and tokens from their parts

Items, entries and arguments build lists of shapes, one part after the other, and what is attached
behind a primary builds a shape over that of its base. Lambdas, references and calls by name build
what their names and parts say, and each token builds its value.
-/

namespace Vimscript.Tree

variable {t : Tree Tag} {ts parts : List (Tree Tag)} {span span' : Span}
  {excerpt excerpt' : Excerpt} {e e' : Expr Unit}

/-- A result is a list of expressions of shapes. -/
def HasShapes (result : Except Error (List (Expr Span))) (shapes : List (Expr Unit)) : Prop :=
  ∃ items, result = .ok items ∧ Expr.mapItems (fun _ => ()) items = shapes

/-- Budgets from some number on make expressions of shapes from the items of a list. -/
def BuildsItems (ts : List (Tree Tag)) (shapes : List (Expr Unit)) : Prop :=
  FromSomeOn fun budget => HasShapes (itemsWithin budget ts) shapes

/-- Budgets from some number on make expressions of shapes from the places of arguments. -/
def BuildsArgs (ts : List (Tree Tag)) (shapes : List (Expr Unit)) : Prop :=
  FromSomeOn fun budget => HasShapes (argsWithin budget ts) shapes

/-- Budgets from some number on make pairs of expressions of shapes from the entries of a
dictionary. -/
def BuildsEntries (ts : List (Tree Tag)) (shapes : List (Expr Unit × Expr Unit)) : Prop :=
  FromSomeOn fun budget => ∃ entries, entriesWithin budget ts = .ok entries ∧
    Expr.mapEntries (fun _ => ()) entries = shapes

/-- Budgets from some number on make pairs of keys and expressions of shapes from the entries of a
literal dictionary. -/
def BuildsLiteralEntries (ts : List (Tree Tag)) (shapes : List (Expr Unit × Expr Unit)) : Prop :=
  FromSomeOn fun budget => ∃ entries, literalEntriesWithin budget ts = .ok entries ∧
    Expr.mapEntries (fun _ => ()) entries = shapes

variable {es : List (Expr Unit)} {entries : List (Expr Unit × Expr Unit)}

/-- No items build no shapes. -/
theorem BuildsItems.nil : BuildsItems [] [] := .of_all fun _ => ⟨[], rfl, rfl⟩

/-- An item in front of others adds its shape. -/
theorem BuildsItems.cons (h : Builds t e) (h' : BuildsItems ts es) :
    BuildsItems (t :: ts) (e :: es) := by
  refine (h.inside.and h').mono ?_
  rintro budget ⟨⟨item, hitem, rfl⟩, items, hitems, rfl⟩
  refine ⟨item :: items, ?_, rfl⟩
  rw [itemsWithin]
  simp only [hitem, hitems, bind, Except.bind]
  rfl

/-- No places for arguments build no shapes. -/
theorem BuildsArgs.nil : BuildsArgs [] [] := .of_all fun _ => ⟨[], rfl, rfl⟩

/-- A place left empty adds no argument. -/
theorem BuildsArgs.skip (h : BuildsArgs ts es) :
    BuildsArgs (.node .callArg span excerpt [] :: ts) es := by
  refine h.mono fun budget h => ?_
  simp only [argsWithin, if_true]
  exact h

/-- A place that holds an argument adds its shape. -/
theorem BuildsArgs.cons (h : Builds t e) (h' : BuildsArgs ts es) :
    BuildsArgs (.node .callArg span excerpt [t] :: ts) (e :: es) := by
  refine (h.inside.and h').mono ?_
  rintro budget ⟨⟨arg, harg, rfl⟩, args, hargs, rfl⟩
  refine ⟨arg :: args, ?_, rfl⟩
  simp only [argsWithin, if_true, harg, hargs, bind, Except.bind]
  rfl

/-- No entries build no pairs. -/
theorem BuildsEntries.nil : BuildsEntries [] [] := .of_all fun _ => ⟨[], rfl, rfl⟩

/-- An entry in front of others adds its key and its value. -/
theorem BuildsEntries.cons {key value : Tree Tag} (hkey : Builds key e) (hvalue : Builds value e')
    (h : BuildsEntries ts entries) :
    BuildsEntries (.node .dictEntry span excerpt [key, value] :: ts) ((e, e') :: entries) := by
  refine ((hkey.inside.and hvalue.inside).and h).mono ?_
  rintro budget ⟨⟨⟨a, ha, rfl⟩, b, hb, rfl⟩, rest, hrest, rfl⟩
  refine ⟨(a, b) :: rest, ?_, rfl⟩
  rw [entriesWithin]
  simp only [ha, hb, hrest, bind, Except.bind]
  rfl

/-- No literal entries build no pairs. -/
theorem BuildsLiteralEntries.nil : BuildsLiteralEntries [] [] := .of_all fun _ => ⟨[], rfl, rfl⟩

/-- The key of a literal dictionary stands for itself. -/
theorem BuildsLiteralEntries.cons {key value : Tree Tag} (hkey : key.label = .literalDictKey)
    (hvalue : Builds value e') (h : BuildsLiteralEntries ts entries) :
    BuildsLiteralEntries (.node .literalDictEntry span excerpt [key, value] :: ts)
      ((.literal () (.string key.text), e') :: entries) := by
  refine (hvalue.inside.and h).mono ?_
  rintro budget ⟨⟨b, hb, rfl⟩, rest, hrest, rfl⟩
  refine ⟨(.literal key.span (.string key.text), b) :: rest, ?_, rfl⟩
  rw [literalEntriesWithin]
  simp only [expect, hkey, if_true, hb, hrest, bind, Except.bind]
  rfl

/-- A list is that of its items. -/
theorem BuildsItems.list (h : BuildsItems ts es) :
    Builds (.node .list span excerpt ts) (.list () es) := by
  refine h.mono ?_
  rintro budget ⟨items, hitems, rfl⟩
  refine ⟨.list span items, ?_, rfl⟩
  simp only [exprWithin, hitems, bind, Except.bind]
  rfl

/-- A dictionary is that of its entries. -/
theorem BuildsEntries.dict (h : BuildsEntries ts entries) :
    Builds (.node .dict span excerpt ts) (.dict () entries) := by
  refine h.mono ?_
  rintro budget ⟨rest, hrest, rfl⟩
  refine ⟨.dict span rest, ?_, rfl⟩
  simp only [exprWithin, hrest, bind, Except.bind]
  rfl

/-- A literal dictionary is a dictionary whose keys are constants. -/
theorem BuildsLiteralEntries.literalDict (h : BuildsLiteralEntries ts entries) :
    Builds (.node .literalDict span excerpt ts) (.dict () entries) := by
  refine h.mono ?_
  rintro budget ⟨rest, hrest, rfl⟩
  refine ⟨.dict span rest, ?_, rfl⟩
  simp only [exprWithin, hrest, bind, Except.bind]
  rfl

/-- What is attached is read from left to right, on top of what stands in front of it. -/
theorem attachedWithin_append {budget : Nat} {base : Expr Span} (more : List (Tree Tag)) :
    attachedWithin budget base (ts ++ more) =
      attachedWithin budget base ts >>= fun base => attachedWithin budget base more := by
  induction ts generalizing base with
  | nil =>
    rw [attachedWithin]
    rfl
  | cons node rest ih =>
    obtain ⟨tag, span, excerpt, parts⟩ := node
    rw [List.cons_append, attachedWithin.eq_def, attachedWithin.eq_def]
    dsimp only
    split <;> simp only [ih, bind, Except.bind] <;> split <;> rfl

/-- What is attached behind a node of parts, given what it makes of the expression before it. -/
theorem Builds.attach {attached : Tree Tag} (h : Builds (.node .postfixed span excerpt ts) e)
    (hattached : FromSomeOn fun budget => ∀ base : Expr Span, base.erase = e →
      HasShape (attachedWithin budget base [attached]) e') :
    Builds (.node .postfixed span' excerpt' (ts ++ [attached])) e' := by
  refine (h.and hattached).mono ?_
  rintro budget ⟨⟨base, hbase, rfl⟩, hnext⟩
  obtain ⟨e, he, rfl⟩ := hnext base rfl
  refine ⟨e, ?_, rfl⟩
  simp only [exprWithin] at hbase ⊢
  cases ts with
  | nil => simp only [postfixedWithin, unexpected, reduceCtorEq] at hbase
  | cons first rest =>
    rw [postfixedWithin] at hbase
    rw [List.cons_append, postfixedWithin]
    cases hfirst : first.exprWithin budget with
    | error => simp only [hfirst, bind, Except.bind, reduceCtorEq] at hbase
    | ok a =>
      simp only [hfirst, bind, Except.bind] at hbase
      simp only [bind, Except.bind]
      rw [attachedWithin_append, hbase]
      exact he

/-- A subscript of one part is a key behind what has been read. -/
theorem Builds.index {key : Tree Tag} (h : Builds (.node .postfixed span excerpt ts) e)
    (hlabel : key.label ≠ .sliceSeparator) (hkey : Builds key e') :
    Builds (.node .postfixed span' excerpt'
      (ts ++ [.node .subscript branchSpan branchExcerpt [key]])) (.index () e e') := by
  refine h.attach (hkey.inside.mono ?_)
  rintro budget ⟨a, ha, rfl⟩ base rfl
  refine ⟨.index (base.mark.merge branchSpan) base a, ?_, rfl⟩
  simp only [attachedWithin, subscriptWithin, if_neg hlabel, ha, bind, Except.bind]
  rfl

/-- The bounds of a slice and the separator between them. -/
def boundParts (lower upper : Option (Tree Tag)) (separator : Tree Tag) : List (Tree Tag) :=
  lower.toList ++ separator :: upper.toList

/-- A bound that is there builds the bound that is there. -/
def BuildsBound (t : Option (Tree Tag)) (e : Option (Expr Unit)) : Prop :=
  t = none ∧ e = none ∨ ∃ t' e', t = some t' ∧ e = some e' ∧ t'.label ≠ .sliceSeparator ∧
    Builds t' e'

/-- A subscript with a separator is a slice, with a bound on either side or none. -/
theorem Builds.slice {lower upper : Option (Tree Tag)} {separator : Tree Tag}
    {lowerShape upperShape : Option (Expr Unit)}
    (h : Builds (.node .postfixed span excerpt ts) e) (hlabel : separator.label = .sliceSeparator)
    (hlower : BuildsBound lower lowerShape) (hupper : BuildsBound upper upperShape) :
    Builds (.node .postfixed span' excerpt'
      (ts ++ [.node .subscript branchSpan branchExcerpt (boundParts lower upper separator)]))
      (.slice () e lowerShape upperShape) := by
  rcases hlower with ⟨rfl, rfl⟩ | ⟨a, ea, rfl, rfl, ha, hbuilds⟩
  · rcases hupper with ⟨rfl, rfl⟩ | ⟨b, eb, rfl, rfl, hb, hbuilds⟩
    · refine h.attach (.of_all ?_)
      rintro budget base rfl
      refine ⟨.slice (base.mark.merge branchSpan) base none none, ?_, rfl⟩
      simp only [boundParts, Option.toList, List.nil_append, attachedWithin, subscriptWithin,
        if_pos hlabel, bind, Except.bind]
      rfl
    · refine h.attach (hbuilds.inside.mono ?_)
      rintro budget ⟨upper, hupper, rfl⟩ base rfl
      refine ⟨.slice (base.mark.merge branchSpan) base none (some upper), ?_, rfl⟩
      simp only [boundParts, Option.toList, List.nil_append, attachedWithin, subscriptWithin,
        if_pos hlabel, hupper, bind, Except.bind]
      rfl
  · rcases hupper with ⟨rfl, rfl⟩ | ⟨b, eb, rfl, rfl, hb, hbuilds'⟩
    · refine h.attach (hbuilds.inside.mono ?_)
      rintro budget ⟨lower, hlower, rfl⟩ base rfl
      refine ⟨.slice (base.mark.merge branchSpan) base (some lower) none, ?_, rfl⟩
      simp only [boundParts, Option.toList, List.cons_append, List.nil_append, attachedWithin,
        subscriptWithin, if_neg ha, if_pos hlabel, hlower, bind, Except.bind]
      rfl
    · refine h.attach ((hbuilds.inside.and hbuilds'.inside).mono ?_)
      rintro budget ⟨⟨lower, hlower, rfl⟩, upper, hupper, rfl⟩ base rfl
      refine ⟨.slice (base.mark.merge branchSpan) base (some lower) (some upper), ?_, rfl⟩
      simp only [boundParts, Option.toList, List.cons_append, List.nil_append, attachedWithin,
        subscriptWithin, ne_eq, ha, not_false_eq_true, hlabel, and_self, if_true, hlower, hupper,
        bind, Except.bind]
      rfl

/-- Arguments behind what is no lambda make a call of a value. -/
theorem Builds.funcrefCall (h : Builds (.node .postfixed span excerpt ts) e)
    (hne : ∀ params body, e ≠ .lambda () params body) (hargs : BuildsArgs parts es) :
    Builds (.node .postfixed span' excerpt'
      (ts ++ [.node .callArgs branchSpan branchExcerpt parts])) (.funcrefCall () e es) := by
  refine h.attach (hargs.mono ?_)
  rintro budget ⟨args, hresult, rfl⟩ base rfl
  refine ⟨.funcrefCall (base.mark.merge branchSpan) base args, ?_, rfl⟩
  have hcall : callOf (base.mark.merge branchSpan) base args =
      .funcrefCall (base.mark.merge branchSpan) base args := by
    cases base with
    | lambda => exact (hne _ _ rfl).elim
    | _ => rfl
  simp only [attachedWithin, hresult, Except.map, hcall, bind, Except.bind]
  rfl

/-- A name token gives its text. -/
theorem nameOf_eq_ok {name : Tree Tag} (h : name.label = .name) : nameOf name = .ok name.text := by
  simp only [nameOf, expect, if_pos h, bind, Except.bind, pure, Except.pure]

/-- A scope token gives the scope that its text names. -/
theorem scopeOf_eq_ok {scope : Tree Tag} {s : Scope} (h : scope.label = .scope)
    (htext : scope.text = s.text) : scopeOf scope = .ok s := by
  simp only [scopeOf, expect, if_pos h, htext, Scope.ofText?_text, bind, Except.bind]

/-- Name tokens give their texts one by one. -/
theorem mapM_nameOf_eq_ok (h : ∀ t ∈ ts, t.label = .name) :
    ts.mapM nameOf = .ok (ts.map Tree.text) := by
  induction ts with
  | nil => rfl
  | cons t rest ih =>
    rw [List.mapM_cons, nameOf_eq_ok (h t List.mem_cons_self),
      ih fun u hu => h u (List.mem_cons_of_mem t hu)]
    rfl

/-- The parameters of a lambda are the texts of its name tokens. -/
theorem Builds.lambda {body : Tree Tag} (hnames : ∀ t ∈ ts, t.label = .name)
    (hbody : Builds body e) :
    Builds (.node .lambda span excerpt [.node .lambdaParams span' excerpt' ts, body])
      (.lambda () (ts.map Tree.text) e) := by
  refine hbody.inside.mono ?_
  rintro budget ⟨a, ha, rfl⟩
  refine ⟨.lambda span (ts.map Tree.text) a, ?_, rfl⟩
  have hparams : paramNames (.node .lambdaParams span' excerpt' ts) = .ok (ts.map Tree.text) := by
    simp only [paramNames, expect, label, if_true, children, mapM_nameOf_eq_ok hnames, bind,
      Except.bind]
  simp only [exprWithin, lambdaWithin, hparams, ha, bind, Except.bind]
  rfl

/-- A lambda that is not called. -/
theorem Builds.lambdaExpr (h : Builds (.node .lambda span excerpt ts) e) :
    Builds (.node .lambdaExpr span' excerpt' [.node .lambda span excerpt ts]) e := by
  refine h.mono fun budget h => ?_
  simp only [exprWithin, lambdaExprWithin, if_true] at h ⊢
  exact h

/-- A lambda with arguments behind it is called where it stands. -/
theorem Builds.lambdaCall (h : Builds (.node .lambda span excerpt ts) e)
    (hargs : BuildsArgs parts es) :
    Builds (.node .lambdaExpr span' excerpt' [.node .lambda span excerpt ts,
      .node .callArgs branchSpan branchExcerpt parts]) (.lambdaCall () e es) := by
  refine (h.and hargs).mono ?_
  rintro budget ⟨⟨callee, hcallee, rfl⟩, args, hresult, rfl⟩
  refine ⟨.lambdaCall span' callee args, ?_, rfl⟩
  simp only [exprWithin] at hcallee
  simp only [exprWithin, lambdaExprWithin, if_true, hcallee, hresult, bind, Except.bind]
  rfl

/-- The nodes of an optional scope and a name. -/
def IsScopedName (ts : List (Tree Tag)) (scope : Option Scope) (name : List Char) : Prop :=
  ∃ last, last.label = .name ∧ last.text = name ∧
    (ts = [last] ∧ scope = none ∨ ∃ (first : Tree Tag) (s : Scope), first.label = .scope ∧
      first.text = s.text ∧ ts = [first, last] ∧ scope = some s)

variable {scope : Option Scope} {name : List Char}

/-- A name that may have a scope is read as both. -/
theorem IsScopedName.scopedName (h : IsScopedName ts scope name) :
    scopedName span ts = .ok (scope, name) := by
  obtain ⟨last, hlast, rfl, ⟨rfl, rfl⟩ | ⟨first, s, hfirst, htext, rfl, rfl⟩⟩ := h
  · simp only [Tree.scopedName, nameOf_eq_ok hlast, bind, Except.bind, pure, Except.pure]
  · simp only [Tree.scopedName, nameOf_eq_ok hlast, scopeOf_eq_ok hfirst htext, bind, Except.bind,
      pure, Except.pure]

/-- A variable has the scope and the name of its tokens. -/
theorem Builds.var (h : IsScopedName ts scope name) :
    Builds (.node .variableRef span excerpt ts) (.var () scope name) := by
  refine .of_all fun budget => ⟨.var span scope name, ?_, rfl⟩
  simp only [exprWithin, h.scopedName, bind, Except.bind]
  rfl

/-- An option has the scope and the name of its tokens. -/
theorem Builds.option (h : IsScopedName ts scope name) :
    Builds (.node .optionRef span excerpt ts) (.option () scope name) := by
  refine .of_all fun budget => ⟨.option span scope name, ?_, rfl⟩
  simp only [exprWithin, h.scopedName, bind, Except.bind]
  rfl

variable {argsSpan : Span} {argsExcerpt : Excerpt}

/-- A name and its arguments are the parts of a call. -/
theorem IsScopedName.callPartsWithin {budget : Nat} {args : List (Expr Span)}
    (h : IsScopedName ts scope name) (hargs : argsWithin budget parts = .ok args) :
    callPartsWithin budget span (ts ++ [.node .callArgs argsSpan argsExcerpt parts]) =
      .ok (scope, name, args) := by
  obtain ⟨last, hlast, rfl, ⟨rfl, rfl⟩ | ⟨first, s, hfirst, htext, rfl, rfl⟩⟩ := h
  · simp only [List.cons_append, List.nil_append, Tree.callPartsWithin, nameOf_eq_ok hlast, if_true,
      hargs, bind, Except.bind, pure, Except.pure]
  · simp only [List.cons_append, List.nil_append, Tree.callPartsWithin, nameOf_eq_ok hlast,
      scopeOf_eq_ok hfirst htext, if_true, hargs, bind, Except.bind, pure, Except.pure]

/-- A call by name adds the arguments behind the name. -/
theorem Builds.call (h : IsScopedName ts scope name) (hargs : BuildsArgs parts es) :
    Builds (.node .functionCall span excerpt
      (ts ++ [.node .callArgs branchSpan branchExcerpt parts])) (.call () scope name es) := by
  refine hargs.mono ?_
  rintro budget ⟨args, hresult, rfl⟩
  refine ⟨.call span scope name args, ?_, rfl⟩
  simp only [exprWithin, h.callPartsWithin hresult, bind, Except.bind]
  rfl

/-- A call by name behind an arrow: the receiver is its first argument. -/
theorem Builds.methodCall {callSpan : Span} {callExcerpt : Excerpt} {us : List (Tree Tag)}
    (h : Builds (.node .postfixed span excerpt ts) e) (hname : IsScopedName us scope name)
    (hargs : BuildsArgs parts es) :
    Builds (.node .postfixed span' excerpt' (ts ++ [.node .methodCall branchSpan branchExcerpt
      [.node .functionCall callSpan callExcerpt (us ++ [.node .callArgs argsSpan argsExcerpt parts])]]))
      (.call () scope name (e :: es)) := by
  refine h.attach (hargs.mono ?_)
  rintro budget ⟨args, hresult, rfl⟩ base rfl
  refine ⟨.call (base.mark.merge branchSpan) scope name (base :: args), ?_, rfl⟩
  simp only [attachedWithin, methodCallWithin, if_true, hname.callPartsWithin hresult, bind,
    Except.bind]
  rfl

/-- A lambda behind an arrow, called with the receiver as its first argument. -/
theorem Builds.methodLambda {lambdaSpan : Span} {lambdaExcerpt : Excerpt} {us : List (Tree Tag)}
    (h : Builds (.node .postfixed span excerpt ts) e)
    (hlambda : Builds (.node .lambda lambdaSpan lambdaExcerpt us) e') (hargs : BuildsArgs parts es) :
    Builds (.node .postfixed span' excerpt' (ts ++ [.node .methodCall branchSpan branchExcerpt
      [.node .lambda lambdaSpan lambdaExcerpt us, .node .callArgs argsSpan argsExcerpt parts]]))
      (.lambdaCall () e' (e :: es)) := by
  refine h.attach ((hlambda.and hargs).mono ?_)
  rintro budget ⟨⟨callee, hcallee, rfl⟩, args, hresult, rfl⟩ base rfl
  refine ⟨.lambdaCall (base.mark.merge branchSpan) callee (base :: args), ?_, rfl⟩
  simp only [exprWithin] at hcallee
  simp only [attachedWithin, methodCallWithin, if_true, hcallee, hresult, bind, Except.bind]
  rfl

/-- An environment variable has the name of its token. -/
theorem Builds.env {t : Tree Tag} (h : t.label = .name) :
    Builds (.node .envVariable span excerpt [t]) (.env () t.text) := by
  refine .of_all fun budget => ⟨.env span t.text, ?_, rfl⟩
  simp only [exprWithin, nameOf_eq_ok h, bind, Except.bind]
  rfl

/-- A register is named by the character behind its sign. -/
theorem Builds.register {c : Char} {more : List Char} (h : excerpt.toList = '@' :: c :: more) :
    Builds (.node .register span excerpt ts) (.register () c) := by
  refine .of_all fun budget => ⟨.register span c, ?_, rfl⟩
  simp only [exprWithin, h, Tree.register]

/-- A number is its value if that fits. -/
theorem Builds.integer {value : Int64} (h : Numeral.decode? excerpt.toList = some value) :
    Builds (.node .integer span excerpt ts) (.literal () (.int value)) := by
  refine .of_all fun budget => ⟨.literal span (.int value), ?_, rfl⟩
  simp only [exprWithin, Tree.integer, h]

/-- A float is its value if that is finite. -/
theorem Builds.float {value : Binary64} (h : Binary64.ofText? excerpt.toList = some value)
    (hfinite : value.isFinite = true) :
    Builds (.node .float span excerpt ts) (.literal () (.float value)) := by
  refine .of_all fun budget => ⟨.literal span (.float value), ?_, rfl⟩
  simp only [exprWithin, Tree.float, h, Option.filter_some, hfinite, if_true]

/-- A string is its decoded text. -/
theorem Builds.string {value : List Char}
    (h : Text.Quoted.decode excerpt.toList = some value) :
    Builds (.node .string span excerpt ts) (.literal () (.string value)) := by
  refine .of_all fun budget => ⟨.literal span (.string value), ?_, rfl⟩
  simp only [exprWithin, Tree.string, h]

end Vimscript.Tree
