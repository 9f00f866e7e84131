import Vimscript.Proofs.Expr.Brackets
import Vimscript.Proofs.Expr.Spelling

/-!
# Texts of calls and lambdas

A call of a value is an attachment, and so it is one only where the value could not be the name of
a function or a lambda: these take the arguments behind them for themselves.
-/

namespace Vimscript

open Pattern Text

namespace Derives

variable {here mid : Cursor} {t first : Tree Rule} {e : Expr Unit}

/-- The parts of a reference to a variable. -/
theorem variableRef_cases (h : Derives (.rule .variableRef) here mid [t]) :
    ∃ parts last, t = Rule.variableRef.node here mid parts ∧ parts.getLast? = some last ∧
      (parts = [last] ∨ ∃ scope : Tree Rule, parts = [scope, last]) := by
  obtain ⟨children, hpattern, -, hnode⟩ := (rule_iff rfl).mp h
  obtain rfl := List.singleton_inj.mp hnode
  rcases choice_iff.mp hpattern with h | h
  · obtain ⟨_, us, vs, hscope, hname, rfl⟩ := seq_iff.mp (counted_iff.mp h)
    obtain ⟨scope, rfl⟩ := (call_iff.mp hscope).eq_singleton
    obtain ⟨last, rfl⟩ := (call_iff.mp hname).eq_singleton
    exact ⟨_, last, rfl, rfl, .inr ⟨scope, rfl⟩⟩
  · obtain ⟨last, rfl⟩ := (call_iff.mp h).eq_singleton
    exact ⟨_, last, rfl, rfl, .inl rfl⟩

/-- A lambda as an expression is a lambda, perhaps with arguments behind it. -/
theorem lambdaExpr_cases (h : Derives (.rule .lambdaExpr) here mid [t]) :
    ∃ lambda more, t = Rule.lambdaExpr.node here mid (lambda :: more) ∧ lambda.label = .lambda := by
  obtain ⟨children, hpattern, -, hnode⟩ := (rule_iff rfl).mp h
  obtain rfl := List.singleton_inj.mp hnode
  obtain ⟨_, us, vs, hlambda, -, rfl⟩ := seq_iff.mp (counted_iff.mp hpattern)
  obtain ⟨lambda, rfl⟩ := (call_iff.mp hlambda).eq_singleton
  exact ⟨lambda, vs, rfl, (call_iff.mp hlambda).span_eq.2⟩

end Derives

namespace Tree

variable {span : Span} {excerpt : Excerpt} {ts : List (Tree Tag)} {e : Expr Unit} {budget : Nat}

/-- A primary that is no text between parentheses stands for its part. -/
theorem exprWithin_primary {t : Tree Tag} (h : t.label ≠ .conditional) :
    (node .primary span excerpt [t]).exprWithin budget = t.exprWithin budget := by
  simp only [exprWithin, primaryWithin, if_neg h]

/-- A name is the text of its token. -/
theorem text_of_nameOf {t : Tree Tag} {name : List Char} (h : nameOf t = .ok name) :
    name = t.text := by
  by_cases hlabel : t.label = .name
  · rw [nameOf_eq_ok hlabel] at h
    exact (Except.ok.inj h).symm
  · simp only [nameOf, expect, if_neg hlabel, unexpected, bind, Except.bind, reduceCtorEq] at h

/-- Whatever a variable builds has the name of its last part. -/
theorem HasShape.variableRef {last : Tree Tag} (hts : ts = [last] ∨ ∃ scope, ts = [scope, last])
    (h : HasShape ((node .variableRef span excerpt ts).exprWithin budget) e) :
    ∃ s, e = .var () s last.text := by
  obtain ⟨e', he', rfl⟩ := h
  simp only [exprWithin] at he'
  cases hscoped : scopedName span ts with
  | error error =>
    rw [hscoped] at he'
    cases he'
  | ok parts =>
    rw [hscoped] at he'
    cases he'
    refine ⟨parts.1, congrArg (Expr.var () parts.1) ?_⟩
    rcases hts with rfl | ⟨scope, rfl⟩
    · cases hname : nameOf last with
      | error error =>
        simp only [scopedName, hname, bind, Except.bind, reduceCtorEq] at hscoped
      | ok name =>
        simp only [scopedName, hname, bind, Except.bind, pure, Except.pure,
          Except.ok.injEq] at hscoped
        rw [← hscoped, ← text_of_nameOf hname]
    · cases hscope : scopeOf scope with
      | error error =>
        simp only [scopedName, hscope, bind, Except.bind, reduceCtorEq] at hscoped
      | ok s =>
        cases hname : nameOf last with
        | error error =>
          simp only [scopedName, hscope, hname, bind, Except.bind, reduceCtorEq] at hscoped
        | ok name =>
          simp only [scopedName, hscope, hname, bind, Except.bind, pure, Except.pure,
            Except.ok.injEq] at hscoped
          rw [← hscoped, ← text_of_nameOf hname]

/-- A lambda without arguments behind it builds a lambda. -/
theorem HasShape.lambdaExpr {lambda : Tree Tag} (hlabel : lambda.label = .lambda)
    (h : HasShape ((node .lambdaExpr span excerpt [lambda]).exprWithin budget) e) :
    ∃ params body, e = .lambda () params body := by
  obtain ⟨e', he', rfl⟩ := h
  obtain ⟨label, lambdaSpan, lambdaExcerpt, parts⟩ := lambda
  obtain rfl : label = .lambda := hlabel
  simp only [exprWithin, lambdaExprWithin, if_true] at he'
  rcases parts with _ | ⟨params, _ | ⟨body, _ | _⟩⟩
  case cons.cons.nil =>
    simp only [lambdaWithin] at he'
    cases hparams : paramNames params with
    | error error =>
      rw [hparams] at he'
      cases he'
    | ok names =>
      cases hbody : charge budget body.span fun budget => body.exprWithin budget with
      | error error =>
        rw [hparams, hbody] at he'
        cases he'
      | ok a =>
        rw [hparams, hbody] at he'
        cases he'
        exact ⟨names, a.erase, rfl⟩
  all_goals simp only [lambdaWithin, unexpected, reduceCtorEq] at he'

end Tree

/-- Only what takes a call for itself has a primary that does. -/
theorem Derives.takesCall_of_builds {here mid : Cursor} {first : Tree Rule} {e : Expr Unit}
    (h : Derives (.rule .primary) here mid [first]) (he : (first.map Rule.tag).Builds e)
    (hcall : e.takesCall = false) : first.takesCall = false := by
  obtain ⟨children, hpattern, -, hnode⟩ := (rule_iff rfl).mp h
  obtain rfl := List.singleton_inj.mp hnode
  obtain ⟨bound, he⟩ := he
  have he := he bound (Nat.le_refl bound)
  rw [Tree.map_node, show Rule.primary.tag = .primary from rfl] at he
  rcases primary_iff.mp hpattern with ⟨r, hr, hinner⟩ | hinner
  · obtain ⟨inner, rfl⟩ := hinner.eq_singleton
    have hlabel := hinner.span_eq.2
    rw [List.map_cons, List.map_nil] at he
    rw [Rule.node, Tree.takesCall]
    by_cases hvar : r = .variableRef
    · subst hvar
      obtain ⟨parts, last, rfl, hlast, hparts⟩ := hinner.variableRef_cases
      rw [Tree.exprWithin_primary (by rw [Tree.label_map, hlabel]; decide), Tree.map_node] at he
      have hname : parts.map (Tree.map Rule.tag) = [last.map Rule.tag] ∨
          ∃ scope, parts.map (Tree.map Rule.tag) = [scope, last.map Rule.tag] := by
        rcases hparts with rfl | ⟨scope, rfl⟩
        · exact .inl rfl
        · exact .inr ⟨_, rfl⟩
      obtain ⟨s, rfl⟩ := Tree.HasShape.variableRef hname he
      rw [Expr.takesCall, Tree.text_map] at hcall
      rw [Rule.node, Tree.takesCall, hlast]
      exact hcall
    · by_cases hlambda : r = .lambdaExpr
      · subst hlambda
        obtain ⟨lambda, more, rfl, hlambda⟩ := hinner.lambdaExpr_cases
        cases more with
        | nil =>
          rw [Tree.exprWithin_primary (by rw [Tree.label_map, hlabel]; decide),
            Tree.map_node] at he
          obtain ⟨params, body, rfl⟩ := Tree.HasShape.lambdaExpr
            (by rw [Tree.label_map, hlambda]; rfl) he
          cases hcall
        | cons args more => rfl
      · obtain ⟨label, span, excerpt, parts⟩ := inner
        obtain rfl : label = r := hlabel
        simp only [primaryRules, List.mem_cons, List.not_mem_nil, or_false] at hr
        rcases hr with rfl | rfl | rfl | rfl | rfl | rfl | rfl | rfl | rfl | rfl | rfl | rfl | rfl <;>
          first | rfl | exact (hvar rfl).elim | exact (hlambda rfl).elim
  · obtain ⟨⟨label, span, excerpt, parts⟩, rfl, hlabel⟩ := hinner.paren_cases
    obtain rfl : label = .expr := hlabel
    rfl

namespace ReadsAs

variable {follow : List Char → Prop} {u text : List Char} {e : Expr Unit}
  {args : List (Option (Expr Unit))}

/-- A call of a value. -/
theorem funcrefCall (h : ReadsAs Seam 7 u e) (hcall : e.takesCall = false)
    (hargs : ReadsArgs text args) :
    ReadsAs follow 7 (u ++ ('(' :: (text ++ [')']))) (.funcrefCall () e (args.filterMap id)) := by
  refine attached (r := .callArgs) (by decide) h (fun _ => seam_cons (by decide))
    (fun _ here mid first hfirst hbuilds => hfirst.takesCall_of_builds hbuilds hcall)
    fun here mid hmove => ?_
  · obtain ⟨ts, hderives, hts⟩ := hargs.derives hmove
    refine ⟨_, hderives, fun span span' excerpt excerpt' children hchildren => ?_⟩
    rw [Tree.map_node]
    refine hchildren.funcrefCall (fun params body he => ?_) hts
    rw [he] at hcall
    cases hcall

end ReadsAs

/-- The letter of a scope is one of the letters for scopes. -/
theorem Scope.isScopeLetter_letter (s : Scope) : isScopeLetter s.letter = true := by
  cases s <;> decide

/-- The token of a scope. -/
theorem Derives.scopeToken {here mid : Cursor} {s : Scope} (h : here.Moves s.text mid) :
    Derives (.rule .scope) here mid [Rule.scope.node here mid []] :=
  (token_iff rfl).mpr ⟨_, h, ⟨_, rfl, s.isScopeLetter_letter⟩, rfl⟩

/-- A scope token and a name token are the parts of a name with a scope. -/
theorem Tree.isScopedName_pair {here mid stop : Cursor} {s : Scope} {name : List Char} {r r' : Rule}
    (hr : r.tag = .scope) (hr' : r'.tag = .name) (hscope : here.Moves s.text mid)
    (hname : mid.Moves name stop) :
    IsScopedName ([r.node here mid [], r'.node mid stop []].map (Tree.map Rule.tag)) (some s)
      name := by
  refine ⟨(r'.node mid stop []).map Rule.tag, ?_, ?_, .inr ⟨(r.node here mid []).map Rule.tag, s,
    ?_, ?_, rfl, rfl⟩⟩
  · rw [Tree.label_map]
    exact hr'
  · rw [Tree.text_map]
    exact hname.node_text
  · rw [Tree.label_map]
    exact hr
  · rw [Tree.text_map]
    exact hscope.node_text

/-- A name token alone is a name without a scope. -/
theorem Tree.isScopedName_single {here stop : Cursor} {name : List Char} {r : Rule}
    (hr : r.tag = .name) (hname : here.Moves name stop) :
    IsScopedName ([r.node here stop []].map (Tree.map Rule.tag)) none name := by
  refine ⟨(r.node here stop []).map Rule.tag, ?_, ?_, .inl ⟨rfl, rfl⟩⟩
  · rw [Tree.label_map]
    exact hr
  · rw [Tree.text_map]
    exact hname.node_text

/-- A call by name as a node of its own rule. -/
theorem ReadsArgs.functionCall {scope : Option Scope} {text name : List Char}
    {args : List (Option (Expr Unit))} {here mid : Cursor} (h : ReadsArgs text args)
    (hname : IsName isNameStart isNameChar name)
    (hmove : here.Moves (Scope.optionalText scope ++ (name ++ ('(' :: (text ++ [')'])))) mid) :
    ∃ us place ts, Derives (.rule .functionCall) here mid
        [Rule.functionCall.node here mid (us ++ [Rule.callArgs.node place mid ts])] ∧
      Tree.IsScopedName (us.map (Tree.map Rule.tag)) scope name ∧
        Tree.BuildsArgs (ts.map (Tree.map Rule.tag)) (args.filterMap id) := by
  obtain ⟨first, hscope, hmove⟩ := Cursor.Moves.append_iff.mp hmove
  obtain ⟨place, hfunction, hmove⟩ := Cursor.Moves.append_iff.mp hmove
  have hlexeme : Rule.functionName.Lexeme name place.rest := by
    refine ⟨hname, ?_⟩
    rw [hmove.rest_eq]
    exact endsBefore_cons.mpr (by decide)
  have hnameToken := (Derives.token_iff (r := .functionName) rfl).mpr
    ⟨_, hfunction, hlexeme, rfl⟩
  obtain ⟨ts, hderives, hts⟩ := h.derives hmove
  have hcall {us : List (Tree Rule)} (h : Derives (.optional (Pattern.call .scope)) here first us) :
      Derives (.rule .functionCall) here mid [Rule.functionCall.node here mid
        ((us ++ [Rule.functionName.node first place []]) ++ [Rule.callArgs.node place mid ts])] := by
    rw [List.append_assoc]
    exact (Derives.rule_iff rfl).mpr ⟨_, .counted (Derives.seq_iff.mpr ⟨first, _, _, h,
      Derives.seq_iff.mpr ⟨place, _, _, Derives.call_iff.mpr hnameToken,
        Derives.call_iff.mpr hderives, rfl⟩, rfl⟩), trivial, rfl⟩
  cases scope with
  | none =>
    obtain rfl := (Cursor.Moves.refl here).stop_unique hscope
    exact ⟨_, place, ts, hcall (.counted .absent), Tree.isScopedName_single rfl hfunction, hts⟩
  | some s =>
    exact ⟨_, place, ts, hcall (.counted (.present (Derives.call_iff.mpr (Derives.scopeToken hscope)))),
      Tree.isScopedName_pair rfl rfl hscope hfunction, hts⟩

namespace ReadsAs

variable {follow : List Char → Prop} {text name : List Char} {args : List (Option (Expr Unit))}

/-- A call by name. -/
theorem call {scope : Option Scope} (hname : IsName isNameStart isNameChar name)
    (hargs : ReadsArgs text args) :
    ReadsAs follow 8 (Scope.optionalText scope ++ (name ++ ('(' :: (text ++ [')']))))
      (.call () scope name (args.filterMap id)) := by
  refine atom (r := .functionCall) (by decide) ?_ fun here mid hmove _ => ?_
  · obtain ⟨c, v, rfl, hc, -⟩ := hname
    cases scope with
    | none => exact ⟨c, _, rfl, isSpace_eq_false hc (by decide)⟩
    | some s => exact ⟨_, _, rfl, by cases s <;> decide⟩
  · obtain ⟨us, place, ts, hderives, hus, hts⟩ := hargs.functionCall hname hmove
    refine ⟨_, hderives, trivial, ?_⟩
    rw [Tree.map_node, List.map_append, List.map_singleton, Tree.map_node]
    exact Tree.Builds.call hus hts

end ReadsAs

/-- The name of a parameter between blanks. -/
def ReadsParam (u name : List Char) : Prop := ∃ b b', u = b ++ (name ++ b') ∧
  b.all isSpace = true ∧ b'.all isSpace = true ∧ IsName isNameStart isWordChar name

/-- At least one parameter is printed with commas between and a blank behind. -/
theorem readsList_params {names : List (List Char)}
    (h : ∀ name ∈ names, IsName isNameStart isWordChar name) (hne : names ≠ []) :
    ReadsList ReadsParam (Expr.commaSeparated names ++ [' ']) names :=
  ReadsList.of_commaSeparated
    (List.forall₂_same.mpr fun name hname b b' hb hb' => ⟨b, b', rfl, hb, hb', h name hname⟩)
    hne blank_nil blank_space

/-- A parameter is derived in front of the comma or the arrow behind it. -/
theorem ReadsParam.derives {u name : List Char} {here last : Cursor} {c : Char} {w : List Char}
    (h : ReadsParam u name) (hc : endsSlot '-' c) (hmove : here.Moves (u ++ c :: w) last) :
    ∃ stop t, Derives (.rule .lambdaParam) here.skipSpaces stop [t] ∧
      stop.skipSpaces.Moves (c :: w) last ∧
        ((t.map Rule.tag).label = .name ∧ (t.map Rule.tag).text = name) := by
  obtain ⟨b, b', rfl, hb, hb', hname⟩ := h
  have hword : isWordChar c = false ∧ isSpace c = false := by
    rcases hc with rfl | rfl <;> decide
  rw [List.append_assoc, List.append_assoc] at hmove
  have hmove := hmove.behindBlanks hb (by
    obtain ⟨d, v, rfl, hd, -⟩ := hname
    exact ⟨d, _, List.cons_append, isSpace_eq_false hd (by decide)⟩)
  obtain ⟨stop, hparam, hmove⟩ := Cursor.Moves.append_iff.mp hmove
  have hends : EndsBefore isWordChar stop.rest := by
    rw [hmove.rest_eq]
    cases b' with
    | nil => exact endsBefore_cons.mpr hword.1
    | cons d b' =>
      refine endsBefore_cons.mpr ?_
      have hd := (Bool.and_eq_true_iff.mp (List.all_cons ▸ hb')).1
      rcases (by simpa [isSpace] using hd : d = ' ' ∨ d = '\t') with rfl | rfl <;> decide
  refine ⟨stop, Rule.lambdaParam.node here.skipSpaces stop [],
    (Derives.token_iff rfl).mpr ⟨_, hparam, ⟨hname, hends⟩, rfl⟩,
    hmove.behindBlanks hb' ⟨_, _, rfl, hword.2⟩, ?_, ?_⟩
  · rw [Tree.label_map]
    rfl
  · rw [Tree.text_map]
    exact hparam.node_text

/-- The parameters in front of an arrow. -/
theorem ReadsPlaces.lambdaParams {text w : List Char} {params : List (List Char)}
    {here last : Cursor} (h : ReadsPlaces ReadsParam text params)
    (hmove : here.Moves (text ++ '-' :: w) last) : ∃ stop ts,
      Derives (.rule .lambdaParams) here.skipSpaces stop
        [Rule.lambdaParams.node here.skipSpaces stop ts] ∧ stop.skipSpaces.Moves ('-' :: w) last ∧
          (∀ t ∈ ts.map (Tree.map Rule.tag), t.label = .name) ∧
            (ts.map (Tree.map Rule.tag)).map Tree.text = params := by
  rcases h with ⟨hblank, rfl⟩ | hlist
  · have hlast := hmove.behindBlanks hblank ⟨_, _, rfl, by decide⟩
    rw [← Cursor.skipSpaces_skipSpaces] at hlast
    exact ⟨_, [], (Derives.rule_iff rfl).mpr ⟨[], .counted .absent, trivial, rfl⟩, hlast, nofun,
      rfl⟩
  · obtain ⟨stop, ts, hchain, hlast, hts⟩ := hlist.derives .lambdaParam
      (q := fun name t => t.label = .name ∧ t.text = name)
      (fun u name h here last c w hc hmove => h.derives hc hmove) hmove
    refine ⟨stop, ts, (Derives.rule_iff rfl).mpr ⟨ts, .counted (.present hchain), trivial, rfl⟩,
      hlast, ?_, ?_⟩
    · intro t ht
      obtain ⟨i, hi, rfl⟩ := List.getElem_of_mem ht
      exact (hts.get (by rw [hts.length_eq]; exact hi) hi).1
    · exact (List.forall₂_eq_eq_eq ▸ (List.forall₂_map_right_iff.mpr
        (hts.imp fun _ _ h => h.2.symm)) : params = _).symm

/-- A lambda as a node of its own rule. -/
theorem ReadsPlaces.lambda {text v : List Char} {params : List (List Char)} {e : Expr Unit}
    {here mid : Cursor} (h : ReadsPlaces ReadsParam text params)
    (hbody : ReadsSlot '\x7d' v (some e))
    (hmove : here.Moves ('\x7b' :: (text ++ ('-' :: '>' :: (v ++ ['\x7d'])))) mid) : ∃ ts,
      Derives (.rule .lambda) here mid [Rule.lambda.node here mid ts] ∧
        ((Rule.lambda.node here mid ts).map Rule.tag).Builds (.lambda () params e) := by
  obtain ⟨first, hopen, hmove⟩ := Cursor.Moves.cons_iff.mp hmove
  obtain ⟨stop, ts, hparams, harrow, hnames, rfl⟩ := h.lambdaParams hmove
  obtain ⟨place, harrow, hmove⟩ := Cursor.Moves.append_iff (u := ['-', '>']).mp harrow
  obtain ⟨last, t, hderives, hclose, ht⟩ := hbody.derives (by decide) hmove
  refine ⟨_, (Derives.rule_iff rfl).mpr ⟨_, .counted (Derives.spaced_iff.mpr ⟨first, [], _,
    .text hopen, Derives.spaced_iff.mpr ⟨stop, _, _, Derives.call_iff.mpr hparams,
      Derives.spaced_iff.mpr ⟨place, [], _, .text harrow, Derives.spaced_iff.mpr
        ⟨last, [t], [], Derives.call_iff.mpr hderives, .text hclose, rfl⟩, rfl⟩, rfl⟩, rfl⟩),
    trivial, rfl⟩, ?_⟩
  rw [Tree.map_node]
  simp only [List.nil_append, List.append_nil, List.cons_append, List.map_cons, List.map_nil,
    Tree.map_node]
  exact Tree.Builds.lambda hnames ht

namespace ReadsAs

variable {follow : List Char → Prop} {text v : List Char} {params : List (List Char)}
  {e : Expr Unit}

/-- Parameters, an arrow and a body between braces read as a lambda. -/
theorem lambda (h : ReadsPlaces ReadsParam text params) (hbody : ReadsSlot '\x7d' v (some e)) :
    ReadsAs follow 8 ('\x7b' :: (text ++ ('-' :: '>' :: (v ++ ['\x7d']))))
      (.lambda () params e) := by
  refine atom (r := .lambdaExpr) (by decide) ⟨_, _, rfl, by decide⟩ fun here mid hmove _ => ?_
  obtain ⟨ts, hderives, hts⟩ := h.lambda hbody hmove
  refine ⟨_, (Derives.rule_iff rfl).mpr ⟨_, .counted (Derives.seq_iff.mpr ⟨mid, _, [],
    Derives.call_iff.mpr hderives, .counted .absent, rfl⟩), trivial, rfl⟩, trivial, ?_⟩
  rw [Tree.map_node] at hts ⊢
  rw [List.append_nil, List.map_singleton, Tree.map_node]
  exact hts.lambdaExpr

/-- A lambda called where it stands. -/
theorem lambdaCall {u : List Char} {args : List (Option (Expr Unit))}
    (h : ReadsPlaces ReadsParam text params) (hbody : ReadsSlot '\x7d' v (some e))
    (hargs : ReadsArgs u args) :
    ReadsAs follow 8 ('\x7b' :: (text ++ ('-' :: '>' :: (v ++ ['\x7d']))) ++ '(' :: (u ++ [')']))
      (.lambdaCall () (.lambda () params e) (args.filterMap id)) := by
  refine atom (r := .lambdaExpr) (by decide) ⟨_, _, rfl, by decide⟩ fun here mid hmove _ => ?_
  obtain ⟨place, hlambda, hmove⟩ := Cursor.Moves.append_iff.mp hmove
  obtain ⟨ts, hderives, hts⟩ := h.lambda hbody hlambda
  obtain ⟨us, hcall, hus⟩ := hargs.derives hmove
  refine ⟨_, (Derives.rule_iff rfl).mpr ⟨_, .counted (Derives.seq_iff.mpr ⟨place, _, _,
    Derives.call_iff.mpr hderives, .counted (.present (Derives.call_iff.mpr hcall)), rfl⟩),
    trivial, rfl⟩, trivial, ?_⟩
  rw [Tree.map_node] at hts ⊢
  simp only [List.cons_append, List.nil_append, List.map_cons, List.map_nil, Tree.map_node]
  exact hts.lambdaCall hus

end ReadsAs

end Vimscript
