import Vimscript.Proofs.Grammar.Tiers

/-!
# A brace that opens a dictionary opens no lambda

Both begin with a brace, and a lambda is tried first. Where a dictionary stands a lambda fails,
but it may fail late: the first key can be a method call on a name, so that the name passes for
a parameter, the arrow of the call for that of the lambda and the rest of the key for its body.
That body then ends where the key ends, before a colon, and no lambda ends there.
-/

namespace Vimscript

open Pattern Text

variable {here mid stop : Cursor} {ts us : List (Tree Rule)}

/-- Two parts with blanks between them are matched one after the other. -/
theorem Parses.spaced_some_iff {p q : Pattern} :
    Parses (.seq p (.seq .blanks q)) here (some (stop, ts)) ↔
      ∃ mid us vs, Parses p here (some (mid, us)) ∧
        Parses q mid.skipSpaces (some (stop, vs)) ∧ ts = us ++ vs := by
  constructor
  · intro h
    obtain ⟨mid, us, _, hfirst, hafter, rfl⟩ := Parses.seq_some_iff.mp h
    obtain ⟨place, vs, ws, hblanks, hsecond, rfl⟩ := Parses.seq_some_iff.mp hafter
    obtain ⟨rfl, rfl⟩ := Prod.mk.inj (Option.some.inj ((Parses.blanks mid).unique hblanks))
    exact ⟨mid, us, ws, hfirst, hsecond, rfl⟩
  · rintro ⟨mid, us, vs, hfirst, hsecond, rfl⟩
    exact .spaced hfirst hsecond

/-- Whether a rule that begins with another rule ends with it before a parenthesis. -/
def Rule.EndsWith (whole first : Rule) : Prop := ∀ (here mid : Cursor) (us : List (Tree Rule)),
  Parses (.rule first) here (some (mid, us)) → ['('] <+: mid.skipSpaces.rest →
    ∃ ws, Parses (.rule whole) here (some (mid.skipSpaces, ws))

namespace Rule

/-- To end with a rule is to end with what that rule ends with. -/
theorem EndsWith.trans {r s t : Rule} (h : r.EndsWith s) (h' : s.EndsWith t) : r.EndsWith t := by
  intro here mid us hfirst hparen
  obtain ⟨vs, hvs⟩ := h' here mid us hfirst hparen
  have := h here mid.skipSpaces vs hvs
  rw [Cursor.skipSpaces_skipSpaces] at this
  exact this hparen

/-- A chain ends with an operand. -/
theorem endsWith_of_chained {whole first : Rule} {link : Pattern} {level : Nat}
    (hwhole : whole.pattern = chained first link) (hlink : Links first link level) :
    whole.EndsWith first := by
  rintro here mid us hfirst ⟨rest, hparen⟩
  have hnone : Parses link mid.skipSpaces none := by
    refine Parses.none_of_endsBefore hlink.shape ?_
    rw [← hparen]
    refine endsBefore_cons.mpr ?_
    cases hstarts : link.starts '(' with
    | false => rfl
    | true =>
      have := (hlink.starts '(' hstarts).2.2
      simp [goesOn] at this
  have rounds : Parses (spacedStar (spaced [link, call first])) mid.skipSpaces
      (some (mid.skipSpaces, [])) :=
    .counted (.counted (.opt (.seqFail (.counted (.seqFail hnone)))))
  have pattern : Parses whole.pattern here (some (mid.skipSpaces, us ++ [])) := by
    rw [hwhole]
    exact .counted (.spaced (Parses.call_iff.mpr hfirst) rounds)
  exact ⟨_, .rule pattern⟩

/-- A conditional ends with an operand that has its prefix operators. -/
theorem expr_endsWith_unary : expr.EndsWith unary :=
  (endsWith_of_chained rfl Links.conditional).trans <|
    (endsWith_of_chained rfl Links.logicalOr).trans <|
      (endsWith_of_chained rfl Links.logicalAnd).trans <|
        (endsWith_of_chained rfl Links.comparison).trans <|
          (endsWith_of_chained rfl Links.additive).trans <|
            endsWith_of_chained rfl Links.multiplicative

end Rule

namespace Parses

/-- A lambda is a primary of its own. -/
theorem primary_of_lambdaExpr (h : Parses (.rule .lambdaExpr) here (some (stop, ts))) :
    ∃ us, Parses (.rule .primary) here (some (stop, us)) := by
  obtain ⟨c, u, hmove, hc⟩ := h.derives.starts_cons rfl
  obtain rfl : c = '\x7b' := eq_of_beq hc
  exact ⟨_, rule_some_iff.mpr
    ⟨ts, firstOf_at 5 rfl (none_of_starts hmove (by decide)) (.counted h), rfl⟩⟩

/-- The patterns that attach something to a primary. -/
def attachment : Pattern := firstOf [call .subscript, call .methodCall, call .callArgs]

/-- A primary with nothing around it is an operand. -/
theorem unary_of_primary (h : Parses (.rule .primary) here (some (stop, ts)))
    (hhere : EndsBefore (fun c => isSpace c || Rule.unaryOp.starts c) here.rest)
    (hstop : EndsBefore attachment.starts stop.rest) :
    ∃ us, Parses (.rule .unary) here (some (stop, us)) := by
  obtain ⟨hspace, hop⟩ := endsBefore_or_iff.mp hhere
  have hskip := Cursor.skipSpaces_of_endsBefore hspace
  have hnone : Parses attachment stop none :=
    none_of_endsBefore ⟨rfl, rfl, rfl⟩ hstop
  have postfixed : Parses (.rule .postfixed) here (some (stop, [_])) :=
    rule_some_iff.mpr ⟨_, .counted (.andThen (.counted h) (.counted (.done hnone))), rfl⟩
  have hunary : Parses (.rule .unaryOp) here none := none_of_endsBefore ⟨rfl, rfl, rfl⟩ hop
  have ops : Parses (spacedStar (call .unaryOp)) here (some (here, [])) :=
    .counted (.counted (.opt (.seqFail hunary)))
  rw [← hskip] at postfixed
  exact ⟨_, rule_some_iff.mpr ⟨_, .counted (.spaced ops (.counted postfixed)), rfl⟩⟩

end Parses

namespace Derives

/-- An operand that begins with no prefix operator is a primary with what is attached to it. -/
theorem postfixed_of_unary (h : Derives (.rule .unary) here stop ts)
    (hhere : EndsBefore (fun c => isSpace c || Rule.unaryOp.starts c) here.rest) :
    ∃ us, Derives (.rule .postfixed) here stop us := by
  obtain ⟨hspace, hop⟩ := endsBefore_or_iff.mp hhere
  obtain ⟨_, hpattern, -, -⟩ := (rule_iff rfl).mp h
  obtain ⟨mid, _, us, hops, hpostfixed, -⟩ := spaced_iff.mp (counted_iff.mp hpattern)
  rcases spacedStar_iff.mp hops with ⟨rfl, -⟩ | ⟨_, _, _, hfirst, -, -⟩
  · rw [Cursor.skipSpaces_of_endsBefore hspace] at hpostfixed
    exact ⟨us, counted_iff.mp hpostfixed⟩
  · have hop : EndsBefore (call .unaryOp).starts here.rest := hop
    exact (not_of_endsBefore rfl hop hfirst).elim

/-- No operand begins with an arrow. -/
theorem unary_not_arrow (h : Derives (.rule .unary) here stop ts) :
    ¬ ['-', '>'] <+: here.rest := by
  rintro ⟨rest, hrest⟩
  have hspace : EndsBefore isSpace here.rest := hrest ▸ endsBefore_cons.mpr (by decide)
  obtain ⟨_, hpattern, -, -⟩ := (rule_iff rfl).mp h
  obtain ⟨mid, _, _, hops, hpostfixed, -⟩ := spaced_iff.mp (counted_iff.mp hpattern)
  rcases spacedStar_iff.mp hops with ⟨rfl, -⟩ | ⟨next, _, _, hfirst, hmore, -⟩
  · rw [Cursor.skipSpaces_of_endsBefore hspace] at hpostfixed
    refine not_of_endsBefore rfl ?_ hpostfixed
    rw [← hrest]
    exact endsBefore_cons.mpr (by decide)
  · obtain ⟨u, hmove, hu, -⟩ := (token_iff rfl).mp hfirst
    have hnext : next.rest = '>' :: rest := by
      have := hrest.trans hmove.rest_eq
      rcases hu with rfl | rfl | rfl <;> exact (List.cons.inj this).2.symm
    have hskip : next.skipSpaces = next :=
      Cursor.skipSpaces_of_endsBefore (hnext ▸ endsBefore_cons.mpr (by decide))
    have none_here {p : Pattern} {place : Cursor} {vs : List (Tree Rule)}
        (hp : p.mayBeEmpty = false) (hstarts : p.starts '>' = false) :
        ¬ Derives p next place vs :=
      not_of_endsBefore hp (hnext ▸ endsBefore_cons.mpr hstarts)
    rcases many_iff.mp hmore with ⟨-, rfl, -⟩ | ⟨_, _, _, hop, -, -⟩
    · rw [hskip] at hpostfixed
      exact none_here rfl (by decide) hpostfixed
    · have hop := afterBlanks_iff.mp (counted_iff.mp hop)
      rw [hskip] at hop
      exact none_here rfl (by decide) hop

/-- The rules that stand for a primary by themselves. -/
def primaryRules : List Rule :=
  [.blob, .float, .integer, .string, .literalDict, .lambdaExpr, .dict, .list, .option,
    .envVariable, .register, .functionCall, .variableRef]

/-- A primary derives what one of its rules does, or an expression between parentheses. -/
theorem primary_iff : Derives Rule.primary.pattern here stop ts ↔
    (∃ r ∈ primaryRules, Derives (.rule r) here stop ts) ∨
      Derives (spaced [.token "(", call .expr, .token ")"]) here stop ts := by
  simp only [Rule.pattern, firstOf, choice_iff, primaryRules, List.mem_cons, List.not_mem_nil,
    or_false, exists_eq_or_imp, exists_eq_left, call_iff]
  constructor
  · rintro (h | h | h | h | h | h | h | h | h | h | h | h | h | h) <;> simp only [h, true_or, or_true]
  · rintro ((h | h | h | h | h | h | h | h | h | h | h | h | h) | h) <;>
      simp only [h, true_or, or_true]

/-- Between parentheses stands an expression. -/
theorem paren_cases (h : Derives (spaced [.token "(", call .expr, .token ")"]) here stop ts) :
    ∃ t, ts = [t] ∧ t.label = .expr := by
  obtain ⟨_, us, vs, hopen, hrest, rfl⟩ := spaced_iff.mp (counted_iff.mp h)
  obtain ⟨-, rfl⟩ := text_iff.mp hopen
  obtain ⟨_, ws, xs, hexpr, hclose, rfl⟩ := spaced_iff.mp hrest
  obtain ⟨-, rfl⟩ := text_iff.mp hclose
  obtain ⟨inner, rfl⟩ := (call_iff.mp hexpr).eq_singleton
  exact ⟨inner, rfl, (call_iff.mp hexpr).span_eq.2⟩

/-- No name begins with a digit. -/
theorem isNameStart_of_isDigit {c : Char} (h : c.isDigit = true) : isNameStart c = false := by
  have range := isDigit_iff.mp h
  have hunderscore : c ≠ '_' := by
    rintro rfl
    exact absurd h (by decide)
  rw [isNameStart, beq_eq_false_iff_ne.mpr hunderscore, Bool.or_false, ← Bool.not_eq_true,
    isAlpha_iff, isUpper_iff, isLower_iff]
  omega

/-- A primary that begins a name is a call or a reference by that name. -/
theorem name_of_primary {c : Char} {u : List Char} (h : Derives (.rule .primary) here stop ts)
    (hhere : here.Moves (c :: u) mid) (hc : isNameStart c = true) :
    ∃ us, Derives (.rule .functionCall) here stop us ∨ Derives (.rule .variableRef) here stop us := by
  obtain ⟨us, hpattern, -, -⟩ := (rule_iff rfl).mp h
  have first {p : Pattern} {place : Cursor} {vs : List (Tree Rule)} (h : Derives p here place vs)
      (hp : p.mayBeEmpty = false) : p.starts c = true := by
    obtain ⟨d, v, hmove, hd⟩ := h.starts_cons hp
    obtain rfl := (List.cons.inj (hmove.rest_eq.symm.trans hhere.rest_eq)).1
    exact hd
  have other {d : Char} (hd : isNameStart d = false) : ¬ (c == d) = true := by
    intro heq
    rw [eq_of_beq heq, hd] at hc
    cases hc
  rcases primary_iff.mp hpattern with ⟨r, hr, h⟩ | h
  · simp only [primaryRules, List.mem_cons, List.not_mem_nil, or_false] at hr
    rcases hr with rfl | rfl | rfl | rfl | rfl | rfl | rfl | rfl | rfl | rfl | rfl | rfl | rfl
    · exact (other rfl (first h rfl)).elim
    · cases (isNameStart_of_isDigit (first h rfl)).symm.trans hc
    · cases (isNameStart_of_isDigit (first h rfl)).symm.trans hc
    · rcases Bool.or_eq_true_iff.mp (first h rfl) with h | h
      · exact (other rfl h).elim
      · exact (other rfl h).elim
    · exact (other rfl (first h rfl)).elim
    · exact (other rfl (first h rfl)).elim
    · exact (other rfl (first h rfl)).elim
    · exact (other rfl (first h rfl)).elim
    · exact (other rfl (first h rfl)).elim
    · exact (other rfl (first h rfl)).elim
    · exact (other rfl (first h rfl)).elim
    · exact ⟨us, .inl h⟩
    · exact ⟨us, .inr h⟩
  · obtain ⟨_, _, _, hopen, -, -⟩ := spaced_iff.mp (counted_iff.mp h)
    have hparen := first hopen rfl
    rw [← Option.some.inj (eq_of_beq hparen)] at hc
    cases hc

end Derives

/-- Two longest runs of a class end together. -/
theorem Cursor.Moves.run_unique {accepts : Char → Bool} {u v : List Char} (h : here.Moves u mid)
    (hu : u.all accepts = true) (hmid : EndsBefore accepts mid.rest) (h' : here.Moves v stop)
    (hv : v.all accepts = true) (hstop : EndsBefore accepts stop.rest) : mid = stop := by
  have hu := takeWhile_append hu hmid
  have hv := takeWhile_append hv hstop
  rw [← h.rest_eq] at hu
  rw [← h'.rest_eq] at hv
  obtain rfl := hu.symm.trans hv
  exact h.stop_unique h'

/-- What begins a name can go on with one. -/
theorem isNameChar_of_isNameStart {c : Char} (h : isNameStart c = true) :
    isNameChar c = true := by
  simp only [isNameStart, Bool.or_eq_true] at h
  simp only [isNameChar, isWordChar, Char.isAlphanum, Bool.or_eq_true]
  rcases h with h | h
  · exact .inl (.inl (.inl h))
  · exact .inl (.inr h)

/-- A name is a run of a class that takes its first character as well. -/
theorem all_of_isName {starts accepts : Char → Bool} {u : List Char}
    (h : ∀ c, starts c = true → accepts c = true) (hu : IsName starts accepts u) :
    u.all accepts = true := by
  obtain ⟨c, v, rfl, hc, hv⟩ := hu
  rw [List.all_cons, h c hc, hv]
  rfl

/-- A primary that begins with a name which nothing continues is that name. -/
theorem Derives.primary_stop_of_name {u : List Char} (h : Derives (.rule .primary) here stop ts)
    (hmove : here.Moves u mid) (hu : IsName isNameStart isNameChar u)
    (hend : EndsBefore (fun c => isNameChar c || (c == ':' || c == '(')) mid.rest) :
    stop = mid := by
  obtain ⟨hname, hopen⟩ := endsBefore_or_iff.mp hend
  obtain ⟨hcolon, hparen⟩ := endsBefore_or_iff.mp hopen
  have same {place : Cursor} {v : List Char} (hmove' : here.Moves v place)
      (hv : IsName isNameStart isNameChar v) (hend' : EndsBefore isNameChar place.rest) :
      place = mid :=
    hmove'.run_unique (all_of_isName (fun _ => isNameChar_of_isNameStart) hv) hend' hmove
      (all_of_isName (fun _ => isNameChar_of_isNameStart) hu) hname
  have noScope {place : Cursor} {vs : List (Tree Rule)} : ¬ Derives (.rule .scope) here place vs := by
    intro hscope
    obtain ⟨_, hmove', ⟨c, rfl, -⟩, -⟩ := (Derives.token_iff rfl).mp hscope
    obtain ⟨-, hrest⟩ := Rule.name_before_colon rfl hu (hmove.rest_eq.symm.trans hmove'.rest_eq)
    rw [hrest] at hcolon
    cases endsBefore_cons.mp hcolon
  have hstart := hu
  obtain ⟨c, v, rfl, hc, -⟩ := hstart
  obtain ⟨us, hcall | hvariable⟩ := h.name_of_primary hmove hc
  · obtain ⟨_, hpattern, -, -⟩ := (Derives.rule_iff rfl).mp hcall
    obtain ⟨inner, _, _, hscope, hafter, -⟩ := Derives.seq_iff.mp (Derives.counted_iff.mp hpattern)
    rcases Derives.opt_iff.mp (Derives.counted_iff.mp hscope) with ⟨rfl, rfl⟩ | hscope
    · obtain ⟨place, _, _, hfunction, hargs, -⟩ := Derives.seq_iff.mp hafter
      obtain ⟨w, hmove', ⟨hw, hend'⟩, -⟩ := (Derives.token_iff rfl).mp hfunction
      obtain rfl := same hmove' hw hend'
      have hparen : EndsBefore (call .callArgs).starts place.rest := hparen
      exact (Derives.not_of_endsBefore rfl hparen hargs).elim
    · exact (noScope hscope).elim
  · obtain ⟨_, hpattern, -, -⟩ := (Derives.rule_iff rfl).mp hvariable
    rcases Derives.choice_iff.mp hpattern with hscoped | hvariable
    · obtain ⟨_, _, _, hscope, -, -⟩ := Derives.seq_iff.mp (Derives.counted_iff.mp hscoped)
      exact (noScope hscope).elim
    · obtain ⟨w, hmove', ⟨hw, hend'⟩, -⟩ := (Derives.token_iff rfl).mp hvariable
      exact same hmove' hw hend'

/-- What takes no call leaves a postfix chain settled, whatever follows. -/
theorem Rule.settled_postfixed {first : Tree Rule} {more : List (Tree Rule)} {rest : List Char}
    (h : first.takesCall = false) : postfixed.Settled (first :: more) rest := by
  cases more with
  | nil => exact trivial
  | cons second more =>
    intro hfirst
    rw [h] at hfirst
    cases hfirst

namespace Derives

/-- What a method call calls is a primary by itself, unless blanks part a lambda from its
arguments. -/
theorem primary_of_methodCall {arrow : Cursor} (h : Derives (.rule .methodCall) here stop ts)
    (harrow : here.Moves ['-', '>'] arrow) :
    (∃ node, Derives (.rule .primary) arrow.skipSpaces stop [node] ∧ node.takesCall = false) ∨
      ∃ mid us, Derives (.rule .lambda) arrow.skipSpaces mid us ∧ mid.skipSpaces ≠ mid ∧
        ['('] <+: mid.skipSpaces.rest := by
  obtain ⟨_, hpattern, -, -⟩ := (rule_iff rfl).mp h
  obtain ⟨mid, _, _, htext, hcall, -⟩ := spaced_iff.mp (counted_iff.mp hpattern)
  obtain ⟨hmove, -⟩ := text_iff.mp htext
  obtain rfl := hmove.stop_unique harrow
  rcases choice_iff.mp hcall with hcall | hcall
  · obtain ⟨inner, us, vs, hlambda, hargs, -⟩ := spaced_iff.mp (counted_iff.mp hcall)
    rcases inner.skipSpaces_eq_or_lt with hskip | hlt
    · rw [hskip] at hargs
      obtain ⟨lambdaNode, rfl⟩ := (call_iff.mp hlambda).eq_singleton
      obtain ⟨argsNode, rfl⟩ := (call_iff.mp hargs).eq_singleton
      have hexpr : Derives Rule.lambdaExpr.pattern mid.skipSpaces stop _ :=
        .counted (.seq hlambda (.counted (.present hargs)))
      have hprimary : Derives Rule.primary.pattern mid.skipSpaces stop _ :=
        primary_iff.mpr (.inl ⟨.lambdaExpr, by decide, .rule rfl hexpr trivial⟩)
      exact .inl ⟨_, .rule rfl hprimary trivial, rfl⟩
    · refine .inr ⟨inner, us, call_iff.mp hlambda, fun heq => ?_, ?_⟩
      · rw [heq] at hlt
        exact Nat.lt_irrefl _ hlt
      · obtain ⟨c, u, hopen, hc⟩ := hargs.starts_cons rfl
        rw [eq_of_beq hc] at hopen
        exact ⟨_, hopen.rest_eq.symm⟩
  · obtain ⟨t, rfl⟩ := (call_iff.mp hcall).eq_singleton
    have hprimary : Derives Rule.primary.pattern mid.skipSpaces stop [t] :=
      primary_iff.mpr (.inl ⟨.functionCall, by decide, call_iff.mp hcall⟩)
    obtain ⟨children, -, -, hnode⟩ := (rule_iff rfl).mp (call_iff.mp hcall)
    obtain rfl := List.singleton_inj.mp hnode
    exact .inl ⟨_, .rule rfl hprimary trivial, rfl⟩

end Derives

/-- What follows a parameter of a lambda: the next parameter or the arrow. -/
theorem Derives.after_param {arrow : Cursor} (h : Derives (.rule .lambdaParams) here mid ts)
    (harrow : mid.skipSpaces.Moves ['-', '>'] arrow) : here.skipSpaces.rest = ['-', '>'] ++ arrow.rest ∨
      ∃ param u, here.Moves u param ∧ IsName isNameStart isWordChar u ∧
        EndsBefore isWordChar param.rest ∧
        (mid.skipSpaces = param.skipSpaces ∨ ∃ rest, param.skipSpaces.rest = ',' :: rest) := by
  obtain ⟨_, hpattern, -, -⟩ := (rule_iff rfl).mp h
  rcases opt_iff.mp (counted_iff.mp hpattern) with ⟨rfl, -⟩ | hpresent
  · exact .inl harrow.rest_eq
  · obtain ⟨param, _, _, hparam, hrounds, -⟩ := spaced_iff.mp (counted_iff.mp hpresent)
    obtain ⟨u, hmove, ⟨hu, hend⟩, -⟩ := (token_iff rfl).mp hparam
    refine .inr ⟨param, u, hmove, hu, hend, ?_⟩
    rcases spacedStar_iff.mp hrounds with ⟨rfl, -⟩ | ⟨_, _, _, hround, -, -⟩
    · exact .inl param.skipSpaces_skipSpaces
    · obtain ⟨_, _, _, hcomma, -, -⟩ := spaced_iff.mp (counted_iff.mp hround)
      exact .inr ⟨_, (text_iff.mp hcomma).1.rest_eq⟩

/-- A name before the next parameter or the arrow is not continued. -/
theorem endsBefore_of_skipSpaces {place : Cursor} {c : Char} {rest : List Char}
    (h : place.skipSpaces.rest = c :: rest)
    (hc : c = ',' ∨ c = '-') :
    EndsBefore (fun c => isNameChar c || (c == ':' || c == '(')) place.rest := by
  intro d hd
  have hcases : isSpace d = true ∨ d = c := by
    cases hspace : isSpace d with
    | true => exact .inl rfl
    | false =>
      have hends : EndsBefore isSpace place.rest := fun e he => by
        rw [hd] at he
        obtain rfl := Option.some.inj he
        exact hspace
      rw [Cursor.skipSpaces_of_endsBefore hends] at h
      rw [h] at hd
      exact .inr (Option.some.inj hd).symm
  rcases hcases with hspace | rfl
  · rcases (by simpa [isSpace] using hspace : d = ' ' ∨ d = '\t') with rfl | rfl <;> decide
  · rcases hc with rfl | rfl <;> decide

/-- No blank and no prefix operator begins a name. -/
theorem not_operator_of_isNameStart {c : Char} (hc : isNameStart c = true) :
    (isSpace c || Rule.unaryOp.starts c) = false := by
  cases h : isSpace c || Rule.unaryOp.starts c with
  | false => rfl
  | true =>
    have h : c ∈ [' ', '\t', '!', '-', '+'] := by
      simpa [isSpace, Rule.starts, or_assoc] using h
    simp only [List.mem_cons, List.not_mem_nil, or_false] at h
    rcases h with rfl | rfl | rfl | rfl | rfl <;> cases hc

/-- Letters, digits and underscores are characters of names. -/
theorem all_isNameChar {u : List Char} (h : u.all isWordChar = true) : u.all isNameChar = true := by
  rw [List.all_eq_true] at h ⊢
  intro c hc
  rw [isNameChar, h c hc]
  rfl

namespace Derives

/-- What is attached to a primary begins with no blank. -/
theorem endsBefore_of_attachment (h : Derives Parses.attachment here stop ts) :
    EndsBefore isSpace here.rest := by
  obtain ⟨c, u, hmove, hc⟩ := h.starts_cons rfl
  rw [hmove.rest_eq, List.cons_append]
  refine endsBefore_cons.mpr ?_
  have hc : c ∈ ['[', '-', '('] := by
    simpa [Pattern.starts, Parses.attachment, firstOf, call, Rule.starts,
      Rule.changesSpacing] using hc
  simp only [List.mem_cons, List.not_mem_nil, or_false] at hc
  rcases hc with rfl | rfl | rfl <;> rfl

/-- What is attached in front of a comma or of the dash of an arrow is a method call. -/
theorem methodCall_of_attachment {c : Char} {rest : List Char}
    (h : Derives Parses.attachment here stop ts) (hrest : here.rest = c :: rest)
    (hc : c = ',' ∨ c = '-') : Derives (.rule .methodCall) here stop ts := by
  have other {p : Pattern} {place : Cursor} {us : List (Tree Rule)} (hp : p.mayBeEmpty = false)
      (hcomma : p.starts ',' = false) (hdash : p.starts '-' = false) :
      ¬ Derives p here place us := by
    refine not_of_endsBefore hp (hrest ▸ endsBefore_cons.mpr ?_)
    rcases hc with rfl | rfl
    · exact hcomma
    · exact hdash
  rcases choice_iff.mp h with hsubscript | h
  · exact (other rfl (by decide) (by decide) hsubscript).elim
  rcases choice_iff.mp h with hmethod | hargs
  · exact call_iff.mp hmethod
  · exact (other rfl (by decide) (by decide) hargs).elim

/-- An operand that begins with a name in front of a comma or of an arrow is that name, or a
method is called on it. -/
theorem name_of_unary {c : Char} {u rest : List Char} (h : Derives (.rule .unary) here stop ts)
    (hmove : here.Moves u mid) (hu : IsName isNameStart isWordChar u)
    (hrest : mid.skipSpaces.rest = c :: rest) (hc : c = ',' ∨ c = '-') :
    stop = mid ∨ ∃ after us vs, mid.rest = c :: rest ∧ Derives (.rule .methodCall) mid after us ∧
      Derives (.many Parses.attachment) after stop vs := by
  obtain ⟨d, v, rfl, hd, hv⟩ := hu
  have hfirst : EndsBefore (fun c => isSpace c || Rule.unaryOp.starts c) here.rest := by
    rw [hmove.rest_eq, List.cons_append]
    exact endsBefore_cons.mpr (not_operator_of_isNameStart hd)
  obtain ⟨_, hpostfixed⟩ := h.postfixed_of_unary hfirst
  obtain ⟨_, hpattern, -, -⟩ := (rule_iff rfl).mp hpostfixed
  obtain ⟨place, _, _, hprimary, hattached, -⟩ := seq_iff.mp (counted_iff.mp hpattern)
  obtain rfl := (call_iff.mp hprimary).primary_stop_of_name hmove
    ⟨d, v, rfl, hd, all_isNameChar hv⟩ (endsBefore_of_skipSpaces hrest hc)
  rcases many_iff.mp (counted_iff.mp hattached) with
    ⟨-, rfl, -⟩ | ⟨after, us, vs, hround, hmore, -⟩
  · exact .inl rfl
  · have hround : Derives Parses.attachment place after us := hround
    rw [Cursor.skipSpaces_of_endsBefore hround.endsBefore_of_attachment] at hrest
    exact .inr ⟨after, us, vs, hrest, hround.methodCall_of_attachment hrest hc, hmore⟩

/-- A primary with what is attached to it is an operand. -/
theorem unary_of_primary {node : Tree Rule} (h : Derives (.rule .primary) here mid [node])
    (hnode : node.takesCall = false) (hhere : here.skipSpaces = here)
    (hmore : Derives (.many Parses.attachment) mid stop ts) :
    ∃ us, Derives (.rule .unary) here stop us := by
  have postfixed : Derives (.rule .postfixed) here stop [_] :=
    .rule rfl (.counted (.seq (.counted h) (.counted hmore))) (Rule.settled_postfixed hnode)
  rw [← hhere] at postfixed
  exact ⟨_, .rule rfl (.counted (spaced_iff.mpr
    ⟨_, [], _, .counted (.counted .absent), .counted postfixed, rfl⟩)) trivial⟩

end Derives

/-- A lambda that blanks part from a parenthesis is an expression that ends in front of it. -/
theorem Parses.expr_of_parted_lambda (h : Parses (.rule .lambda) here (some (mid, ts)))
    (hmid : mid.skipSpaces ≠ mid) (hparen : ['('] <+: mid.skipSpaces.rest) :
    ∃ us, Parses (.rule .expr) here (some (mid.skipSpaces, us)) := by
  obtain ⟨t, rfl⟩ := h.derives.eq_singleton
  obtain ⟨c, u, hbrace, hc⟩ := h.derives.starts_cons rfl
  obtain rfl : c = '\x7b' := eq_of_beq hc
  have hargs : Parses (call .callArgs) mid none :=
    none_of_endsBefore ⟨rfl, rfl, rfl⟩ (Cursor.endsBefore_of_skipSpaces_ne hmid (by decide))
  have hlambdaExpr : Parses (.rule .lambdaExpr) here (some (mid, [_])) :=
    rule_some_iff.mpr ⟨_, .counted (.andThen (.counted h) (.counted (.opt hargs))), rfl⟩
  obtain ⟨_, hprimary⟩ := hlambdaExpr.primary_of_lambdaExpr
  obtain ⟨_, hunary⟩ := hprimary.unary_of_primary
    (by rw [hbrace.rest_eq]; exact endsBefore_cons.mpr (by decide))
    (Cursor.endsBefore_of_skipSpaces_ne hmid (by decide))
  exact Rule.expr_endsWith_unary _ _ _ hunary hparen

/-- A lambda whose parameters and arrow stand where the first key of a dictionary does would end
at the colon behind the key. -/
theorem Rule.no_lambda_at_key {key colon arrow body last params : Cursor}
    {vs ws : List (Tree Rule)} (below : CompleteBelow here.rest.length)
    (hplace : stop.rest.length < here.rest.length) (hskip : stop.skipSpaces = stop)
    (hkey : Derives (.rule expr) stop key ts) (hcolon : key.skipSpaces.Moves [':'] colon)
    (hparams : Derives (.rule lambdaParams) stop params vs)
    (harrow : params.skipSpaces.Moves ['-', '>'] arrow)
    (hbody : Parses (.rule expr) arrow.skipSpaces (some (body, ws)))
    (hclose : body.skipSpaces.Moves ['\x7d'] last) : False := by
  obtain ⟨operand, us, hunary, hlift, hstuck⟩ := expr_heads_unary _ _ _ hkey
  rcases hparams.after_param harrow with hnone | ⟨param, u, hmove, hu, hend, hnext⟩
  · rw [hskip] at hnone
    exact hunary.unary_not_arrow ⟨_, hnone.symm⟩
  -- Behind the name stands a comma or the arrow.
  obtain ⟨c, rest, hrest, hc⟩ : ∃ c rest, param.skipSpaces.rest = c :: rest ∧ (c = ',' ∨ c = '-') := by
    rcases hnext with heq | ⟨rest, hcomma⟩
    · exact ⟨'-', _, by rw [← heq, harrow.rest_eq]; rfl, .inr rfl⟩
    · exact ⟨',', rest, hcomma, .inl rfl⟩
  rcases hunary.name_of_unary hmove hu hrest hc with
    rfl | ⟨after, first, more, hdash, hmethod, hmore⟩
  · -- The key is the name alone, but behind the key stands a colon.
    have hparamStuck : operand.skipSpaces.Stuck := by
      rcases hnext with heq | ⟨rest, hcomma⟩
      · exact .inr ⟨arrow.rest, by rw [← heq, harrow.rest_eq]⟩
      · exact .inl (hcomma ▸ endsBefore_cons.mpr (by decide))
    rw [hstuck hparamStuck, Cursor.skipSpaces_skipSpaces] at hcolon
    obtain rfl := (List.cons.inj (hrest.symm.trans hcolon.rest_eq)).1
    rcases hc with hc | hc <;> cases hc
  -- A method is called on the name, so the arrow of the call is that of the lambda.
  obtain ⟨d, x, hmark, hd⟩ := hmethod.starts_cons rfl
  obtain rfl : d = '-' := eq_of_beq hd
  have heq : params.skipSpaces = param := by
    have hspace : EndsBefore isSpace param.rest := hmark.rest_eq ▸ endsBefore_cons.mpr (by decide)
    rw [Cursor.skipSpaces_of_endsBefore hspace] at hnext
    rcases hnext with heq | ⟨rest, hcomma⟩
    · exact heq
    · cases (List.cons.inj (hmark.rest_eq.symm.trans hcomma)).1
  rw [heq] at harrow
  have hshort : arrow.skipSpaces.rest.length < here.rest.length := by
    have := harrow.length_le
    have := arrow.skipSpaces_length_le
    have := hmove.length_le
    omega
  rcases hmethod.primary_of_methodCall harrow with
    ⟨node, hnode, hcall⟩ | ⟨inner, zs, hlambda, hne, hparen⟩
  · -- What the key calls is a body that ends where the key does, before the colon.
    obtain ⟨_, hunaryHere⟩ := hnode.unary_of_primary hcall arrow.skipSpaces_skipSpaces hmore
    obtain ⟨_, hexpr⟩ := hlift _ _ hunaryHere
    obtain ⟨t, rfl⟩ := hexpr.eq_singleton
    have hwhole := below _ hshort expr _ _ hexpr (hcolon.free_of_closes rfl)
    obtain ⟨rfl, -⟩ := Prod.mk.inj (Option.some.inj (hwhole.unique hbody))
    cases (List.cons.inj (hcolon.rest_eq.symm.trans hclose.rest_eq)).1
  · -- Blanks part the called lambda from its arguments, so the body ends before these.
    obtain ⟨t, rfl⟩ := hlambda.eq_singleton
    have hwhole := below _ hshort lambda _ _ hlambda trivial
    obtain ⟨_, hexpr⟩ := hwhole.expr_of_parted_lambda hne hparen
    obtain ⟨rfl, -⟩ := Prod.mk.inj (Option.some.inj (hexpr.unique hbody))
    obtain ⟨rest, hparen⟩ := hparen
    rw [Cursor.skipSpaces_skipSpaces] at hclose
    cases (List.cons.inj (hparen.trans hclose.rest_eq)).1

/-- Where a dictionary stands a lambda fails. -/
theorem Rule.lambda_none_of_dict (below : CompleteBelow here.rest.length)
    (h : Derives (.rule dict) here stop ts) : Parses (.rule lambda) here none := by
  refine Rule.parses_none fun last zs hlambda => ?_
  obtain ⟨_, hinside, -⟩ := Parses.rule_some_iff.mp hlambda
  obtain ⟨first, _, _, hopen, hafter, -⟩ :=
    Parses.spaced_some_iff.mp (Parses.counted_iff.mp hinside)
  obtain ⟨params, _, _, hparams, hafter', -⟩ := Parses.spaced_some_iff.mp hafter
  obtain ⟨arrow, _, _, harrow, hafter'', -⟩ := Parses.spaced_some_iff.mp hafter'
  obtain ⟨body, _, _, hbody, hlast, -⟩ := Parses.spaced_some_iff.mp hafter''
  obtain ⟨hbrace, -⟩ := Parses.token_some_iff.mp hopen
  obtain ⟨harrow, -⟩ := Parses.token_some_iff.mp harrow
  obtain ⟨hclose, -⟩ := Parses.token_some_iff.mp hlast
  have hparams := (Parses.call_iff.mp hparams).derives
  obtain ⟨_, hpattern, -, -⟩ := (Derives.rule_iff rfl).mp h
  obtain ⟨first', _, _, hopen', hentries, -⟩ :=
    Derives.spaced_iff.mp (Derives.counted_iff.mp hpattern)
  obtain ⟨final, _, _, hlist, hend, -⟩ := Derives.spaced_iff.mp hentries
  obtain ⟨hbrace', -⟩ := Derives.text_iff.mp hopen'
  obtain rfl := hbrace.stop_unique hbrace'
  rcases Derives.opt_iff.mp (Derives.counted_iff.mp hlist) with ⟨rfl, -⟩ | hlist
  · have hend := (Derives.text_iff.mp hend).1
    rw [Cursor.skipSpaces_skipSpaces] at hend
    rcases hparams.after_param harrow with hnone | ⟨param, u, hmove, ⟨d, v, rfl, hd, -⟩, -⟩
    · rw [Cursor.skipSpaces_skipSpaces] at hnone
      cases (List.cons.inj (hend.rest_eq.symm.trans hnone)).1
    · obtain rfl := (List.cons.inj (hend.rest_eq.symm.trans hmove.rest_eq)).1
      cases hd
  · obtain ⟨_, _, _, hentry, -, -⟩ := Derives.spaced_iff.mp (Derives.counted_iff.mp hlist)
    obtain ⟨_, hentryPattern, -, -⟩ := (Derives.rule_iff rfl).mp (Derives.call_iff.mp hentry)
    obtain ⟨key, _, _, hkey, hvalue, -⟩ :=
      Derives.spaced_iff.mp (Derives.counted_iff.mp hentryPattern)
    obtain ⟨colon, _, _, hcolon, -, -⟩ := Derives.spaced_iff.mp hvalue
    have hlt := hbrace.length_lt (by decide)
    have hle := first.skipSpaces_length_le
    exact no_lambda_at_key below (by omega) first.skipSpaces_skipSpaces
      (Derives.call_iff.mp hkey) (Derives.text_iff.mp hcolon).1 hparams harrow
      (Parses.call_iff.mp hbody) hclose

end Vimscript
