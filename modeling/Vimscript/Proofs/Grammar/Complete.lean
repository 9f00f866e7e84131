import Vimscript.Proofs.Grammar.Opening

/-!
# Matching yields every derivation that may end where it ends

A derivation whose following text does not go on with it is what matching yields. The proof is by
induction on the length of the text; at one place it goes from the primaries up through the tiers.
Each choice of the grammar asks why the earlier alternatives fail, and nearly always they begin
with other characters.
-/

namespace Vimscript

open Pattern Text

variable {here stop : Cursor} {ts : List (Tree Rule)}

namespace Derives

/-- Where digits and a point or the mark of a base stand there is no blob. -/
theorem not_blob_of_second {c d : Char} {rest : List Char} (h : here.rest = c :: d :: rest)
    (hd : d ≠ 'z' ∧ d ≠ 'Z') : ¬ Derives (.rule .blob) here stop ts := by
  intro hblob
  obtain ⟨_, hmove, ⟨mark, digits, rfl, hmark, -⟩, -⟩ := (token_iff rfl).mp hblob
  obtain ⟨-, hsecond⟩ := List.cons.inj (h.symm.trans hmove.rest_eq)
  obtain ⟨rfl, -⟩ := List.cons.inj hsecond
  rcases hmark with rfl | rfl
  · exact hd.1 rfl
  · exact hd.2 rfl

end Derives

namespace Rule

/-- Where a float stands no blob does. -/
theorem blob_none_of_float (h : Derives (.rule float) here stop ts) :
    Parses (.rule blob) here none := by
  refine Rule.parses_none fun _ _ hsome => ?_
  obtain ⟨_, hmove, ⟨whole, fraction, exponent, rfl, ⟨hne, hwhole⟩, -⟩, -⟩ :=
    (Derives.token_iff rfl).mp h
  have notMark {d : Char} (hd : d.isDigit = true) : d ≠ 'z' ∧ d ≠ 'Z' := by
    constructor <;> rintro rfl <;> cases hd
  match whole, hne with
  | [c], _ => exact Derives.not_blob_of_second hmove.rest_eq (by decide) hsome.derives
  | c :: d :: whole, _ =>
    have hd : d.isDigit = true := by
      simp only [List.all_cons, Bool.and_eq_true] at hwhole
      exact hwhole.2.1
    exact Derives.not_blob_of_second hmove.rest_eq (notMark hd) hsome.derives

/-- Where an integer stands no blob does. -/
theorem blob_none_of_integer (h : Derives (.rule integer) here stop ts) :
    Parses (.rule blob) here none := by
  refine Rule.parses_none fun _ _ hsome => ?_
  obtain ⟨u, hmove, ⟨hend, hu⟩, -⟩ := (Derives.token_iff rfl).mp h
  have second : ∀ mark, here.rest[1]? = some mark → mark ≠ 'z' ∧ mark ≠ 'Z' := by
    rcases hu with hu | hu | hu | hu
    · exact Parses.second_of_based hmove hu (by decide) (by decide)
    · exact Parses.second_of_based hmove hu (by decide) (by decide)
    · exact Parses.second_of_based hmove hu (by decide) (by decide)
    · exact Parses.second_of_digits hmove hu hend (by decide) (by decide)
  obtain ⟨_, hmove', ⟨mark, digits, rfl, hmark, -⟩, -⟩ := (Parses.token_iff rfl).mp hsome
  have hsecond := second mark (by rw [hmove'.rest_eq]; rfl)
  rcases hmark with rfl | rfl
  · exact hsecond.1 rfl
  · exact hsecond.2 rfl

/-- No float stands where an integer counts. -/
theorem float_none_of_integer {t : Tree Rule} (h : Derives (.rule integer) here stop [t])
    (hsettled : primary.Settled [t] stop.rest) : Parses (.rule float) here none := by
  refine Rule.parses_none fun _ _ hsome => ?_
  obtain ⟨u, hmove, ⟨hend, hu⟩, hnode⟩ := (Derives.token_iff rfl).mp h
  obtain rfl := List.singleton_inj.mp hnode
  obtain ⟨_, hmove', ⟨whole, fraction, exponent, rfl, ⟨hne, hwhole⟩, hfraction, -⟩, -⟩ :=
    (Parses.token_iff rfl).mp hsome
  have hrest := hmove'.rest_eq
  rw [List.append_assoc, List.append_assoc] at hrest
  obtain ⟨d, v, rfl, hd⟩ := starts_of_isRun hfraction
  have based {lower upper : Char} {isDigit : Char → Bool} (hu : IsBased lower upper isDigit u)
      (hlower : lower.isDigit = false ∧ lower ≠ '.') (hupper : upper.isDigit = false ∧ upper ≠ '.') :
      False := by
    obtain ⟨mark, digits, rfl, hmark, -⟩ := hu
    have hmark : mark.isDigit = false ∧ mark ≠ '.' := by
      rcases hmark with rfl | rfl
      · exact hlower
      · exact hupper
    have heads := hmove.rest_eq.symm.trans hrest
    match whole, hne with
    | [c], _ => exact hmark.2 (List.cons.inj (List.cons.inj heads).2).1
    | c :: e :: whole, _ =>
      obtain rfl := (List.cons.inj (List.cons.inj heads).2).1
      simp [hmark.1] at hwhole
  rcases hu with hu | hu | hu | hu
  · exact based hu (by decide) (by decide)
  · exact based hu (by decide) (by decide)
  · exact based hu (by decide) (by decide)
  · -- Both the number and the whole part of the float are all the digits there.
    have hdigits : EndsBefore Char.isDigit stop.rest :=
      endsBefore_mono (fun _ => isWordChar_of_isDigit) hend
    obtain ⟨place, hplace, hplaceRest⟩ : ∃ place, here.Moves whole place ∧
        place.rest = '.' :: d :: (v ++ (exponent ++ _)) := ⟨_, .of_rest_eq hrest, rfl⟩
    have hpoint : EndsBefore Char.isDigit place.rest := by
      rw [hplaceRest]
      exact endsBefore_cons.mpr (by decide)
    obtain rfl := hmove.run_unique hu.2 hdigits hplace hwhole hpoint
    have hsettled : ∀ d more, stop.rest = '.' :: d :: more → d.isDigit = false := by
      refine hsettled ?_
      rw [hmove.excerpt_toList]
      exact hu.2
    have := hsettled d _ hplaceRest
    rw [hd] at this
    cases this

/-- No call stands where a variable counts. -/
theorem functionCall_none_of_variableRef {t : Tree Rule}
    (h : Derives (.rule variableRef) here stop [t])
    (hfollow : t.takesCall = true → EndsBefore (· == '(') stop.rest) :
    Parses (.rule functionCall) here none := by
  refine Rule.parses_none fun last us hsome => ?_
  obtain ⟨children, hpattern, hsettled, hnode⟩ := (Derives.rule_iff rfl).mp h
  obtain rfl := List.singleton_inj.mp hnode
  obtain ⟨_, hcall, -, -⟩ := (Derives.rule_iff rfl).mp hsome.derives
  obtain ⟨inner, _, _, hscope, hafter, -⟩ := Derives.seq_iff.mp (Derives.counted_iff.mp hcall)
  obtain ⟨place, _, _, hname, hargs, -⟩ := Derives.seq_iff.mp hafter
  obtain ⟨u, hmove, ⟨hu, hend⟩, -⟩ := (Derives.token_iff rfl).mp hname
  have hall := all_of_isName (fun _ => isNameChar_of_isNameStart) hu
  -- With the same name at its end the variable would be followed by the arguments.
  have same (heq : place = stop) (hcalls : (variableRef.node here stop children).takesCall = true) :
      False := by
    rw [heq] at hargs
    have hparen : EndsBefore (call callArgs).starts stop.rest := hfollow hcalls
    exact Derives.not_of_endsBefore rfl hparen hargs
  have opens : ∃ rest, place.rest = '(' :: rest := by
    obtain ⟨c, v, hopen, hc⟩ := hargs.starts_cons rfl
    rw [eq_of_beq hc] at hopen
    exact ⟨_, hopen.rest_eq⟩
  have calls (before : List (Tree Rule)) {mid : Cursor} {v : List Char} {r : Rule}
      (hv : mid.Moves v stop) (hstart : v.head?.any isNameStart = true) :
      (variableRef.node here stop (before ++ [r.node mid stop []])).takesCall = true := by
    change ((before ++ [r.node mid stop []]).getLast?.any _) = true
    rw [List.getLast?_append, List.getLast?_singleton, Option.some_or, Option.any_some,
      hv.node_text]
    exact hstart
  obtain ⟨opening, hopen⟩ := opens
  rcases Derives.choice_iff.mp hpattern with hscoped | hvariable
  · obtain ⟨mid, _, _, hscope', hname', rfl⟩ :=
      Derives.seq_iff.mp (Derives.counted_iff.mp hscoped)
    obtain ⟨_, hmove', ⟨c, rfl, hc⟩, rfl⟩ := (Derives.token_iff rfl).mp hscope'
    obtain ⟨v, hmoveName, ⟨⟨hne, hv⟩, hend'⟩, rfl⟩ := (Derives.token_iff rfl).mp hname'
    rcases Derives.opt_iff.mp (Derives.counted_iff.mp hscope) with ⟨rfl, -⟩ | hscope
    · obtain ⟨-, hcolon⟩ := name_before_colon rfl hu
        (hmove.rest_eq.symm.trans hmove'.rest_eq)
      cases (List.cons.inj (hopen.symm.trans hcolon)).1
    · obtain ⟨_, hmove'', ⟨d, rfl, -⟩, -⟩ := (Derives.token_iff rfl).mp hscope
      obtain ⟨rfl, -⟩ := List.cons.inj (hmove'.rest_eq.symm.trans hmove''.rest_eq)
      obtain rfl := hmove'.stop_unique hmove''
      have heq := hmove.run_unique hall hend hmoveName hv hend'
      rw [heq] at hmove
      obtain rfl := hmove.text_unique hmoveName
      obtain ⟨e, w, rfl, he, -⟩ := hu
      exact same heq (calls [_] hmoveName (by simpa using he))
  · obtain ⟨v, hmoveName, ⟨hv, hend'⟩, rfl⟩ := (Derives.token_iff rfl).mp hvariable
    have hallName := all_of_isName (fun _ => isNameChar_of_isNameStart) hv
    rcases Derives.opt_iff.mp (Derives.counted_iff.mp hscope) with ⟨rfl, -⟩ | hscope
    · have heq := hmove.run_unique hall hend hmoveName hallName hend'
      obtain ⟨e, w, rfl, he, -⟩ := hv
      exact same heq (calls [] hmoveName (by simpa using he))
    · obtain ⟨_, hmove', ⟨c, rfl, hc⟩, -⟩ := (Derives.token_iff rfl).mp hscope
      obtain ⟨rfl, hcolon⟩ := name_before_colon rfl hv
        (hmoveName.rest_eq.symm.trans hmove'.rest_eq)
      obtain ⟨d, w, rfl, hd, -⟩ := hu
      have := hsettled c hmoveName.node_text hc d _
        (hcolon.trans (by rw [hmove.rest_eq]; rfl))
      rw [isNameChar_of_isNameStart hd] at this
      cases this

/-- What a primary may be, in the order of the grammar. -/
def primaryPatterns : List Pattern :=
  [call blob, call float, call integer, call string, call literalDict, call lambdaExpr, call dict,
    call list, spaced [token "(", call expr, token ")"], call option, call envVariable,
    call register, call functionCall, call variableRef]

/-- Nothing but a name begins as a name does. -/
theorem names_exclude {c : Char} (hc : isNameStart c = true) :
    ∀ q ∈ primaryPatterns.take 12, (q.mayBeEmpty = false ∧ q.isPlain = true ∧
      q.ranked topRank = true) ∧ q.starts c = false := by
  have other {d : Char} (hd : isNameStart d = false) : (c == d) = false := by
    refine beq_eq_false_iff_ne.mpr ?_
    rintro rfl
    rw [hc] at hd
    cases hd
  have digit : c.isDigit = false := by
    cases hdigit : c.isDigit with
    | false => rfl
    | true => cases (Derives.isNameStart_of_isDigit hdigit).symm.trans hc
  have hshape : ∀ q ∈ primaryPatterns.take 12, q.mayBeEmpty = false ∧ q.isPlain = true ∧
      q.ranked topRank = true := by decide
  refine fun q hq => ⟨hshape q hq, ?_⟩
  simp only [primaryPatterns, List.take_succ_cons, List.take_zero, List.mem_cons,
    List.not_mem_nil, or_false] at hq
  rcases hq with rfl | rfl | rfl | rfl | rfl | rfl | rfl | rfl | rfl | rfl | rfl | rfl
  · exact other rfl
  · exact digit
  · exact digit
  · exact Bool.or_eq_false_iff.mpr ⟨other rfl, other rfl⟩
  · exact other rfl
  · exact other rfl
  · exact other rfl
  · exact other rfl
  · have hparen : '(' ≠ c := fun heq => by
      rw [← heq] at hc
      cases hc
    simp [spaced, spacedChain, token, Pattern.starts, Pattern.mayBeEmpty, hparen]
  · exact other rfl
  · exact other rfl
  · exact other rfl

/-- A tier is complete where its operands are. -/
theorem tier_complete {r operand : Rule} {link : Pattern} {level : Nat}
    (below : CompleteBelow here.rest.length) (hr : r.isToken = false)
    (hpattern : r.pattern = chained operand link)
    (hfollow : ∀ t rest, r.Follow t rest → Free level rest)
    (hoperand : ∀ t rest, operand.Follow t rest ↔ Free (level + 1) rest)
    (hlink : Links operand link level) (h : operand.Complete here) : r.Complete here := by
  refine complete_of_pattern hr fun stop children hd _ hstop => ?_
  rw [hpattern] at hd ⊢
  exact hlink.exact_chained hoperand below h hd (hfollow _ _ hstop)

section

variable (below : CompleteBelow here.rest.length)

include below

/-- A primary is matched as it is derived: no rule before the one that derives it matches there. -/
theorem primary_complete : primary.Complete here := by
  refine complete_of_pattern rfl fun stop children h hsettled hfollow => ?_
  rcases Derives.primary_iff.mp h with ⟨r, hr, h⟩ | h
  · obtain ⟨t, rfl⟩ := h.eq_singleton
    have hempty : ∀ r ∈ Derives.primaryRules, r.mayBeEmpty = false := by decide
    obtain ⟨c, u, hmove, hc⟩ := h.starts_cons (hempty r hr)
    simp only [Derives.primaryRules, List.mem_cons, List.not_mem_nil, or_false] at hr
    rcases hr with rfl | rfl | rfl | rfl | rfl | rfl | rfl | rfl | rfl | rfl | rfl | rfl | rfl
    · exact Parses.firstOf_at 0 rfl (List.forall_mem_nil _) (complete_of_token rfl _ _ h trivial)
    · refine Parses.firstOf_at 1 rfl (fun q hq => ?_) (complete_of_token rfl _ _ h trivial)
      exact List.mem_singleton.mp hq ▸ blob_none_of_float h
    · refine Parses.firstOf_at 2 rfl (fun q hq => ?_) (complete_of_token rfl _ _ h trivial)
      rcases List.mem_cons.mp hq with rfl | hq
      · exact blob_none_of_integer h
      · exact List.mem_singleton.mp hq ▸ float_none_of_integer h hsettled
    · refine Parses.firstOf_at 3 rfl (Parses.none_of_starts hmove ?_)
        (complete_of_token rfl _ _ h trivial)
      rcases Bool.or_eq_true_iff.mp hc with hc | hc
      · rw [eq_of_beq hc]
        decide
      · rw [eq_of_beq hc]
        decide
    · refine Parses.firstOf_at 4 rfl (Parses.none_of_starts hmove ?_)
        (literalDict_complete below _ _ h trivial)
      rw [eq_of_beq hc]
      decide
    · refine Parses.firstOf_at 5 rfl (Parses.none_of_starts hmove ?_)
        (.counted (lambdaExpr_complete below _ _ h hfollow))
      rw [eq_of_beq hc]
      decide
    · refine Parses.firstOf_at 6 rfl (fun q hq => ?_) (dict_complete below _ _ h trivial)
      have hother : ∀ q ∈ [call blob, call float, call integer, call string, call literalDict],
          Parses q here none := Parses.none_of_starts hmove (by rw [eq_of_beq hc]; decide)
      rcases List.mem_append.mp (show q ∈ [_, _, _, _, _] ++ [_] from hq) with hq | hq
      · exact hother q hq
      · exact List.mem_singleton.mp hq ▸ .counted (Parses.rule_none_iff.mpr
          (.counted (.seqFail (.counted (lambda_none_of_dict below h)))))
    · refine Parses.firstOf_at 7 rfl (Parses.none_of_starts hmove ?_)
        (list_complete below _ _ h trivial)
      rw [eq_of_beq hc]
      decide
    · refine Parses.firstOf_at 9 rfl (Parses.none_of_starts hmove ?_)
        (.counted (option_complete _ _ h trivial))
      rw [eq_of_beq hc]
      decide
    · refine Parses.firstOf_at 10 rfl (Parses.none_of_starts hmove ?_)
        (.counted (envVariable_complete _ _ h trivial))
      rw [eq_of_beq hc]
      decide
    · refine Parses.firstOf_at 11 rfl (Parses.none_of_starts hmove ?_)
        (complete_of_token rfl _ _ h trivial)
      rw [eq_of_beq hc]
      decide
    · exact Parses.firstOf_at 12 rfl (Parses.none_of_starts hmove (names_exclude hc))
        (.counted (functionCall_complete below _ _ h trivial))
    · refine Parses.firstOf_at 13 rfl (fun q hq => ?_)
        (.counted (variableRef_complete _ _ h hfollow))
      have hother : ∀ q ∈ primaryPatterns.take 12, Parses q here none :=
        Parses.none_of_starts hmove (names_exclude hc)
      rcases List.mem_append.mp (show q ∈ primaryPatterns.take 12 ++ [call functionCall] from hq)
        with hq | hq
      · exact hother q hq
      · exact List.mem_singleton.mp hq ▸
          .counted (functionCall_none_of_variableRef h hfollow)
  · have hparen := h
    obtain ⟨_, _, _, hopen, -, -⟩ := Derives.spaced_iff.mp (Derives.counted_iff.mp hparen)
    obtain ⟨hmove, -⟩ := Derives.text_iff.mp hopen
    refine Parses.firstOf_at 8 rfl (Parses.none_of_starts hmove (by decide)) ?_
    exact Derives.enclosed_exact (by decide) (fun place mid us hplace _ hd hclose =>
      below.call hplace hd fun _ => hclose.free_of_closes rfl) h

/-- A postfix chain is matched as it is derived, since nothing that could be attached follows it. -/
theorem postfixed_complete : postfixed.Complete here := by
  refine complete_of_pattern rfl fun stop children h hsettled hfollow => ?_
  have hstop : Free 6 stop.rest := hfollow
  obtain ⟨mid, _, _, hfirst, hattached, rfl⟩ := Derives.seq_iff.mp (Derives.counted_iff.mp h)
  have hprimary := Derives.call_iff.mp hfirst
  obtain ⟨first, rfl⟩ := hprimary.eq_singleton
  have hlt := hprimary.length_lt rfl
  have hrounds := Derives.counted_iff.mp hattached
  have bracket : EndsBefore (fun c => c == '(' || c == '[') stop.rest := by
    refine hstop.endsBefore fun c hc => ?_
    rcases Bool.or_eq_true_iff.mp hc with hc | hc <;> rw [eq_of_beq hc] <;> decide
  obtain ⟨hparen, hsquare⟩ := endsBefore_or_iff.mp bracket
  have hfollow : first.takesCall = true → EndsBefore (· == '(') mid.rest := by
    intro hcalls
    rcases Derives.many_iff.mp hrounds with ⟨-, rfl, -⟩ | ⟨_, us, _, hround, -, rfl⟩
    · exact hparen
    · obtain ⟨r, hround, hr⟩ : ∃ r, Derives (.rule r) mid _ us ∧
          (r = .subscript ∨ r = .methodCall ∨ r = .callArgs) := by
        simp only [firstOf, Derives.choice_iff, Derives.call_iff] at hround
        rcases hround with hround | hround | hround
        · exact ⟨_, hround, .inl rfl⟩
        · exact ⟨_, hround, .inr (.inl rfl)⟩
        · exact ⟨_, hround, .inr (.inr rfl)⟩
      have hempty : r.mayBeEmpty = false := by rcases hr with rfl | rfl | rfl <;> rfl
      obtain ⟨c, u, hmove, hc⟩ := hround.starts_cons hempty
      rw [hmove.rest_eq]
      refine endsBefore_cons.mpr ?_
      rcases hr with rfl | rfl | rfl
      · rw [eq_of_beq hc]
        decide
      · rw [eq_of_beq hc]
        decide
      · obtain ⟨_, -, -, hnode⟩ := (Derives.rule_iff rfl).mp hround
        rw [hnode] at hsettled
        exact (hsettled hcalls rfl).elim
  have hend : Parses Parses.attachment stop none := by
    refine Parses.choice_none_iff.mpr ⟨Parses.none_of_endsBefore ⟨rfl, rfl, rfl⟩ hsquare,
      Parses.choice_none_iff.mpr ⟨?_, Parses.none_of_endsBefore ⟨rfl, rfl, rfl⟩ hparen⟩⟩
    refine .counted (Parses.rule_none_iff.mpr (.counted (.seqFail ?_)))
    exact Parses.token_none_iff.mpr hstop.not_arrow
  refine .counted (.andThen (.counted (primary_complete below _ _ hprimary hfollow))
    (.counted (Derives.many_exact (K := fun _ => True) (fun place after us hplace hd _ => ?_)
      (fun _ _ _ _ => trivial) hrounds (Nat.le_refl _) trivial hend)))
  have hshort : place.rest.length < here.rest.length := by omega
  rcases Derives.choice_iff.mp hd with hd | hd
  · exact .left (below.call hshort hd fun _ => trivial)
  obtain ⟨c, u, hmove, hc⟩ := hd.starts_cons rfl
  have noBracket : Parses (call subscript) place none := by
    refine hmove.none_of_closes ⟨rfl, rfl, rfl⟩ ?_
    have hc : c ∈ ['-', '('] := by
      simpa [Pattern.starts, firstOf, call, Rule.starts, changesSpacing] using hc
    simp only [List.mem_cons, List.not_mem_nil, or_false] at hc
    rcases hc with rfl | rfl <;> decide
  rcases Derives.choice_iff.mp hd with hd | hd
  · exact .right noBracket (.left (below.call hshort hd fun _ => trivial))
  · obtain ⟨d, v, hmove', hd'⟩ := hd.starts_cons rfl
    rw [eq_of_beq hd'] at hmove'
    have noArrow : Parses (call methodCall) place none :=
      hmove'.none_of_closes ⟨rfl, rfl, rfl⟩ (by decide)
    exact .right noBracket (.right noArrow (below.call hshort hd fun _ => trivial))

/-- So is an operand with prefix operators, since none of them begins a postfix chain. -/
theorem unary_complete : unary.Complete here := by
  refine complete_of_pattern rfl fun stop children h _ hfollow => ?_
  obtain ⟨mid, us, _, hops, hpostfixed, rfl⟩ := Derives.spaced_iff.mp (Derives.counted_iff.mp h)
  have hle := (show Derives (spacedStar (call unaryOp)) here mid us from hops).length_le
  have hskip := mid.skipSpaces_length_le
  have hpostfixed' := (show postfixed.Complete mid.skipSpaces from
    postfixed_complete fun place hplace => below place (by omega)).call hpostfixed
      fun _ => hfollow
  obtain ⟨c, u, hmove, hc⟩ := hpostfixed.starts_cons rfl
  have hop : Parses (call unaryOp) mid.skipSpaces none := by
    refine hmove.none_of_closes ⟨rfl, rfl, rfl⟩ ?_
    cases hstarts : (call unaryOp).starts c with
    | false => rfl
    | true =>
      have hstarts : c ∈ ['!', '-', '+'] := by
        simpa [Pattern.starts, call, Rule.starts, changesSpacing] using hstarts
      simp only [List.mem_cons, List.not_mem_nil, or_false] at hstarts
      rcases hstarts with rfl | rfl | rfl <;> cases hc
  refine .counted (.spaced ?_ hpostfixed')
  rcases Derives.spacedStar_iff.mp hops with ⟨rfl, rfl⟩ | ⟨next, vs, ws, hfirst, hmore, rfl⟩
  · have hnone : Parses (call unaryOp) mid none := by
      by_cases heq : mid.skipSpaces = mid
      · rwa [heq] at hop
      · exact Parses.none_of_endsBefore ⟨rfl, rfl, rfl⟩
          (Cursor.endsBefore_of_skipSpaces_ne heq (by decide))
    exact .counted (.counted (.opt (.seqFail hnone)))
  · have token {place after : Cursor} {zs : List (Tree Rule)}
        (h : Derives (call unaryOp) place after zs) :
        Parses (call unaryOp) place (some (after, zs)) :=
      (complete_of_token rfl).call h fun _ => trivial
    have rounds := Derives.many_exact (K := fun _ => True) (n := next.rest.length)
      (fun place after zs _ hd _ => .counted (.afterBlanks
        (token (Derives.afterBlanks_iff.mp (Derives.counted_iff.mp hd)))))
      (fun _ _ _ _ => trivial) hmore (Nat.le_refl _) trivial (.counted (.afterBlanks hop))
    exact .counted (.counted (.opt (.seq (token hfirst) (.counted rounds))))

/-- Multiplicative runs are complete. -/
theorem multiplicative_complete : multiplicative.Complete here :=
  tier_complete below rfl rfl (fun _ _ h => h) (fun _ _ => Iff.rfl) Links.multiplicative
    (unary_complete below)

/-- Additive runs are complete. -/
theorem additive_complete : additive.Complete here :=
  tier_complete below rfl rfl (fun _ _ h => h) (fun _ _ => Iff.rfl) Links.additive
    (multiplicative_complete below)

/-- Comparisons are complete. -/
theorem comparison_complete : comparison.Complete here :=
  tier_complete below rfl rfl (fun _ _ h => h) (fun _ _ => Iff.rfl) Links.comparison
    (additive_complete below)

/-- Conjunctions are complete. -/
theorem logicalAnd_complete : logicalAnd.Complete here :=
  tier_complete below rfl rfl (fun _ _ h => h) (fun _ _ => Iff.rfl) Links.logicalAnd
    (comparison_complete below)

/-- Disjunctions are complete. -/
theorem logicalOr_complete : logicalOr.Complete here :=
  tier_complete below rfl rfl (fun _ _ h => h) (fun _ _ => Iff.rfl) Links.logicalOr
    (logicalAnd_complete below)

/-- Conditionals are complete. -/
theorem expr_complete : expr.Complete here :=
  tier_complete below rfl rfl (fun _ _ h => h) (fun _ _ => Iff.rfl) Links.conditional
    (logicalOr_complete below)

/-- A whole source is complete if nothing is left of it. -/
theorem expression_complete : expression.Complete here := by
  refine complete_of_pattern rfl fun stop children h _ _ => ?_
  obtain ⟨mid, _, _, hempty, hafter, rfl⟩ := Derives.spaced_iff.mp (Derives.counted_iff.mp h)
  obtain ⟨rfl, rfl⟩ := Derives.empty_iff.mp hempty
  obtain ⟨last, _, _, hexpr, hend, rfl⟩ := Derives.spaced_iff.mp hafter
  obtain ⟨_, hmove, ⟨rfl, hrest⟩, rfl⟩ := (Derives.token_iff rfl).mp hend
  have hfree : Free 0 last.rest := by
    rw [← Cursor.free_skipSpaces, hmove.rest_eq, hrest]
    exact free_nil
  have hle := mid.skipSpaces_length_le
  exact .counted (.spaced .empty (.spaced
    ((expr_complete fun place hplace => below place (by omega)).call hexpr fun _ => hfree)
    ((Parses.token_iff (r := .endOfInput) rfl).mpr ⟨_, hmove, ⟨rfl, hrest⟩, rfl⟩)))

end

/-- Every derivation is what matching yields, if the text behind it may follow. -/
theorem complete (r : Rule) (here : Cursor) : r.Complete here := by
  induction hn : here.rest.length using Nat.strongRecOn generalizing r here with
  | ind n ih =>
    subst hn
    have below : CompleteBelow here.rest.length := fun place hplace r => ih _ hplace r place rfl
    cases r with
    | expression => exact expression_complete below
    | expr => exact expr_complete below
    | ternaryThen => exact ternaryThen_complete below
    | logicalOr => exact logicalOr_complete below
    | logicalAnd => exact logicalAnd_complete below
    | comparison => exact comparison_complete below
    | additive => exact additive_complete below
    | multiplicative => exact multiplicative_complete below
    | unary => exact unary_complete below
    | postfixed => exact postfixed_complete below
    | subscript => exact subscript_complete below
    | methodCall => exact methodCall_complete below
    | callArgs => exact callArgs_complete below
    | callArg => exact callArg_complete (expr_complete below)
    | primary => exact primary_complete below
    | list => exact list_complete below
    | dict => exact dict_complete below
    | dictEntry => exact dictEntry_complete below (expr_complete below)
    | literalDict => exact literalDict_complete below
    | literalDictEntry => exact literalDictEntry_complete below
    | lambdaExpr => exact lambdaExpr_complete below
    | lambda => exact lambda_complete below
    | lambdaParams => exact lambdaParams_complete
    | option => exact option_complete
    | envVariable => exact envVariable_complete
    | functionCall => exact functionCall_complete below
    | variableRef => exact variableRef_complete
    | _ => exact complete_of_token rfl

end Rule

/-- A rule derives at most one node at a place with the same text behind it. -/
theorem Derives.unique {r : Rule} {t u : Tree Rule} {stop' : Cursor}
    (h : Derives (.rule r) here stop [t]) (h' : Derives (.rule r) here stop' [u])
    (hfollow : r.Follow t stop.rest) (hfollow' : r.Follow u stop'.rest) :
    stop = stop' ∧ t = u := by
  have same := (r.complete here stop t h hfollow).unique (r.complete here stop' u h' hfollow')
  obtain ⟨rfl, hts⟩ := Prod.mk.inj (Option.some.inj same)
  exact ⟨rfl, List.singleton_inj.mp hts⟩

end Vimscript
