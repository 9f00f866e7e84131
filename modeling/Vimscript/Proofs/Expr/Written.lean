import Vimscript.Proofs.Expr.Resume

/-!
# Writing what is missing

Each rule that stands in the grammar behind something else can be written: an operand is an empty
string, a token is its shortest text, and every other rule is written as its pattern is. What is
written never ends in the middle of a word, since a blank or a bracket comes behind it.
-/

namespace Vimscript

open Pattern Text

namespace Rule

variable {r : Rule}

/-- A rule is written as its pattern is. -/
theorem writable_of_pattern (hr : r.isToken = false) (hsettled : ∀ ts rest, r.Settled ts rest)
    (h : r.pattern.Writable) : (Pattern.rule r).Writable :=
  h.imp fun _ _ ts hderives => ⟨_, (Derives.rule_iff hr).mpr ⟨ts, hderives, hsettled _ _, rfl⟩⟩

/-- An operand is written as an empty string. -/
theorem writable_ofLevel (level : Nat) (hlevel : level ≤ 8) :
    (Pattern.rule (ofLevel level)).Writable := by
  have hreads := (ReadsAs.string []).loosen hlevel (Nat.le_refl 8)
  refine writable_of_text hreads.head fun rest here mid hmove hmid => ?_
  have hedge : Edge mid.rest := by
    rw [hmid]
    exact (seam_cons_of_isSpace rfl).edge
  obtain ⟨stop, t, hderives, hskip, -⟩ := hreads.derives here mid hmove hedge
  exact ⟨stop, [t], hderives, hskip⟩

/-- A short text for each token that can stand behind something else. -/
def shortText : Rule → List Char
  | coalesce => ['?', '?']
  | orOp => ['|', '|']
  | andOp => ['&', '&']
  | compareOp => ['=', '=']
  | addOp => ['+']
  | mulOp => ['*']
  | unaryOp => ['-']
  | sliceSep => [':']
  | _ => ['z']

/-- The tokens that stand behind blanks and something else. -/
def laterTokens : List Rule :=
  [coalesce, orOp, andOp, compareOp, addOp, mulOp, unaryOp, sliceSep, literalDictKey, lambdaParam]

/-- Each of these tokens can be written in front of a blank. -/
theorem shortText_lexeme (hr : r ∈ laterTokens) (rest : List Char) :
    r.Lexeme r.shortText (' ' :: rest) := by
  simp only [laterTokens, List.mem_cons, List.not_mem_nil, or_false] at hr
  rcases hr with rfl | rfl | rfl | rfl | rfl | rfl | rfl | rfl | rfl | rfl
  · exact rfl
  · exact rfl
  · exact rfl
  · have hequal : (BinaryOp.compare .equal .followOption).Token ['=', '='] := .inl rfl
    exact hequal.lexeme rfl
  · exact .inr (.inr (.inl rfl))
  · exact .inl rfl
  · exact .inr (.inl rfl)
  · exact rfl
  · exact ⟨⟨by decide, by decide⟩, endsBefore_cons.mpr (by decide)⟩
  · exact ⟨⟨'z', [], rfl, by decide, rfl⟩, endsBefore_cons.mpr (by decide)⟩

/-- So it can be written wherever something else follows. -/
theorem writable_of_token (hr : r ∈ laterTokens) : (Pattern.rule r).Writable := by
  obtain ⟨htoken, hhead⟩ : r.isToken = true ∧ ∃ c v, r.shortText = c :: v ∧ isSpace c = false := by
    simp only [laterTokens, List.mem_cons, List.not_mem_nil, or_false] at hr
    rcases hr with rfl | rfl | rfl | rfl | rfl | rfl | rfl | rfl | rfl | rfl <;>
      exact ⟨rfl, _, _, rfl, by decide⟩
  refine writable_of_text hhead fun rest here mid hmove hmid => ⟨mid, _, .token htoken hmove ?_, rfl⟩
  rw [hmid]
  exact shortText_lexeme hr rest

/-- No two derivations of a rule with blanks between its parts have to be told apart. -/
theorem spacedRules_spec (hr : r ∈ spacedRules) :
    r.isToken = false ∧ ∀ ts rest, r.Settled ts rest := by
  simp only [spacedRules, List.mem_cons, List.not_mem_nil, or_false] at hr
  rcases hr with rfl | rfl | rfl | rfl | rfl | rfl | rfl | rfl | rfl | rfl | rfl | rfl | rfl |
    rfl | rfl | rfl | rfl | rfl | rfl <;> exact ⟨rfl, fun _ _ => trivial⟩

/-- A rule whose pattern has blanks between its parts is written if these parts are. -/
theorem writable_of_spaced (hr : r ∈ spacedRules)
    (hrules : ∀ r', r' ∈ r.pattern.rules → (Pattern.rule r').Writable) :
    (Pattern.rule r).Writable :=
  have hspec := spacedRules_spec hr
  writable_of_pattern hspec.1 hspec.2 ((pattern_spaced hr).writable hrules)

/-- The rules that can be written before any list of arguments can. -/
def plainParts : List Rule :=
  laterTokens ++ [expr, logicalOr, logicalAnd, comparison, additive, multiplicative, unary,
    postfixed]

/-- The rules without arguments in them can be written. -/
theorem writable_of_plainParts (hr : r ∈ plainParts) : (Pattern.rule r).Writable := by
  rcases List.mem_append.mp hr with hr | hr
  · exact writable_of_token hr
  · simp only [List.mem_cons, List.not_mem_nil, or_false] at hr
    rcases hr with rfl | rfl | rfl | rfl | rfl | rfl | rfl | rfl
    · exact writable_ofLevel 0 (by decide)
    · exact writable_ofLevel 1 (by decide)
    · exact writable_ofLevel 2 (by decide)
    · exact writable_ofLevel 3 (by decide)
    · exact writable_ofLevel 4 (by decide)
    · exact writable_ofLevel 5 (by decide)
    · exact writable_ofLevel 6 (by decide)
    · exact writable_ofLevel 7 (by decide)

/-- Arguments are written with the name of what is called right in front of them. -/
theorem writable_named (h : (Pattern.rule callArgs).Writable) :
    (Pattern.seq (call functionName) (call callArgs)).Writable := by
  intro rest hrest
  obtain ⟨v, -, hargs⟩ := h rest hrest
  refine ⟨'z' :: v, endsBefore_cons.mpr (by decide), fun here hhere => ?_⟩
  have hname : here.Moves ['z'] ⟨v, here.offset + byteLength ['z']⟩ := .of_rest_eq hhere
  obtain ⟨stop, ts, hderives, hstop⟩ := hargs ⟨v, here.offset + byteLength ['z']⟩ rfl
  obtain ⟨c, w, hopen, hc⟩ := hderives.starts_cons rfl
  have hends : EndsBefore isNameChar v := by
    have hv : v = c :: w ++ stop.rest := hopen.rest_eq
    rw [hv, eq_of_beq hc]
    exact endsBefore_cons.mpr (by decide)
  exact ⟨stop, _, .seq (.token rfl hname ⟨⟨'z', [], rfl, by decide, rfl⟩, hends⟩)
    (Derives.call_iff.mpr hderives), hstop⟩

/-- A call is written without a scope. -/
theorem writable_functionCall (h : (Pattern.rule callArgs).Writable) :
    (Pattern.rule functionCall).Writable :=
  (writable_named h).imp fun _ _ _ hderives =>
    ⟨_, .rule rfl (.counted (.seq (.counted .absent) hderives)) trivial⟩

/-- The rules that stand behind something else in a pattern with blanks between its parts. -/
def laterParts : List Rule :=
  plainParts ++ [ternaryThen, callArg, dictEntry, literalDictEntry, lambdaParams, callArgs, lambda,
    functionCall]

/-- All rules that stand behind something else can be written. -/
theorem writable_of_laterParts (hr : r ∈ laterParts) : (Pattern.rule r).Writable := by
  have ofPlain {r : Rule} (hr : r ∈ spacedRules) (h : ∀ r' ∈ r.pattern.rules, r' ∈ plainParts) :
      (Pattern.rule r).Writable :=
    writable_of_spaced hr fun r' hr' => writable_of_plainParts (h r' hr')
  have hcallArgs : (Pattern.rule callArgs).Writable :=
    writable_of_spaced (by decide) fun r' hr' => by
      have hparts : ∀ r' ∈ callArgs.pattern.rules, r' = callArg := by decide
      obtain rfl := hparts r' hr'
      exact ofPlain (by decide) (by decide)
  have hlambda : (Pattern.rule lambda).Writable :=
    writable_of_spaced (by decide) fun r' hr' => by
      have hparts : ∀ r' ∈ lambda.pattern.rules, r' = lambdaParams ∨ r' = expr := by decide
      obtain rfl | rfl := hparts r' hr'
      · exact ofPlain (by decide) (by decide)
      · exact writable_ofLevel 0 (by decide)
  rcases List.mem_append.mp hr with hr | hr
  · exact writable_of_plainParts hr
  · simp only [List.mem_cons, List.not_mem_nil, or_false] at hr
    rcases hr with rfl | rfl | rfl | rfl | rfl | rfl | rfl | rfl
    · exact ofPlain (by decide) (by decide)
    · exact ofPlain (by decide) (by decide)
    · exact ofPlain (by decide) (by decide)
    · exact ofPlain (by decide) (by decide)
    · exact ofPlain (by decide) (by decide)
    · exact hcallArgs
    · exact hlambda
    · exact writable_functionCall hcallArgs

/-- So every part of a rule with blanks between its parts can be written. -/
theorem writable_of_mem_rules (hr : r ∈ spacedRules) {r' : Rule} (hr' : r' ∈ r.pattern.rules) :
    (Pattern.rule r').Writable := by
  have hparts : ∀ r ∈ spacedRules, ∀ r' ∈ r.pattern.rules, r' ∈ laterParts := by decide
  exact writable_of_laterParts (hparts r hr r' hr')

end Rule

end Vimscript
