import Vimscript.Proofs.Grammar.Parts

/-!
# The tiers as chains

What links the operands of each tier, and how a text of the whole tower of tiers hangs on its
first operand: that operand can be read anywhere the rest of the text still follows, and where
nothing goes on with it the whole ends with it.
-/

namespace Vimscript

open Pattern Text

variable {here stop : Cursor} {ts : List (Tree Rule)}

namespace Pattern.Links

/-- An operator links its tier if it goes on with that tier and with no tighter one, and begins no
arrow. -/
theorem of_token {operand op : Rule} {level : Nat} (hop : op.isToken = true)
    (hempty : op.mayBeEmpty = false) (hcall : call op = .rule op)
    (hstarts : ∀ c, op.starts c = true →
      isSpace c = false ∧ goesOn level c = true ∧ goesOn (level + 1) c = false)
    (harrow : ∀ (here stop : Cursor) (ts : List (Tree Rule)),
      Derives (.seq (call op) (.seq .blanks (.call operand))) here stop ts →
        ¬ ['-', '>'] <+: here.rest) : Links operand (call op) level where
  exact here stop ts _ h := by
    rw [hcall] at h ⊢
    exact (Parses.token_iff hop).mpr ((Derives.token_iff hop).mp h)
  shape := by
    rw [hcall]
    exact ⟨hempty, rfl, decide_eq_true op.rank_lt_topRank⟩
  starts := by
    rw [hcall]
    exact hstarts
  not_arrow := harrow

/-- A link that does not begin with a dash is no arrow. -/
theorem not_arrow_of_starts {operand : Rule} {link : Pattern} (hempty : link.mayBeEmpty = false)
    (hdash : link.starts '-' = false)
    (h : Derives (.seq link (.seq .blanks (.call operand))) here stop ts) :
    ¬ ['-', '>'] <+: here.rest := by
  obtain ⟨_, _, _, h, -, -⟩ := Derives.seq_iff.mp h
  obtain ⟨c, u, hmove, hc⟩ := h.starts_cons hempty
  rw [hmove.rest_eq]
  rintro ⟨rest, hrest⟩
  rw [← (List.cons.inj hrest).1, hdash] at hc
  cases hc

/-- The operator of disjunctions links them. -/
theorem logicalOr : Links .logicalAnd (call .orOp) 1 :=
  of_token rfl rfl rfl (fun c hc => by rw [eq_of_beq hc]; decide)
    fun _ _ _ => not_arrow_of_starts rfl (by decide)

/-- The operator of conjunctions links them. -/
theorem logicalAnd : Links .comparison (call .andOp) 2 :=
  of_token rfl rfl rfl (fun c hc => by rw [eq_of_beq hc]; decide)
    fun _ _ _ => not_arrow_of_starts rfl (by decide)

/-- Relations link comparisons. -/
theorem comparison : Links .additive (call .compareOp) 3 := by
  refine of_token rfl rfl rfl (fun c hc => ?_) fun _ _ _ => not_arrow_of_starts rfl (by decide)
  have hc : c ∈ ['=', '!', '<', '>', 'i'] := by simpa [Rule.starts] using hc
  simp only [List.mem_cons, List.not_mem_nil, or_false] at hc
  rcases hc with rfl | rfl | rfl | rfl | rfl <;> decide

/-- Multiplicative operators link their tier. -/
theorem multiplicative : Links .unary (call .mulOp) 5 := by
  refine of_token rfl rfl rfl (fun c hc => ?_) fun _ _ _ => not_arrow_of_starts rfl (by decide)
  have hc : c ∈ ['*', '/', '%'] := by simpa [Rule.starts] using hc
  simp only [List.mem_cons, List.not_mem_nil, or_false] at hc
  rcases hc with rfl | rfl | rfl <;> decide

/-- A minus sign in front of an operand is no arrow, since no operand begins with the point of
one. -/
theorem additive : Links .multiplicative (call .addOp) 4 := by
  refine of_token rfl rfl rfl (fun c hc => ?_) fun here stop ts h => ?_
  · have hc : c ∈ ['.', '+', '-'] := by simpa [Rule.starts] using hc
    simp only [List.mem_cons, List.not_mem_nil, or_false] at hc
    rcases hc with rfl | rfl | rfl <;> decide
  · obtain ⟨mid, _, _, hop, hoperand, -⟩ := Derives.spaced_iff.mp h
    obtain ⟨u, hmove, hu, -⟩ := (Derives.token_iff rfl).mp hop
    rintro ⟨rest, hrest⟩
    rw [hmove.rest_eq] at hrest
    rcases hu with rfl | ⟨rfl, -⟩ | rfl | rfl
    · cases (List.cons.inj hrest).1
    · cases (List.cons.inj hrest).1
    · cases (List.cons.inj hrest).1
    · have hmid : mid.rest = '>' :: rest := (List.cons.inj hrest).2.symm
      have hends : EndsBefore isSpace mid.rest := hmid ▸ endsBefore_cons.mpr (by decide)
      rw [Cursor.skipSpaces_of_endsBefore hends] at hoperand
      refine Derives.not_of_endsBefore rfl ?_ hoperand
      rw [hmid]
      exact endsBefore_cons.mpr (by decide)

/-- Between the operands of a conditional stands one of the two branch marks. A branch does not
begin with a question mark, so the second mark is tried for the right reason. -/
theorem conditional : Links .logicalOr (firstOf [call .coalesce, call .ternaryThen]) 0 where
  exact here stop ts below h := by
    rcases Derives.choice_iff.mp h with h | h
    · exact .left ((Rule.complete_of_token rfl).call h fun _ => trivial)
    · refine .right ?_ ((Rule.ternaryThen_complete below).call h fun _ => trivial)
      obtain ⟨_, hpattern, -, -⟩ := (Derives.rule_iff rfl).mp (Derives.call_iff.mp h)
      obtain ⟨mid, _, _, hmark, hbranch, -⟩ :=
        Derives.spaced_iff.mp (Derives.counted_iff.mp hpattern)
      obtain ⟨hmove, -⟩ := Derives.text_iff.mp hmark
      refine Rule.parses_none fun stop' us hsome => ?_
      obtain ⟨_, hmove', rfl, -⟩ := (Parses.token_iff rfl).mp hsome
      have hmid : mid.rest = '?' :: stop'.rest :=
        (List.cons.inj (hmove.rest_eq.symm.trans hmove'.rest_eq)).2
      have hends : EndsBefore isSpace mid.rest := hmid ▸ endsBefore_cons.mpr (by decide)
      obtain ⟨_, _, _, hexpr, -, -⟩ := Derives.spaced_iff.mp hbranch
      rw [Cursor.skipSpaces_of_endsBefore hends] at hexpr
      refine Derives.not_of_endsBefore rfl ?_ hexpr
      rw [hmid]
      exact endsBefore_cons.mpr (by decide)
  shape := ⟨rfl, rfl, rfl⟩
  starts c hc := by
    have hc : c = '?' := by simpa [Pattern.starts, firstOf, call, Rule.starts,
      Rule.changesSpacing] using hc
    rw [hc]
    decide
  not_arrow _ _ _ := not_arrow_of_starts rfl (by decide)

end Pattern.Links

/-- Nothing that links operands stands here. -/
def Cursor.Stuck (place : Cursor) : Prop :=
  EndsBefore (goesOn 0) place.rest ∨ ['-', '>'] <+: place.rest

/-- Where a link stands the text goes on. -/
theorem Pattern.Links.not_stuck {operand : Rule} {link : Pattern} {level : Nat}
    (hlink : Links operand link level)
    (h : Derives (.seq link (.seq .blanks (.call operand))) here stop ts) : ¬ here.Stuck := by
  rintro (hends | harrow)
  · obtain ⟨_, _, _, hfirst, -, -⟩ := Derives.seq_iff.mp h
    obtain ⟨c, u, hmove, hc⟩ := hfirst.starts_cons hlink.shape.1
    have := goesOn_mono (Nat.zero_le level) (hlink.starts c hc).2.1
    rw [hmove.rest_eq, List.cons_append, endsBefore_cons, this] at hends
    cases hends
  · exact hlink.not_arrow _ _ _ h harrow

/-- How a rule hangs on the rule that its texts begin with. -/
def Rule.Heads (whole first : Rule) : Prop := ∀ (here stop : Cursor) (ts : List (Tree Rule)),
  Derives (.rule whole) here stop ts → ∃ mid us, Derives (.rule first) here mid us ∧
    (∀ place vs, Derives (.rule first) place mid vs →
      ∃ ws, Derives (.rule whole) place stop ws) ∧
    (mid.skipSpaces.Stuck → stop = mid.skipSpaces)

namespace Rule

/-- What heads a head of a rule heads the rule. -/
theorem Heads.trans {r s t : Rule} (h : r.Heads s) (h' : s.Heads t) : r.Heads t := by
  intro here stop ts hderives
  obtain ⟨mid, us, hfirst, hlift, hstuck⟩ := h here stop ts hderives
  obtain ⟨mid', us', hfirst', hlift', hstuck'⟩ := h' here mid us hfirst
  refine ⟨mid', us', hfirst', fun place vs hplace => ?_, fun hmid' => ?_⟩
  · obtain ⟨ws, hws⟩ := hlift' place vs hplace
    exact hlift place ws hws
  · obtain rfl := hstuck' hmid'
    rw [Cursor.skipSpaces_skipSpaces] at hstuck
    exact hstuck hmid'

/-- The first operand of a chain heads it. -/
theorem heads_of_chained {whole first : Rule} {link : Pattern} {level : Nat}
    (hwhole : whole.pattern = chained first link) (htoken : whole.isToken = false)
    (hsettled : ∀ children rest, whole.Settled children rest)
    (hlink : Links first link level) : whole.Heads first := by
  intro here stop ts hderives
  obtain ⟨children, hpattern, -, -⟩ := (Derives.rule_iff htoken).mp hderives
  rw [hwhole] at hpattern
  obtain ⟨mid, us, vs, hfirst, hrounds, -⟩ :=
    Derives.spaced_iff.mp (Derives.counted_iff.mp hpattern)
  refine ⟨mid, us, Derives.call_iff.mp hfirst, fun place ws hplace => ?_, fun hmid => ?_⟩
  · refine ⟨_, (Derives.rule_iff htoken).mpr ⟨ws ++ vs, ?_, hsettled _ _, rfl⟩⟩
    rw [hwhole]
    exact .counted (Derives.spaced_iff.mpr ⟨mid, ws, vs, Derives.call_iff.mpr hplace, hrounds, rfl⟩)
  · rcases Derives.spacedStar_iff.mp hrounds with ⟨rfl, -⟩ | ⟨_, _, _, hround, -, -⟩
    · rfl
    · exact (hlink.not_stuck (Derives.counted_iff.mp hround) hmid).elim

/-- Every text of an expression begins with its first operand. -/
theorem expr_heads_unary : expr.Heads unary :=
  have settled {r : Rule} (h : ∀ children rest, r.Settled children rest = True) :
      ∀ children rest, r.Settled children rest := fun children rest => h children rest ▸ trivial
  (heads_of_chained rfl rfl (settled fun _ _ => rfl) Links.conditional).trans <|
    (heads_of_chained rfl rfl (settled fun _ _ => rfl) Links.logicalOr).trans <|
      (heads_of_chained rfl rfl (settled fun _ _ => rfl) Links.logicalAnd).trans <|
        (heads_of_chained rfl rfl (settled fun _ _ => rfl) Links.comparison).trans <|
          (heads_of_chained rfl rfl (settled fun _ _ => rfl) Links.additive).trans <|
            heads_of_chained rfl rfl (settled fun _ _ => rfl) Links.multiplicative

end Rule

end Vimscript
