import Vimscript.Proofs.Grammar.Progress

/-!
# Matching under a budget

Matching with a budget of steps agrees with the readings that know of none. A run that the budget
covered is a reading, and a reading is what a run gives as soon as the budget covers it. The depth
and the rounds that the length of the source allows are never too few. The two directions are
`Rule.reading_of_run` and `Rule.run_of_parses`.
-/

namespace Vimscript

/-- The outcome that a reading is, behind the nodes so far. -/
def Reading.outcome (nodes : List (Tree Rule)) (trace : Trace) : Reading → Outcome
  | some (stop, more) => .matched stop (more.reverse ++ nodes) trace
  | none => .failed trace

/-- A failure that is noted takes no call. -/
theorem Trace.fail_calls (rule : Rule) (offset before : Nat) (trace : Trace) :
    (trace.fail rule offset before).calls = trace.calls := by
  unfold fail
  split
  · rfl
  · split
    · rfl
    · split <;> rfl

/-- Below the limit a call is taken and counted. -/
theorem Trace.step?_eq {limit : Nat} {trace : Trace} (h : trace.calls < limit) :
    trace.step? limit = some { trace with calls := trace.calls + 1 } := if_pos h

/-- Matches a pattern, a repetition with the given number of rounds. -/
def Pattern.runFor (bounds : Bounds) (enter : Rule → Matcher) (count : Nat) : Pattern → Matcher
  | many round => Matcher.rounds (round.run bounds enter) count
  | p => p.run bounds enter

/-- With as many rounds as the bounds allow this is the run of the pattern. -/
theorem Pattern.runFor_rounds (bounds : Bounds) (enter : Rule → Matcher) (p : Pattern) :
    p.runFor bounds enter bounds.rounds = p.run bounds enter := by
  cases p <;> rfl

section

variable {bounds : Bounds} {enter : Rule → Matcher} {count : Nat} {p q : Pattern} {r : Rule}
  {here : Cursor} {nodes : List (Tree Rule)} {trace : Trace}

theorem Pattern.runFor_rule :
    (rule r).runFor bounds enter count here nodes trace = enter r here nodes trace := rfl

theorem Pattern.runFor_seq : (seq p q).runFor bounds enter count here nodes trace =
    match p.run bounds enter here nodes trace with
    | .matched stop nodes trace => q.run bounds enter stop nodes trace
    | .failed trace => .failed trace
    | .exhausted => .exhausted := rfl

theorem Pattern.runFor_choice : (choice p q).runFor bounds enter count here nodes trace =
    match p.run bounds enter here nodes trace with
    | .matched stop nodes trace => .matched stop nodes trace
    | .failed trace => q.run bounds enter here nodes trace
    | .exhausted => .exhausted := rfl

theorem Pattern.runFor_many : (many p).runFor bounds enter count here nodes trace =
    Matcher.rounds (p.run bounds enter) count here nodes trace := rfl

theorem Pattern.runFor_opt : (opt p).runFor bounds enter count here nodes trace =
    match p.run bounds enter here nodes trace with
    | .matched stop nodes trace => .matched stop nodes trace
    | .failed trace => .matched here nodes trace
    | .exhausted => .exhausted := rfl

theorem Pattern.runFor_not : (not p).runFor bounds enter count here nodes trace =
    match p.run bounds enter here nodes trace with
    | .matched _ _ trace => .failed trace
    | .failed trace => .matched here nodes trace
    | .exhausted => .exhausted := rfl

theorem Pattern.runFor_counted : (counted p).runFor bounds enter count here nodes trace =
    match trace.step? bounds.calls with
    | some trace => p.run bounds enter here nodes trace
    | none => .failed trace := rfl

end

/-- Under bounds that suffice a pattern runs to a reading, in a fixed number of steps. -/
def RunsTo (p : Pattern) (here : Cursor) (res : Reading) : Prop :=
  ∃ steps, ∀ (bounds : Bounds) (depth bound count : Nat) (nodes : List (Tree Rule)) (trace : Trace),
    p.ranked bound = true → bound ≤ Pattern.topRank →
    Pattern.topRank * here.rest.length + bound ≤ depth →
    here.rest.length < bounds.rounds → here.rest.length < count →
    trace.calls + steps ≤ bounds.calls →
    ∃ after, after.calls = trace.calls + steps ∧
      p.runFor bounds (Rule.run bounds depth) count here nodes trace = res.outcome nodes after

namespace RunsTo

variable {here mid stop : Cursor} {p q round : Pattern} {res : Reading}
  {us vs : List (Tree Rule)}

/-- A pattern that takes no step and enters no rule runs to what it gives at once. -/
theorem of_leaf (h : ∀ (bounds : Bounds) (enter : Rule → Matcher) (count : Nat)
      (nodes : List (Tree Rule)) (trace : Trace),
      p.runFor bounds enter count here nodes trace = res.outcome nodes trace) :
    RunsTo p here res :=
  ⟨0, fun bounds depth _ count nodes trace _ _ _ _ _ _ =>
    ⟨trace, rfl, h bounds (Rule.run bounds depth) count nodes trace⟩⟩

/-- A leaf runs to its reading. -/
theorem leaf_outcome (stop : Option Cursor) (nodes : List (Tree Rule)) (trace : Trace) :
    Matcher.moveTo stop nodes trace = (Reading.leaf stop).outcome nodes trace := by
  cases stop <;> rfl

/-- A rule runs to what its pattern runs to, under one node. -/
theorem rule {r : Rule} {inside : Reading} (h : RunsTo r.pattern here inside) :
    RunsTo (.rule r) here (inside.map fun s => (s.1, [r.node here s.1 s.2])) := by
  obtain ⟨steps, h⟩ := h
  refine ⟨steps + 1, fun bounds depth bound count nodes trace hrank _ hdepth hrounds _ hcalls => ?_⟩
  have rank : r.rank < bound := of_decide_eq_true hrank
  have top := r.rank_lt_topRank
  obtain ⟨deep, rfl⟩ : ∃ deep, depth = deep + 1 := ⟨depth - 1, by omega⟩
  obtain ⟨after, hafter, hrun⟩ := h bounds deep r.rank bounds.rounds []
    { trace with calls := trace.calls + 1 } r.pattern_ranked (by omega) (by omega) hrounds hrounds
    (by dsimp only; omega)
  rw [Pattern.runFor_rounds] at hrun
  cases inside with
  | none =>
    refine ⟨after.fail r here.offset (Trace.expectedAt
      { trace with calls := trace.calls + 1 } here.offset), ?_, ?_⟩
    · rw [Trace.fail_calls, hafter]
      dsimp only
      omega
    · simp only [Pattern.runFor_rule, Rule.run,
        Trace.step?_eq (show trace.calls < bounds.calls by omega), hrun, Reading.outcome,
        Option.map_none]
  | some inside =>
    refine ⟨after, by rw [hafter]; dsimp only; omega, ?_⟩
    simp only [Pattern.runFor_rule, Rule.run,
      Trace.step?_eq (show trace.calls < bounds.calls by omega), hrun, Reading.outcome,
      Option.map_some, Rule.node, List.append_nil, List.reverse_reverse, List.reverse_cons,
      List.reverse_nil, List.nil_append, List.singleton_append]

/-- A sequence fails where its first part does. -/
theorem seqFail (h : RunsTo p here none) : RunsTo (.seq p q) here none := by
  obtain ⟨steps, h⟩ := h
  refine ⟨steps, fun bounds depth bound count nodes trace hrank hb hdepth hrounds hcount hcalls => ?_⟩
  obtain ⟨hp, _⟩ := Bool.and_eq_true_iff.mp hrank
  obtain ⟨after, hafter, hrun⟩ := h bounds depth bound bounds.rounds nodes trace hp hb hdepth
    hrounds hrounds hcalls
  rw [Pattern.runFor_rounds] at hrun
  exact ⟨after, hafter, by simp only [Pattern.runFor_seq, hrun, Reading.outcome]⟩

/-- A sequence runs to what its second part runs to behind the first. -/
theorem seq (hmid : Parses p here (some (mid, us))) (h : RunsTo p here (some (mid, us)))
    (h' : RunsTo q mid res) : RunsTo (.seq p q) here (res.map fun s => (s.1, us ++ s.2)) := by
  obtain ⟨steps, h⟩ := h
  obtain ⟨steps', h'⟩ := h'
  refine ⟨steps + steps',
    fun bounds depth bound count nodes trace hrank hb hdepth hrounds hcount hcalls => ?_⟩
  obtain ⟨hp, hq⟩ := Bool.and_eq_true_iff.mp hrank
  obtain ⟨after, hafter, hrun⟩ := h bounds depth bound bounds.rounds nodes trace hp hb hdepth
    hrounds hrounds (by omega)
  have shorter := hmid.length_le
  have room : Pattern.topRank * mid.rest.length +
      (if p.mayBeEmpty then bound else Pattern.topRank) ≤ depth := by
    cases hempty : p.mayBeEmpty with
    | false =>
      have := hmid.length_lt hempty
      simp only [Pattern.topRank, Bool.false_eq_true, if_false] at hdepth ⊢
      omega
    | true =>
      simp only [Pattern.topRank, if_true] at hdepth ⊢
      omega
  obtain ⟨last, hlast, hrun'⟩ := h' bounds depth _ bounds.rounds (us.reverse ++ nodes) after hq
    (by split <;> omega) room (by omega) (by omega) (by omega)
  rw [Pattern.runFor_rounds] at hrun hrun'
  refine ⟨last, by omega, ?_⟩
  simp only [Pattern.runFor_seq, hrun, Reading.outcome]
  cases res with
  | none => simp only [hrun', Reading.outcome, Option.map_none]
  | some res => simp only [hrun', Reading.outcome, Option.map_some, List.reverse_append, List.append_assoc]

/-- A choice runs to what its first side runs to if that matches. -/
theorem left (h : RunsTo p here (some (stop, us))) : RunsTo (.choice p q) here (some (stop, us)) := by
  obtain ⟨steps, h⟩ := h
  refine ⟨steps, fun bounds depth bound count nodes trace hrank hb hdepth hrounds hcount hcalls => ?_⟩
  obtain ⟨hp, _⟩ := Bool.and_eq_true_iff.mp hrank
  obtain ⟨after, hafter, hrun⟩ := h bounds depth bound bounds.rounds nodes trace hp hb hdepth
    hrounds hrounds hcalls
  rw [Pattern.runFor_rounds] at hrun
  exact ⟨after, hafter, by simp only [Pattern.runFor_choice, hrun, Reading.outcome]⟩

/-- It runs to what its second side runs to if the first fails. -/
theorem right (h : RunsTo p here none) (h' : RunsTo q here res) :
    RunsTo (.choice p q) here res := by
  obtain ⟨steps, h⟩ := h
  obtain ⟨steps', h'⟩ := h'
  refine ⟨steps + steps',
    fun bounds depth bound count nodes trace hrank hb hdepth hrounds hcount hcalls => ?_⟩
  obtain ⟨hp, hq⟩ := Bool.and_eq_true_iff.mp hrank
  obtain ⟨after, hafter, hrun⟩ := h bounds depth bound bounds.rounds nodes trace hp hb hdepth
    hrounds hrounds (by omega)
  obtain ⟨last, hlast, hrun'⟩ := h' bounds depth bound bounds.rounds nodes after hq hb hdepth
    hrounds hrounds (by omega)
  rw [Pattern.runFor_rounds] at hrun hrun'
  refine ⟨last, by omega, ?_⟩
  simp only [Pattern.runFor_choice, hrun, hrun', Reading.outcome]

/-- A repetition ends where a round fails. -/
theorem done (h : RunsTo round here none) : RunsTo (.many round) here (some (here, [])) := by
  obtain ⟨steps, h⟩ := h
  refine ⟨steps, fun bounds depth bound count nodes trace hrank hb hdepth hrounds hcount hcalls => ?_⟩
  obtain ⟨_, hround⟩ := Bool.and_eq_true_iff.mp hrank
  obtain ⟨after, hafter, hrun⟩ := h bounds depth bound bounds.rounds nodes trace hround hb hdepth
    hrounds hrounds hcalls
  rw [Pattern.runFor_rounds] at hrun
  obtain ⟨fewer, rfl⟩ : ∃ fewer, count = fewer + 1 := ⟨count - 1, by omega⟩
  exact ⟨after, hafter, by simp only [Pattern.runFor_many, Matcher.rounds, hrun, Reading.outcome,
    List.reverse_nil, List.nil_append]⟩

/-- The rounds left over after a round are enough, since the round consumed something. -/
theorem again (hmid : Parses round here (some (mid, us))) (h : RunsTo round here (some (mid, us)))
    (h' : RunsTo (.many round) mid (some (stop, vs))) :
    RunsTo (.many round) here (some (stop, us ++ vs)) := by
  obtain ⟨steps, h⟩ := h
  obtain ⟨steps', h'⟩ := h'
  refine ⟨steps + steps',
    fun bounds depth bound count nodes trace hrank hb hdepth hrounds hcount hcalls => ?_⟩
  obtain ⟨hempty, hround⟩ := Bool.and_eq_true_iff.mp hrank
  have shorter := hmid.length_lt (by simpa using hempty)
  obtain ⟨after, hafter, hrun⟩ := h bounds depth bound bounds.rounds nodes trace hround hb hdepth
    hrounds hrounds (by omega)
  obtain ⟨fewer, rfl⟩ : ∃ fewer, count = fewer + 1 := ⟨count - 1, by omega⟩
  have room : Pattern.topRank * mid.rest.length + bound ≤ depth := by
    simp only [Pattern.topRank] at hdepth ⊢
    omega
  obtain ⟨last, hlast, hrun'⟩ := h' bounds depth bound fewer (us.reverse ++ nodes) after hrank hb
    room (by omega) (by omega) (by omega)
  rw [Pattern.runFor_rounds] at hrun
  refine ⟨last, by omega, ?_⟩
  simp only [Pattern.runFor_many, Reading.outcome] at hrun' ⊢
  simp only [Matcher.rounds, hrun, Reading.outcome, hrun', List.reverse_append, List.append_assoc]

/-- An optional pattern takes nothing where the pattern fails. -/
theorem opt (h : RunsTo p here res) : RunsTo (.opt p) here (some (res.getD (here, []))) := by
  obtain ⟨steps, h⟩ := h
  refine ⟨steps, fun bounds depth bound count nodes trace hrank hb hdepth hrounds hcount hcalls => ?_⟩
  obtain ⟨after, hafter, hrun⟩ := h bounds depth bound bounds.rounds nodes trace hrank hb hdepth
    hrounds hrounds hcalls
  rw [Pattern.runFor_rounds] at hrun
  refine ⟨after, hafter, ?_⟩
  simp only [Pattern.runFor_opt, hrun]
  cases res <;> rfl

/-- A lookahead takes nothing where the pattern fails and fails where it matches. -/
theorem not (h : RunsTo p here res) :
    RunsTo (.not p) here (if res.isSome then none else some (here, [])) := by
  obtain ⟨steps, h⟩ := h
  refine ⟨steps, fun bounds depth bound count nodes trace hrank hb hdepth hrounds hcount hcalls => ?_⟩
  obtain ⟨after, hafter, hrun⟩ := h bounds depth bound bounds.rounds nodes trace hrank hb hdepth
    hrounds hrounds hcalls
  rw [Pattern.runFor_rounds] at hrun
  refine ⟨after, hafter, ?_⟩
  simp only [Pattern.runFor_not, hrun]
  cases res <;> rfl

/-- Counting depth changes no reading. -/
theorem counted (h : RunsTo p here res) : RunsTo (.counted p) here res := by
  obtain ⟨steps, h⟩ := h
  refine ⟨steps + 1, fun bounds depth bound count nodes trace hrank hb hdepth hrounds hcount hcalls => ?_⟩
  obtain ⟨after, hafter, hrun⟩ := h bounds depth bound bounds.rounds nodes
    { trace with calls := trace.calls + 1 } hrank hb hdepth hrounds hrounds (by dsimp only; omega)
  rw [Pattern.runFor_rounds] at hrun
  refine ⟨after, by rw [hafter]; dsimp only; omega, ?_⟩
  simp only [Pattern.runFor_counted, Trace.step?_eq (show trace.calls < bounds.calls by omega), hrun]

end RunsTo

/-- A pattern runs to its reading. -/
theorem Parses.runsTo {p : Pattern} {here : Cursor} {res : Reading} (h : Parses p here res) :
    RunsTo p here res := by
  induction h with
  | empty => exact .of_leaf fun _ _ _ _ _ => rfl
  | text => exact .of_leaf fun _ _ _ _ _ => RunsTo.leaf_outcome _ _ _
  | anyCase => exact .of_leaf fun _ _ _ _ _ => RunsTo.leaf_outcome _ _ _
  | char => exact .of_leaf fun _ _ _ _ _ => RunsTo.leaf_outcome _ _ _
  | @finish here =>
    refine .of_leaf fun _ _ _ _ _ => ?_
    obtain ⟨rest, offset⟩ := here
    cases rest <;> rfl
  | rule _ ih => exact ih.rule
  | seqFail _ ih => exact ih.seqFail
  | seq h _ ih ih' => exact .seq h ih ih'
  | left _ ih => exact ih.left
  | right _ _ ih ih' => exact ih.right ih'
  | done _ ih => exact ih.done
  | again h _ ih ih' => exact .again h ih ih'
  | opt _ ih => exact ih.opt
  | not _ ih => exact ih.not
  | counted _ ih => exact ih.counted

/-- A whole source runs to its reading under every budget from some size on. -/
theorem Rule.run_of_parses {r : Rule} {source : List Char} {res : Reading}
    (h : Parses (.rule r) (.start source) res) :
    ∃ steps, ∀ calls, steps ≤ calls → ∃ trace, trace.calls = steps ∧
      r.runOn calls source = res.outcome [] trace := by
  obtain ⟨steps, h⟩ := h.runsTo
  refine ⟨steps, fun calls hcalls => ?_⟩
  have rank : (Pattern.rule r).ranked Pattern.topRank = true := decide_eq_true r.rank_lt_topRank
  have room : Pattern.topRank * source.length + Pattern.topRank ≤ Rule.depthBound source.length := by
    simp only [Pattern.topRank, Rule.depthBound]
    omega
  obtain ⟨trace, htrace, hrun⟩ := h ⟨calls, source.length + 1⟩ (Rule.depthBound source.length)
    Pattern.topRank (source.length + 1) [] Trace.start rank (Nat.le_refl _) room
    (Nat.lt_succ_self _) (Nat.lt_succ_self _) (by simpa [Trace.start] using hcalls)
  exact ⟨trace, by simpa [Trace.start] using htrace, hrun⟩

/-- An outcome that a budget did not cut short is the reading. Steps are never given back. -/
def Faithful (limit : Nat) (p : Pattern) (here : Cursor) (nodes : List (Tree Rule))
    (trace : Trace) : Outcome → Prop
  | .matched stop all after => trace.calls ≤ after.calls ∧ (after.calls < limit →
      ∃ ts, all = ts.reverse ++ nodes ∧ Parses p here (some (stop, ts)))
  | .failed after => trace.calls ≤ after.calls ∧ (after.calls < limit → Parses p here none)
  | .exhausted => True

/-- A way to enter rules whose outcomes are all faithful. -/
def FaithfulEntry (limit : Nat) (enter : Rule → Matcher) : Prop :=
  ∀ r here nodes trace, Faithful limit (.rule r) here nodes trace (enter r here nodes trace)

namespace Faithful

variable {limit : Nat} {here : Cursor} {nodes : List (Tree Rule)} {trace : Trace}

/-- A leaf is run faithfully in any budget. -/
theorem leaf {p : Pattern} {stop : Option Cursor} (h : Parses p here (.leaf stop)) :
    Faithful limit p here nodes trace (Matcher.moveTo stop nodes trace) := by
  cases stop with
  | none => exact ⟨Nat.le_refl _, fun _ => h⟩
  | some stop => exact ⟨Nat.le_refl _, fun _ => ⟨[], rfl, h⟩⟩

/-- Rounds that each are faithful make a faithful repetition. -/
theorem rounds {round : Pattern} {step : Matcher}
    (h : ∀ here nodes trace, Faithful limit round here nodes trace (step here nodes trace)) :
    ∀ (count : Nat) (here : Cursor) (nodes : List (Tree Rule)) (trace : Trace),
      Faithful limit (.many round) here nodes trace
        (Matcher.rounds step count here nodes trace) := by
  intro count
  induction count with
  | zero => exact fun _ _ _ => trivial
  | succ count ih =>
    intro here nodes trace
    have hround := h here nodes trace
    simp only [Matcher.rounds]
    cases hstep : step here nodes trace with
    | exhausted => trivial
    | failed after =>
      rw [hstep] at hround
      exact ⟨hround.1, fun hlimit => ⟨[], rfl, .done (hround.2 hlimit)⟩⟩
    | matched mid all after =>
      rw [hstep] at hround
      have hrest := ih mid all after
      dsimp only
      cases hmany : Matcher.rounds step count mid all after with
      | exhausted => trivial
      | failed last =>
        rw [hmany] at hrest
        exact ⟨Nat.le_trans hround.1 hrest.1, fun hlimit =>
          (Parses.many_ne_none (hrest.2 hlimit)).elim⟩
      | matched stop more last =>
        rw [hmany] at hrest
        refine ⟨Nat.le_trans hround.1 hrest.1, fun hlimit => ?_⟩
        obtain ⟨us, rfl, hus⟩ := hround.2 (Nat.lt_of_le_of_lt hrest.1 hlimit)
        obtain ⟨vs, rfl, hvs⟩ := hrest.2 hlimit
        exact ⟨us ++ vs, by rw [List.reverse_append, List.append_assoc], .again hus hvs⟩

end Faithful

/-- Where entering rules is faithful, matching a pattern is. -/
theorem Pattern.run_faithful {bounds : Bounds} {enter : Rule → Matcher}
    (henter : FaithfulEntry bounds.calls enter) (p : Pattern) :
    ∀ (here : Cursor) (nodes : List (Tree Rule)) (trace : Trace),
      Faithful bounds.calls p here nodes trace (p.run bounds enter here nodes trace) := by
  induction p with
  | empty => exact fun _ _ _ => ⟨Nat.le_refl _, fun _ => ⟨[], rfl, .empty⟩⟩
  | text => exact fun _ _ _ => .leaf .text
  | anyCase => exact fun _ _ _ => .leaf .anyCase
  | char => exact fun _ _ _ => .leaf .char
  | finish =>
    intro here nodes trace
    have h : Parses .finish here _ := .finish
    simp only [run]
    cases hrest : here.rest with
    | nil =>
      rw [hrest, if_pos rfl] at h
      exact ⟨Nat.le_refl _, fun _ => ⟨[], rfl, h⟩⟩
    | cons c rest =>
      rw [hrest, if_neg (List.cons_ne_nil c rest)] at h
      exact ⟨Nat.le_refl _, fun _ => h⟩
  | rule r => exact henter r
  | seq first second ih ih' =>
    intro here nodes trace
    have hfirst := ih here nodes trace
    simp only [run]
    cases hrun : first.run bounds enter here nodes trace with
    | exhausted => trivial
    | failed after =>
      rw [hrun] at hfirst
      exact ⟨hfirst.1, fun hlimit => .seqFail (hfirst.2 hlimit)⟩
    | matched mid all after =>
      rw [hrun] at hfirst
      have hsecond := ih' mid all after
      dsimp only
      cases hrun' : second.run bounds enter mid all after with
      | exhausted => trivial
      | failed last =>
        rw [hrun'] at hsecond
        refine ⟨Nat.le_trans hfirst.1 hsecond.1, fun hlimit => ?_⟩
        obtain ⟨us, _, hus⟩ := hfirst.2 (Nat.lt_of_le_of_lt hsecond.1 hlimit)
        exact .seq hus (hsecond.2 hlimit)
      | matched stop more last =>
        rw [hrun'] at hsecond
        refine ⟨Nat.le_trans hfirst.1 hsecond.1, fun hlimit => ?_⟩
        obtain ⟨us, rfl, hus⟩ := hfirst.2 (Nat.lt_of_le_of_lt hsecond.1 hlimit)
        obtain ⟨vs, rfl, hvs⟩ := hsecond.2 hlimit
        exact ⟨us ++ vs, by rw [List.reverse_append, List.append_assoc], .seq hus hvs⟩
  | choice first second ih ih' =>
    intro here nodes trace
    have hfirst := ih here nodes trace
    simp only [run]
    cases hrun : first.run bounds enter here nodes trace with
    | exhausted => trivial
    | matched stop all after =>
      rw [hrun] at hfirst
      refine ⟨hfirst.1, fun hlimit => ?_⟩
      obtain ⟨us, hall, hus⟩ := hfirst.2 hlimit
      exact ⟨us, hall, .left hus⟩
    | failed after =>
      rw [hrun] at hfirst
      have hsecond := ih' here nodes after
      dsimp only
      cases hrun' : second.run bounds enter here nodes after with
      | exhausted => trivial
      | failed last =>
        rw [hrun'] at hsecond
        exact ⟨Nat.le_trans hfirst.1 hsecond.1, fun hlimit =>
          .right (hfirst.2 (Nat.lt_of_le_of_lt hsecond.1 hlimit)) (hsecond.2 hlimit)⟩
      | matched stop more last =>
        rw [hrun'] at hsecond
        refine ⟨Nat.le_trans hfirst.1 hsecond.1, fun hlimit => ?_⟩
        obtain ⟨vs, hmore, hvs⟩ := hsecond.2 hlimit
        exact ⟨vs, hmore, .right (hfirst.2 (Nat.lt_of_le_of_lt hsecond.1 hlimit)) hvs⟩
  | many round ih => exact Faithful.rounds ih bounds.rounds
  | opt part ih =>
    intro here nodes trace
    have hpart := ih here nodes trace
    simp only [run]
    cases hrun : part.run bounds enter here nodes trace with
    | exhausted => trivial
    | failed after =>
      rw [hrun] at hpart
      exact ⟨hpart.1, fun hlimit => ⟨[], rfl, .opt (hpart.2 hlimit)⟩⟩
    | matched stop all after =>
      rw [hrun] at hpart
      refine ⟨hpart.1, fun hlimit => ?_⟩
      obtain ⟨us, hall, hus⟩ := hpart.2 hlimit
      exact ⟨us, hall, .opt hus⟩
  | not part ih =>
    intro here nodes trace
    have hpart := ih here nodes trace
    simp only [run]
    cases hrun : part.run bounds enter here nodes trace with
    | exhausted => trivial
    | failed after =>
      rw [hrun] at hpart
      exact ⟨hpart.1, fun hlimit => ⟨[], rfl, .not (hpart.2 hlimit)⟩⟩
    | matched stop all after =>
      rw [hrun] at hpart
      refine ⟨hpart.1, fun hlimit => ?_⟩
      obtain ⟨us, _, hus⟩ := hpart.2 hlimit
      exact .not hus
  | counted part ih =>
    intro here nodes trace
    simp only [run]
    by_cases hroom : trace.calls < bounds.calls
    · have hpart := ih here nodes { trace with calls := trace.calls + 1 }
      simp only [Trace.step?_eq hroom]
      cases hrun : part.run bounds enter here nodes { trace with calls := trace.calls + 1 } with
      | exhausted => trivial
      | failed after =>
        rw [hrun] at hpart
        exact ⟨Nat.le_trans (Nat.le_succ _) hpart.1, fun hlimit => .counted (hpart.2 hlimit)⟩
      | matched stop all after =>
        rw [hrun] at hpart
        refine ⟨Nat.le_trans (Nat.le_succ _) hpart.1, fun hlimit => ?_⟩
        obtain ⟨us, hall, hus⟩ := hpart.2 hlimit
        exact ⟨us, hall, .counted hus⟩
    · have refused : trace.step? bounds.calls = none := if_neg hroom
      simp only [refused]
      exact ⟨Nat.le_refl _, fun hlimit => (hroom hlimit).elim⟩

/-- Entering a rule is faithful to any depth. -/
theorem Rule.run_faithful (bounds : Bounds) (depth : Nat) :
    FaithfulEntry bounds.calls (Rule.run bounds depth) := by
  induction depth with
  | zero => exact fun _ _ _ _ => trivial
  | succ depth ih =>
    intro r here nodes trace
    simp only [Rule.run]
    by_cases hroom : trace.calls < bounds.calls
    · have hinside := Pattern.run_faithful ih r.pattern here []
        { trace with calls := trace.calls + 1 }
      simp only [Trace.step?_eq hroom]
      cases hrun : r.pattern.run bounds (Rule.run bounds depth) here []
          { trace with calls := trace.calls + 1 } with
      | exhausted => trivial
      | failed after =>
        rw [hrun] at hinside
        refine ⟨?_, fun hlimit => Parses.rule_none_iff.mpr (hinside.2 ?_)⟩
        · rw [Trace.fail_calls]
          exact Nat.le_trans (Nat.le_succ _) hinside.1
        · rwa [Trace.fail_calls] at hlimit
      | matched stop all after =>
        rw [hrun] at hinside
        refine ⟨Nat.le_trans (Nat.le_succ _) hinside.1, fun hlimit => ?_⟩
        obtain ⟨us, rfl, hus⟩ := hinside.2 hlimit
        refine ⟨[r.node here stop us], ?_, Parses.rule_some_iff.mpr ⟨us, hus, rfl⟩⟩
        simp only [Rule.node, List.append_nil, List.reverse_reverse, List.reverse_cons,
          List.reverse_nil, List.nil_append, List.singleton_append]
    · have refused : trace.step? bounds.calls = none := if_neg hroom
      simp only [refused]
      exact ⟨Nat.le_refl _, fun hlimit => (hroom hlimit).elim⟩

/-- A pattern whose last part is the end of input. -/
inductive Closing : Pattern → Prop where
  | finish : Closing (.rule .endOfInput)
  | seq {first rest : Pattern} (h : Closing rest) : Closing (.seq first rest)
  | counted {part : Pattern} (h : Closing part) : Closing (.counted part)

/-- The end of input takes a step of its own, so a pattern that ends with it matches only where
the budget had lasted until there. -/
theorem Closing.reading_of_run {bounds : Bounds} {depth : Nat} {p : Pattern} (h : Closing p) :
    ∀ {here stop : Cursor} {nodes all : List (Tree Rule)} {trace last : Trace},
      p.run bounds (Rule.run bounds depth) here nodes trace = .matched stop all last →
      trace.calls < bounds.calls ∧
        ∃ ts, all = ts.reverse ++ nodes ∧ Parses p here (some (stop, ts)) := by
  induction h with
  | finish =>
    intro here stop nodes all trace last hrun
    cases depth with
    | zero => cases hrun
    | succ depth =>
      simp only [Pattern.run, Rule.run] at hrun
      by_cases room : trace.calls < bounds.calls
      · refine ⟨room, ?_⟩
        simp only [Trace.step?_eq room, Rule.pattern, Pattern.run] at hrun
        have reading : Parses .finish here _ := .finish
        cases hrest : here.rest with
        | nil =>
          simp only [hrest, if_true] at hrun reading
          cases hrun
          refine ⟨_, ?_, @Parses.rule _ .endOfInput _ reading⟩
          simp only [Rule.node, hrest, List.reverse_cons, List.reverse_nil, List.nil_append,
            List.singleton_append]
        | cons c rest =>
          simp only [hrest] at hrun
          cases hrun
      · have refused : trace.step? bounds.calls = none := if_neg room
        simp only [refused] at hrun
        cases hrun
  | @seq first rest _ ih =>
    intro here stop nodes all trace last hrun
    have hfirst := Pattern.run_faithful (Rule.run_faithful bounds depth) first here nodes trace
    simp only [Pattern.run] at hrun
    cases hmid : first.run bounds (Rule.run bounds depth) here nodes trace with
    | exhausted => rw [hmid] at hrun; cases hrun
    | failed after => rw [hmid] at hrun; cases hrun
    | matched mid some after =>
      rw [hmid] at hrun hfirst
      obtain ⟨room, vs, hall, hvs⟩ := ih hrun
      obtain ⟨us, rfl, hus⟩ := hfirst.2 room
      exact ⟨Nat.lt_of_le_of_lt hfirst.1 room, us ++ vs,
        by rw [hall, List.reverse_append, List.append_assoc], .seq hus hvs⟩
  | @counted part _ ih =>
    intro here stop nodes all trace last hrun
    simp only [Pattern.run] at hrun
    by_cases room : trace.calls < bounds.calls
    · simp only [Trace.step?_eq room] at hrun
      obtain ⟨_, ts, hall, hts⟩ := ih hrun
      exact ⟨room, ts, hall, .counted hts⟩
    · have refused : trace.step? bounds.calls = none := if_neg room
      simp only [refused] at hrun
      cases hrun

/-- A source that the grammar matches under some budget has a reading, and it is that match. -/
theorem Rule.reading_of_run {calls : Nat} {source : List Char} {stop : Cursor}
    {nodes : List (Tree Rule)} {trace : Trace}
    (h : expression.runOn calls source = .matched stop nodes trace) :
    Parses (.rule .expression) (.start source) (some (stop, nodes)) := by
  have closing : Closing expression.pattern := .counted (.seq (.seq (.seq (.seq .finish))))
  obtain ⟨depth, hdepth⟩ : ∃ depth, Rule.depthBound source.length = depth + 1 :=
    ⟨64 * source.length + 63, by simp only [depthBound]; omega⟩
  simp only [runOn, hdepth, Rule.run] at h
  cases hstep : Trace.start.step? calls with
  | none => simp only [hstep] at h; cases h
  | some trace =>
    simp only [hstep] at h
    split at h
    · rename_i mid children after hrun
      cases h
      obtain ⟨_, ts, hchildren, hts⟩ := closing.reading_of_run hrun
      refine Parses.rule_some_iff.mpr ⟨ts, hts, ?_⟩
      rw [hchildren, List.append_nil, List.reverse_reverse]
      rfl
    · cases h
    · cases h

end Vimscript
