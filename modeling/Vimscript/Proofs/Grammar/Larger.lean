import Vimscript.Proofs.Grammar.Budget

/-!
# Matching under a larger budget

A run whose last step lay within the budget was never refused a step, so a larger budget leaves it
as it is, its trace included. Where a source is matched as a whole the step at the end of input
shows that the budget had lasted, however little of it is left. The main result is
`Rule.runOn_of_le`.
-/

namespace Vimscript

/-- The steps taken at the end of a run, if it has an end of its own. -/
def Outcome.calls? : Outcome → Option Nat
  | .matched _ _ trace | .failed trace => some trace.calls
  | .exhausted => none

/-- A run that ended with steps to spare. -/
def Outcome.Spares (limit : Nat) (outcome : Outcome) : Prop :=
  ∃ calls, outcome.calls? = some calls ∧ calls < limit

/-- A failure spares some calls if its trace does. -/
theorem Outcome.spares_failed {limit : Nat} {trace : Trace} :
    (Outcome.failed trace).Spares limit ↔ trace.calls < limit :=
  ⟨fun ⟨_, h, hlt⟩ => by cases h; exact hlt, fun h => ⟨_, rfl, h⟩⟩

/-- A match spares some calls if its trace does. -/
theorem Outcome.spares_matched {limit : Nat} {stop : Cursor} {nodes : List (Tree Rule)}
    {trace : Trace} : (Outcome.matched stop nodes trace).Spares limit ↔ trace.calls < limit :=
  ⟨fun ⟨_, h, hlt⟩ => by cases h; exact hlt, fun h => ⟨_, rfl, h⟩⟩

/-- Nothing is spared where the calls were used up. -/
theorem Outcome.not_spares_exhausted {limit : Nat} : ¬ Outcome.exhausted.Spares limit :=
  fun ⟨_, h, _⟩ => nomatch h

/-- Where a run ends with steps to spare it began so. -/
theorem Faithful.spares {limit : Nat} {p : Pattern} {here : Cursor} {nodes : List (Tree Rule)}
    {trace : Trace} {outcome : Outcome} (h : Faithful limit p here nodes trace outcome)
    (hspare : outcome.Spares limit) : trace.calls < limit := by
  cases outcome with
  | matched stop all after => exact Nat.lt_of_le_of_lt h.1 (Outcome.spares_matched.mp hspare)
  | failed after => exact Nat.lt_of_le_of_lt h.1 (Outcome.spares_failed.mp hspare)
  | exhausted => exact (Outcome.not_spares_exhausted hspare).elim

/-- Another way of matching that ends as the first does wherever that has steps to spare. -/
def Matcher.Keeps (limit : Nat) (step step' : Matcher) : Prop :=
  ∀ here nodes trace, (step here nodes trace).Spares limit →
    step' here nodes trace = step here nodes trace

/-- Rounds that are kept make a kept repetition. -/
theorem Matcher.Keeps.rounds {limit : Nat} {round : Pattern} {step step' : Matcher}
    (hfaith : ∀ here nodes trace, Faithful limit round here nodes trace (step here nodes trace))
    (h : Matcher.Keeps limit step step') (count : Nat) :
    Matcher.Keeps limit (Matcher.rounds step count) (Matcher.rounds step' count) := by
  induction count with
  | zero => exact fun _ _ _ _ => rfl
  | succ count ih =>
    intro here nodes trace hspare
    have hround := h here nodes trace
    simp only [Matcher.rounds] at hspare ⊢
    cases hstep : step here nodes trace with
    | exhausted =>
      rw [hstep] at hspare
      exact (Outcome.not_spares_exhausted hspare).elim
    | failed after =>
      rw [hstep] at hspare hround
      rw [hround (Outcome.spares_failed.mpr (Outcome.spares_matched.mp hspare))]
    | matched mid all after =>
      rw [hstep] at hspare hround
      have hafter := (Faithful.rounds hfaith count mid all after).spares hspare
      rw [hround (Outcome.spares_matched.mpr hafter)]
      exact ih mid all after hspare

section

variable {bounds bounds' : Bounds} (hcalls : bounds.calls ≤ bounds'.calls)
  (hrounds : bounds.rounds = bounds'.rounds)

include hcalls hrounds

/-- Where entering rules is kept, matching a pattern is. -/
theorem Pattern.run_keeps {enter enter' : Rule → Matcher}
    (hfaith : FaithfulEntry bounds.calls enter)
    (henter : ∀ r, Matcher.Keeps bounds.calls (enter r) (enter' r)) (p : Pattern) :
    Matcher.Keeps bounds.calls (p.run bounds enter) (p.run bounds' enter') := by
  induction p with
  | empty | text | anyCase | char | finish => exact fun _ _ _ _ => rfl
  | rule r => exact henter r
  | seq first second ih ih' =>
    intro here nodes trace hspare
    have hfirst := ih here nodes trace
    simp only [run] at hspare ⊢
    cases hrun : first.run bounds enter here nodes trace with
    | exhausted =>
      rw [hrun] at hspare
      exact (Outcome.not_spares_exhausted hspare).elim
    | failed after =>
      rw [hrun] at hspare hfirst
      rw [hfirst hspare]
    | matched mid all after =>
      rw [hrun] at hspare hfirst
      have hafter := (Pattern.run_faithful hfaith second mid all after).spares hspare
      rw [hfirst (Outcome.spares_matched.mpr hafter)]
      exact ih' mid all after hspare
  | choice first second ih ih' =>
    intro here nodes trace hspare
    have hfirst := ih here nodes trace
    simp only [run] at hspare ⊢
    cases hrun : first.run bounds enter here nodes trace with
    | exhausted =>
      rw [hrun] at hspare
      exact (Outcome.not_spares_exhausted hspare).elim
    | matched stop all after =>
      rw [hrun] at hspare hfirst
      rw [hfirst hspare]
    | failed after =>
      rw [hrun] at hspare hfirst
      have hafter := (Pattern.run_faithful hfaith second here nodes after).spares hspare
      rw [hfirst (Outcome.spares_failed.mpr hafter)]
      exact ih' here nodes after hspare
  | many round ih =>
    simp only [run, ← hrounds]
    exact .rounds (Pattern.run_faithful hfaith round) ih bounds.rounds
  | opt part ih | not part ih =>
    intro here nodes trace hspare
    have hpart := ih here nodes trace
    simp only [run] at hspare ⊢
    cases hrun : part.run bounds enter here nodes trace with
    | exhausted =>
      rw [hrun] at hspare
      exact (Outcome.not_spares_exhausted hspare).elim
    | failed after =>
      rw [hrun] at hspare hpart
      rw [hpart (Outcome.spares_failed.mpr (Outcome.spares_matched.mp hspare))]
    | matched stop all after =>
      rw [hrun] at hspare hpart
      rw [hpart (Outcome.spares_matched.mpr (by
        first | exact Outcome.spares_matched.mp hspare | exact Outcome.spares_failed.mp hspare))]
  | counted part ih =>
    intro here nodes trace hspare
    have hroom := (Pattern.run_faithful hfaith (.counted part) here nodes trace).spares hspare
    simp only [run, Trace.step?_eq hroom, Trace.step?_eq (Nat.lt_of_lt_of_le hroom hcalls)]
      at hspare ⊢
    exact ih here nodes _ hspare

/-- Entering a rule is kept to any depth. -/
theorem Rule.run_keeps (depth : Nat) (r : Rule) :
    Matcher.Keeps bounds.calls (Rule.run bounds depth r) (Rule.run bounds' depth r) := by
  induction depth generalizing r with
  | zero => exact fun _ _ _ _ => rfl
  | succ depth ih =>
    intro here nodes trace hspare
    have hroom := (Rule.run_faithful bounds (depth + 1) r here nodes trace).spares hspare
    have hinside := Pattern.run_keeps hcalls hrounds (Rule.run_faithful bounds depth) ih r.pattern
      here [] { trace with calls := trace.calls + 1 }
    simp only [Rule.run, Trace.step?_eq hroom, Trace.step?_eq (Nat.lt_of_lt_of_le hroom hcalls)]
      at hspare ⊢
    cases hrun : r.pattern.run bounds (Rule.run bounds depth) here []
        { trace with calls := trace.calls + 1 } with
    | exhausted =>
      rw [hrun] at hspare
      exact (Outcome.not_spares_exhausted hspare).elim
    | failed after =>
      rw [hrun] at hspare hinside
      rw [hinside (Outcome.spares_failed.mpr
        (Trace.fail_calls .. ▸ Outcome.spares_failed.mp hspare))]
    | matched stop all after =>
      rw [hrun] at hspare hinside
      rw [hinside (Outcome.spares_matched.mpr (Outcome.spares_matched.mp hspare))]

/-- A pattern that ends with the end of input is kept where it matches. -/
theorem Closing.run_eq {depth : Nat} {p : Pattern} (h : Closing p) :
    ∀ {here stop : Cursor} {nodes all : List (Tree Rule)} {trace last : Trace},
      p.run bounds (Rule.run bounds depth) here nodes trace = .matched stop all last →
      p.run bounds' (Rule.run bounds' depth) here nodes trace = .matched stop all last := by
  induction h with
  | finish =>
    intro here stop nodes all trace last hrun
    have hroom := (Closing.finish.reading_of_run hrun).1
    cases depth with
    | zero => cases hrun
    | succ depth =>
      rw [← hrun]
      simp only [Pattern.run, Rule.run, Rule.pattern, Trace.step?_eq hroom,
        Trace.step?_eq (Nat.lt_of_lt_of_le hroom hcalls)]
  | @seq first rest hrest ih =>
    intro here stop nodes all trace last hrun
    have hfirst := Pattern.run_keeps hcalls hrounds (Rule.run_faithful bounds depth)
      (Rule.run_keeps hcalls hrounds depth) first here nodes trace
    simp only [Pattern.run] at hrun ⊢
    cases hmid : first.run bounds (Rule.run bounds depth) here nodes trace with
    | exhausted => rw [hmid] at hrun; cases hrun
    | failed after => rw [hmid] at hrun; cases hrun
    | matched mid some after =>
      rw [hmid] at hrun hfirst
      rw [hfirst (Outcome.spares_matched.mpr (hrest.reading_of_run hrun).1)]
      exact ih hrun
  | @counted part hpart ih =>
    intro here stop nodes all trace last hrun
    have hroom := (Closing.counted hpart).reading_of_run hrun |>.1
    simp only [Pattern.run, Trace.step?_eq hroom, Trace.step?_eq (Nat.lt_of_lt_of_le hroom hcalls)]
      at hrun ⊢
    exact ih hrun

end

namespace Rule

/-- The pattern of a whole source ends with the end of input. -/
theorem closing_expression : Closing expression.pattern :=
  .counted (.seq (.seq (.seq (.seq .finish))))

/-- A whole source is matched alike under a larger budget, if the smaller one matched it or had
steps to spare. -/
theorem runOn_of_le {calls calls' : Nat} {source : List Char} {outcome : Outcome}
    (h : expression.runOn calls source = outcome) (hle : calls ≤ calls')
    (hkept : outcome.Spares calls ∨ ∃ stop nodes trace, outcome = .matched stop nodes trace) :
    expression.runOn calls' source = outcome := by
  have hle' : (Bounds.mk calls (source.length + 1)).calls ≤
    (Bounds.mk calls' (source.length + 1)).calls := hle
  rcases hkept with hspare | ⟨stop, nodes, trace, rfl⟩
  · rw [← h] at hspare ⊢
    exact Rule.run_keeps hle' rfl (depthBound source.length) expression _ _ _ hspare
  · obtain ⟨depth, hdepth⟩ : ∃ depth, depthBound source.length = depth + 1 :=
      ⟨64 * source.length + 63, by simp only [depthBound]; omega⟩
    simp only [runOn, hdepth, Rule.run] at h ⊢
    by_cases hroom : Trace.start.calls < calls
    · simp only [Trace.step?_eq hroom, Trace.step?_eq (Nat.lt_of_lt_of_le hroom hle)] at h ⊢
      split at h
      · rename_i hrun
        rw [closing_expression.run_eq hle' rfl hrun]
        exact h
      · cases h
      · cases h
    · simp only [show Trace.start.step? calls = none from if_neg hroom] at h
      cases h

end Rule

end Vimscript
