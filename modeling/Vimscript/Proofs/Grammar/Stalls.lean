import Vimscript.Proofs.Grammar.Budget
import Vimscript.Proofs.Grammar.Furthest

/-!
# Rules entered at the end

A rule leaves a failure in the trace at the place where it was entered. So a run that fails no
earlier than at the end of the source has entered a rule there, behind parts of other rules that
matched. `Rule.Stalls` says so without the trace, and `Rule.stalls_of_runOn` finds it in every run
that the budget did not cut short.
-/

namespace Vimscript

open Text

/-- Matching a pattern at a place comes to enter a rule at a place. -/
inductive Pattern.Enters : Pattern → Cursor → Rule → Cursor → Prop where
  | rule {here : Cursor} {r : Rule} : Enters (.rule r) here r here
  | first {here place : Cursor} {r : Rule} {p q : Pattern} (h : Enters p here r place) :
    Enters (.seq p q) here r place
  | second {here mid place : Cursor} {r : Rule} {p q : Pattern} {us : List (Tree Rule)}
    (h : Parses p here (some (mid, us))) (h' : Enters q mid r place) :
    Enters (.seq p q) here r place
  | left {here place : Cursor} {r : Rule} {p q : Pattern} (h : Enters p here r place) :
    Enters (.choice p q) here r place
  | right {here place : Cursor} {r : Rule} {p q : Pattern} (h : Enters q here r place) :
    Enters (.choice p q) here r place
  | round {here place : Cursor} {r : Rule} {p : Pattern} (h : Enters p here r place) :
    Enters (.many p) here r place
  | again {here mid place : Cursor} {r : Rule} {p : Pattern} {us : List (Tree Rule)}
    (h : Parses p here (some (mid, us))) (h' : Enters (.many p) mid r place) :
    Enters (.many p) here r place
  | opt {here place : Cursor} {r : Rule} {p : Pattern} (h : Enters p here r place) :
    Enters (.opt p) here r place
  | not {here place : Cursor} {r : Rule} {p : Pattern} (h : Enters p here r place) :
    Enters (.not p) here r place
  | counted {here place : Cursor} {r : Rule} {p : Pattern} (h : Enters p here r place) :
    Enters (.counted p) here r place

/-- The rules in a pattern. -/
def Pattern.rules : Pattern → List Rule
  | rule r => [r]
  | seq p q | choice p q => p.rules ++ q.rules
  | many p | opt p | not p | counted p => p.rules
  | _ => []

/-- A pattern enters rules that it names. -/
theorem Pattern.Enters.mem_rules {p : Pattern} {here place : Cursor} {r : Rule}
    (h : p.Enters here r place) : r ∈ p.rules := by
  induction h with
  | rule => exact List.mem_singleton_self _
  | first _ ih | left _ ih => exact List.mem_append_left _ ih
  | second _ _ ih | right _ ih => exact List.mem_append_right _ ih
  | round _ ih | again _ _ ih | opt _ ih | not _ ih | counted _ ih => exact ih

/-- A rule at the end of the source, or one that comes to enter such a rule. -/
inductive Rule.Stalls : Rule → Cursor → Prop where
  | atEnd {r : Rule} {here : Cursor} (h : here.rest = []) : Stalls r here
  | inside {r r' : Rule} {here place : Cursor} (h : r.pattern.Enters here r' place)
    (h' : Stalls r' place) : Stalls r here

/-- A token names no rules. -/
theorem Rule.rules_of_isToken {r : Rule} (hr : r.isToken = true) : r.pattern.rules = [] := by
  cases r <;> first | rfl | cases hr

/-- A token stalls only at the end. -/
theorem Rule.Stalls.rest_eq_nil {r : Rule} {here : Cursor} (h : r.Stalls here)
    (hr : r.isToken = true) : here.rest = [] := by
  cases h with
  | atEnd h => exact h
  | inside h =>
    have hmem := h.mem_rules
    rw [rules_of_isToken hr] at hmem
    cases hmem

/-- A pattern whose matching comes to enter a rule that stalls. -/
def Pattern.Stalls (p : Pattern) (here : Cursor) : Prop :=
  ∃ r place, p.Enters here r place ∧ Rule.Stalls r place

/-- A pattern stalls with one whose entries are among its own. -/
theorem Pattern.Stalls.of_enters {p q : Pattern} {here here' : Cursor} (h : p.Stalls here)
    (henters : ∀ r place, p.Enters here r place → q.Enters here' r place) : q.Stalls here' := by
  obtain ⟨r, place, h, hstalls⟩ := h
  exact ⟨r, place, henters r place h, hstalls⟩

/-- An outcome that knows of a failure at the end of a source only with a cause, if the budget has
lasted. -/
def Outcome.Tells (limit : Nat) (source : List Char) (cause : Prop) : Outcome → Prop
  | .matched _ _ trace | .failed trace =>
    trace.calls < limit → byteLength source ≤ trace.furthest → cause
  | .exhausted => True

/-- A way of matching that comes to its first failure at the end of a source only from places with a
property. -/
def Matcher.Tells (limit : Nat) (source : List Char) (cause : Cursor → Prop) (step : Matcher) :
    Prop :=
  ∀ here nodes trace, here.In source → trace.furthest < byteLength source →
    (step here nodes trace).Tells limit source (cause here)

variable {source : List Char} {limit : Nat}

/-- Nothing is left at the place behind all bytes. -/
theorem Cursor.In.rest_eq_nil {here : Cursor} (h : here.In source)
    (hend : byteLength source ≤ here.offset) : here.rest = [] := by
  obtain ⟨u, hu⟩ := h
  have hwhole : source = u ++ here.rest := hu.rest_eq
  have hoffset : here.offset = 0 + byteLength u := hu.offset_eq
  rw [hwhole, byteLength_append] at hend
  exact byteLength_eq_zero_iff.mp (by omega)

namespace Outcome.Tells

variable {cause cause' : Prop} {outcome : Outcome}

/-- What tells of a cause tells of a weaker one. -/
theorem mono (h : outcome.Tells limit source cause) (hcause : cause → cause') :
    outcome.Tells limit source cause' := by
  cases outcome with
  | exhausted => trivial
  | matched | failed => exact fun hcalls hloud => hcause (h hcalls hloud)

/-- Where a run ends with steps to spare it began so. -/
theorem of_faithful {p : Pattern} {here : Cursor} {nodes : List (Tree Rule)} {trace : Trace}
    (h : Faithful limit p here nodes trace outcome)
    (hspare : trace.calls < limit → outcome.Tells limit source cause) :
    outcome.Tells limit source cause := by
  cases outcome with
  | exhausted => trivial
  | matched | failed =>
    exact fun hcalls => hspare (Nat.lt_of_le_of_lt h.1 hcalls) hcalls

/-- An outcome with a cause tells of it. -/
theorem of_cause (h : cause) : outcome.Tells limit source cause := by
  cases outcome with
  | exhausted => trivial
  | matched | failed => exact fun _ _ => h

/-- A failure before the end of the source tells of nothing. -/
theorem of_quiet {trace : Trace} (hquiet : trace.furthest < byteLength source) :
    (Outcome.failed trace).Tells limit source cause :=
  fun _ hloud => (Nat.not_lt_of_le hloud hquiet).elim

/-- A leaf fails without a trace. -/
theorem moveTo {stop : Option Cursor} {nodes : List (Tree Rule)} {trace : Trace}
    (hquiet : trace.furthest < byteLength source) :
    (Matcher.moveTo stop nodes trace).Tells limit source cause := by
  cases stop <;> exact of_quiet hquiet

/-- What happens behind a part that matched. -/
theorem andThen {p q : Pattern} {here mid : Cursor} {nodes all : List (Tree Rule)}
    {trace after : Trace} {cause'' : Prop}
    (hfirst : Faithful limit p here nodes trace (.matched mid all after))
    (htells : (Outcome.matched mid all after).Tells limit source cause)
    (hsecond : Faithful limit q mid all after outcome)
    (htells' : mid.In source → after.furthest < byteLength source →
      outcome.Tells limit source cause') (hhere : here.In source) (hcause : cause → cause'')
    (hcause' : ∀ us, Parses p here (some (mid, us)) → cause' → cause'') :
    outcome.Tells limit source cause'' := by
  refine .of_faithful hsecond fun hspare => ?_
  rcases Nat.lt_or_ge after.furthest (byteLength source) with hquiet | hloud
  · obtain ⟨us, -, hus⟩ := hfirst.2 hspare
    obtain ⟨u, hu⟩ := hus.moves
    exact (htells' (hhere.move hu) hquiet).mono (hcause' us hus)
  · exact .of_cause (hcause (htells hspare hloud))

end Outcome.Tells

/-- Rounds tell where the repetition comes to a rule. -/
theorem Matcher.Tells.rounds {round : Pattern} {step : Matcher}
    (hfaith : ∀ here nodes trace, Faithful limit round here nodes trace (step here nodes trace))
    (h : Matcher.Tells limit source round.Stalls step) (count : Nat) :
    Matcher.Tells limit source (Pattern.many round).Stalls (Matcher.rounds step count) := by
  induction count with
  | zero => exact fun _ _ _ _ _ => trivial
  | succ count ih =>
    intro here nodes trace hhere hquiet
    have hround := hfaith here nodes trace
    have htells := h here nodes trace hhere hquiet
    simp only [Matcher.rounds]
    cases hstep : step here nodes trace with
    | exhausted => trivial
    | failed after =>
      rw [hstep] at htells
      exact htells.mono fun h => h.of_enters fun _ _ => .round
    | matched mid all after =>
      rw [hstep] at htells hround
      exact .andThen hround htells (Faithful.rounds hfaith count mid all after)
        (fun hmid hquiet' => ih mid all after hmid hquiet') hhere
        (fun h => h.of_enters fun _ _ => .round)
        (fun us hus h => h.of_enters fun _ _ => .again hus)

/-- Where entering rules tells, matching a pattern does. -/
theorem Pattern.run_tells {bounds : Bounds} {enter : Rule → Matcher}
    (hfaith : FaithfulEntry bounds.calls enter)
    (henter : ∀ r, Matcher.Tells bounds.calls source r.Stalls (enter r)) (p : Pattern) :
    Matcher.Tells bounds.calls source p.Stalls (p.run bounds enter) := by
  induction p with
  | empty => exact fun _ _ _ _ => Outcome.Tells.of_quiet
  | text | anyCase | char => exact fun _ _ _ _ => Outcome.Tells.moveTo
  | finish =>
    intro here nodes trace _ hquiet
    simp only [run]
    split <;> exact Outcome.Tells.of_quiet hquiet
  | rule r =>
    exact fun here nodes trace hhere hquiet => (henter r here nodes trace hhere hquiet).mono
      fun hstalls => ⟨r, here, .rule, hstalls⟩
  | seq first second ih ih' =>
    intro here nodes trace hhere hquiet
    have hfirst := Pattern.run_faithful hfaith first here nodes trace
    have htells := ih here nodes trace hhere hquiet
    simp only [run]
    cases hrun : first.run bounds enter here nodes trace with
    | exhausted => trivial
    | failed after =>
      rw [hrun] at htells
      exact htells.mono fun h => h.of_enters fun _ _ => .first
    | matched mid all after =>
      rw [hrun] at hfirst htells
      exact .andThen hfirst htells (Pattern.run_faithful hfaith second mid all after)
        (fun hmid hquiet' => ih' mid all after hmid hquiet') hhere
        (fun h => h.of_enters fun _ _ => .first)
        (fun us hus h => h.of_enters fun _ _ => .second hus)
  | choice first second ih ih' =>
    intro here nodes trace hhere hquiet
    have htells := ih here nodes trace hhere hquiet
    simp only [run]
    cases hrun : first.run bounds enter here nodes trace with
    | exhausted => trivial
    | matched mid all after =>
      rw [hrun] at htells
      exact htells.mono fun h => h.of_enters fun _ _ => .left
    | failed after =>
      rw [hrun] at htells
      refine .of_faithful (Pattern.run_faithful hfaith second here nodes after) fun hspare => ?_
      rcases Nat.lt_or_ge after.furthest (byteLength source) with hquiet' | hloud
      · exact (ih' here nodes after hhere hquiet').mono
          fun h => h.of_enters fun _ _ => .right
      · exact .of_cause ((htells hspare hloud).of_enters fun _ _ => .left)
  | many round ih => exact .rounds (Pattern.run_faithful hfaith round) ih bounds.rounds
  | opt part ih =>
    intro here nodes trace hhere hquiet
    have htells := (ih here nodes trace hhere hquiet).mono fun h =>
      show (Pattern.opt part).Stalls here from h.of_enters fun _ _ => .opt
    simp only [run]
    cases hrun : part.run bounds enter here nodes trace <;> rw [hrun] at htells <;> exact htells
  | not part ih =>
    intro here nodes trace hhere hquiet
    have htells := (ih here nodes trace hhere hquiet).mono fun h =>
      show (Pattern.not part).Stalls here from h.of_enters fun _ _ => .not
    simp only [run]
    cases hrun : part.run bounds enter here nodes trace <;> rw [hrun] at htells <;> exact htells
  | counted part ih =>
    intro here nodes trace hhere hquiet
    simp only [run]
    cases hstep : trace.step? bounds.calls with
    | none => exact Outcome.Tells.of_quiet hquiet
    | some after =>
      rw [← Trace.step?_furthest hstep] at hquiet
      exact (ih here nodes after hhere hquiet).mono
        fun h => h.of_enters fun _ _ => .counted

/-- Entering a rule tells to any depth. -/
theorem Rule.run_tells (bounds : Bounds) (depth : Nat) (r : Rule) :
    Matcher.Tells bounds.calls source r.Stalls (Rule.run bounds depth r) := by
  induction depth generalizing r with
  | zero => exact fun _ _ _ _ _ => trivial
  | succ depth ih =>
    intro here nodes trace hhere hquiet
    simp only [Rule.run]
    cases hstep : trace.step? bounds.calls with
    | none => exact Outcome.Tells.of_quiet hquiet
    | some after =>
      rw [← Trace.step?_furthest hstep] at hquiet
      have htells : Outcome.Tells bounds.calls source (r.Stalls here)
          (r.pattern.run bounds (Rule.run bounds depth) here [] after) := by
        refine (Pattern.run_tells (Rule.run_faithful bounds depth) ih r.pattern here [] after
          hhere hquiet).mono fun h => ?_
        obtain ⟨r', place, henters, hstalls⟩ := h
        exact .inside henters hstalls
      dsimp only
      cases hrun : r.pattern.run bounds (Rule.run bounds depth) here [] after with
      | exhausted => trivial
      | matched stop all last =>
        rw [hrun] at htells
        exact htells
      | failed last =>
        rw [hrun] at htells
        intro hcalls hloud
        rw [Trace.fail_calls] at hcalls
        rcases Trace.fail_furthest r here.offset (after.expectedAt here.offset) last with h | h
        · exact htells hcalls (h ▸ hloud)
        · exact .atEnd (hhere.rest_eq_nil (h ▸ hloud))

/-- A run over a source of some length that fails no earlier than at its end, with steps to spare,
has come to enter a rule there. -/
theorem Rule.stalls_of_runOn {r : Rule} {trace : Trace} (h : r.runOn limit source = .failed trace)
    (hcalls : trace.calls < limit) (hend : byteLength source ≤ trace.furthest) (hne : source ≠ []) :
    r.Stalls (.start source) := by
  have hquiet : Trace.start.furthest < byteLength source :=
    Nat.pos_of_ne_zero fun hzero => hne (byteLength_eq_zero_iff.mp hzero)
  have htells := Rule.run_tells ⟨limit, source.length + 1⟩ (depthBound source.length) r
    (.start source) [] .start (Cursor.In.start source) hquiet
  rw [show Rule.run _ _ r _ _ _ = _ from h] at htells
  exact htells hcalls hend

end Vimscript
