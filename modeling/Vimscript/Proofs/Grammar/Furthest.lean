import Vimscript.Proofs.Offsets

/-!
# Where matching fails

Whatever matching tries, and wherever it goes back to, it stands at a place of the source. So the
furthest place at which a rule failed is a boundary of the source: `Pattern.run_stays` says what one
pattern keeps, `Rule.run_stays` what entering rules does, and `Rule.furthest_boundary` what follows
for whole runs.
-/

namespace Vimscript

open Text

/-- A place in a source. -/
def Cursor.In (source : List Char) (here : Cursor) : Prop :=
  ∃ u, (Cursor.start source).Moves u here

namespace Cursor.In

variable {source u : List Char} {here stop : Cursor}

/-- A source begins in itself. -/
theorem start (source : List Char) : (Cursor.start source).In source := ⟨[], .refl _⟩

/-- A move stays in the source. -/
theorem move (h : here.In source) (hmove : here.Moves u stop) : stop.In source := by
  obtain ⟨v, hv⟩ := h
  exact ⟨v ++ u, hv.trans hmove⟩

/-- What is moved over lies between the offsets. -/
theorem between (h : here.In source) (hmove : here.Moves u stop) :
    Between source here.offset stop.offset u := by
  obtain ⟨v, hv⟩ := h
  have hwhole := (hv.trans hmove).rest_eq
  have hoffset : here.offset = byteLength v := by
    have := hv.offset_eq
    rw [Cursor.start] at this
    simpa using this
  refine ⟨v, stop.rest, ?_, hoffset, ?_⟩
  · rw [← List.append_assoc]
    exact hwhole
  · rw [hmove.offset_eq, hoffset]

/-- The offset of a place in a source lies between two characters. -/
theorem boundary (h : here.In source) : Boundary source here.offset :=
  (h.between (.refl here)).boundary.1

/-- The place at which nothing is left. -/
theorem offset_eq (h : here.In source) (hend : here.rest = []) :
    here.offset = byteLength source := by
  obtain ⟨u, hu⟩ := h
  have hwhole : source = u ++ here.rest := hu.rest_eq
  rw [hu.offset_eq, hwhole, hend, List.append_nil]
  exact Nat.zero_add _

end Cursor.In

/-- An outcome that stands at a place of a source and knows of no failure elsewhere. -/
def Outcome.In (source : List Char) : Outcome → Prop
  | .matched stop _ trace => stop.In source ∧ Boundary source trace.furthest
  | .failed trace => Boundary source trace.furthest
  | .exhausted => True

/-- A way of matching that stays in a source. -/
def Matcher.Stays (source : List Char) (step : Matcher) : Prop :=
  ∀ here nodes trace, here.In source → Boundary source trace.furthest →
    (step here nodes trace).In source

section

variable {source : List Char}

/-- A leaf that stops in the source stays in it. -/
theorem Outcome.moveTo_in {stop : Option Cursor} {nodes : List (Tree Rule)} {trace : Trace}
    (hstop : ∀ place, stop = some place → place.In source)
    (htrace : Boundary source trace.furthest) : (Matcher.moveTo stop nodes trace).In source := by
  cases stop with
  | none => exact htrace
  | some place => exact ⟨hstop place rfl, htrace⟩

/-- Counting a call leaves the furthest failure where it is. -/
theorem Trace.step?_furthest {limit : Nat} {trace after : Trace}
    (h : trace.step? limit = some after) : after.furthest = trace.furthest := by
  unfold step? at h
  split at h
  · cases h
    rfl
  · cases h

/-- A failure is the furthest one or leaves that where it is. -/
theorem Trace.fail_furthest (r : Rule) (offset before : Nat) (trace : Trace) :
    (trace.fail r offset before).furthest = trace.furthest ∨
      (trace.fail r offset before).furthest = offset := by
  unfold fail
  split
  · exact .inl rfl
  · split
    · exact .inl rfl
    · split
      · exact .inl rfl
      · exact .inr rfl

/-- A repetition stays in the source if its rounds do. -/
theorem Matcher.Stays.rounds {step : Matcher} (h : Matcher.Stays source step) (count : Nat) :
    Matcher.Stays source (Matcher.rounds step count) := by
  induction count with
  | zero => exact fun _ _ _ _ _ => trivial
  | succ count ih =>
    intro here nodes trace hhere htrace
    have hround := h here nodes trace hhere htrace
    simp only [Matcher.rounds]
    cases hstep : step here nodes trace with
    | exhausted => trivial
    | failed after =>
      rw [hstep] at hround
      exact ⟨hhere, hround⟩
    | matched mid all after =>
      rw [hstep] at hround
      exact ih mid all after hround.1 hround.2

/-- Where entering rules stays in a source, matching a pattern does. -/
theorem Pattern.run_stays (bounds : Bounds) {enter : Rule → Matcher}
    (henter : ∀ r, Matcher.Stays source (enter r)) (p : Pattern) :
    Matcher.Stays source (p.run bounds enter) := by
  induction p with
  | empty => exact fun _ _ _ hhere htrace => ⟨hhere, htrace⟩
  | text =>
    exact fun _ _ _ hhere htrace => Outcome.moveTo_in
      (fun _ h => hhere.move (Cursor.skipText?_eq_some_iff.mp h)) htrace
  | anyCase =>
    refine fun _ _ _ hhere htrace => Outcome.moveTo_in (fun _ h => ?_) htrace
    obtain ⟨_, -, hmove⟩ := Cursor.skipAnyCase?_eq_some_iff.mp h
    exact hhere.move hmove
  | char =>
    refine fun _ _ _ hhere htrace => Outcome.moveTo_in (fun _ h => ?_) htrace
    obtain ⟨_, -, hmove⟩ := Cursor.skipChar?_eq_some_iff.mp h
    exact hhere.move hmove
  | finish =>
    intro here nodes trace hhere htrace
    simp only [run]
    split
    · exact ⟨hhere, htrace⟩
    · exact htrace
  | rule r => exact henter r
  | seq first second ih ih' =>
    intro here nodes trace hhere htrace
    have hfirst := ih here nodes trace hhere htrace
    simp only [run]
    cases hrun : first.run bounds enter here nodes trace with
    | exhausted => trivial
    | failed after =>
      rw [hrun] at hfirst
      exact hfirst
    | matched mid all after =>
      rw [hrun] at hfirst
      exact ih' mid all after hfirst.1 hfirst.2
  | choice first second ih ih' =>
    intro here nodes trace hhere htrace
    have hfirst := ih here nodes trace hhere htrace
    simp only [run]
    cases hrun : first.run bounds enter here nodes trace with
    | exhausted => trivial
    | failed after =>
      rw [hrun] at hfirst
      exact ih' here nodes after hhere hfirst
    | matched mid all after =>
      rw [hrun] at hfirst
      exact hfirst
  | many round ih => exact Matcher.Stays.rounds ih bounds.rounds
  | opt part ih | not part ih =>
    intro here nodes trace hhere htrace
    have hpart := ih here nodes trace hhere htrace
    simp only [run]
    cases hrun : part.run bounds enter here nodes trace with
    | exhausted => trivial
    | failed after =>
      rw [hrun] at hpart
      exact ⟨hhere, hpart⟩
    | matched mid all after =>
      rw [hrun] at hpart
      first | exact hpart | exact hpart.2
  | counted part ih =>
    intro here nodes trace hhere htrace
    simp only [run]
    cases hstep : trace.step? bounds.calls with
    | none => exact htrace
    | some after =>
      exact ih here nodes after hhere (by rw [Trace.step?_furthest hstep]; exact htrace)

/-- Entering a rule stays in the source to any depth. -/
theorem Rule.run_stays (bounds : Bounds) (depth : Nat) (r : Rule) :
    Matcher.Stays source (Rule.run bounds depth r) := by
  induction depth generalizing r with
  | zero => exact fun _ _ _ _ _ => trivial
  | succ depth ih =>
    intro here nodes trace hhere htrace
    simp only [Rule.run]
    cases hstep : trace.step? bounds.calls with
    | none => exact htrace
    | some after =>
      have hinside := Pattern.run_stays bounds ih r.pattern here [] after hhere
        (by rw [Trace.step?_furthest hstep]; exact htrace)
      dsimp only
      cases hrun : r.pattern.run bounds (Rule.run bounds depth) here [] after with
      | exhausted => trivial
      | matched stop all last =>
        rw [hrun] at hinside
        exact hinside
      | failed last =>
        rw [hrun] at hinside
        rcases Trace.fail_furthest r here.offset (after.expectedAt here.offset) last with h | h
        · exact (congrArg (Boundary source) h).mpr hinside
        · exact (congrArg (Boundary source) h).mpr hhere.boundary

/-- The furthest failure of a run over a source lies at a boundary of it. -/
theorem Rule.furthest_boundary {r : Rule} {calls : Nat} {trace : Trace}
    (h : r.runOn calls source = .failed trace) : Boundary source trace.furthest := by
  have := Rule.run_stays ⟨calls, source.length + 1⟩ (depthBound source.length) r
    (Cursor.start source) [] Trace.start (Cursor.In.start source) (boundary_zero source)
  unfold runOn at h
  rw [h] at this
  exact this

end

end Vimscript
