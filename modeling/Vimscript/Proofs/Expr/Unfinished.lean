import Vimscript.Proofs.Expr.Written
import Vimscript.Proofs.Grammar.Attach

/-!
# Sources that end too early

A rule that comes to enter another at the end of the source goes on with some text. Rules with blanks
between their parts do as their patterns do; the others are those whose parts stand right behind one
another: references, whose name may be what is missing, and what has attachments or arguments. So a
source at whose end a rule was entered is the beginning of one that is accepted.
-/

namespace Vimscript

open Pattern Text

variable {here mid place : Cursor} {p q : Pattern} {r r' : Rule} {us : List (Tree Rule)}

namespace Pattern

/-- A call enters its rule where it stands. -/
theorem Enters.call_iff : (call r).Enters here r' place ↔ r' = r ∧ place = here := by
  constructor
  · intro h
    rw [call] at h
    split at h
    · cases h with
      | counted h => cases h; exact ⟨rfl, rfl⟩
    · cases h
      exact ⟨rfl, rfl⟩
  · rintro ⟨rfl, rfl⟩
    rw [call]
    split
    · exact .counted .rule
    · exact .rule

/-- An optional part is entered where it would stand. -/
theorem Enters.optional_iff : (optional p).Enters here r place ↔ p.Enters here r place := by
  constructor
  · intro h
    cases h with
    | counted h =>
      cases h with
      | opt h => exact h
  · exact fun h => .counted (.opt h)

/-- A choice is entered where one of its sides is. -/
theorem Enters.choice_iff : (Pattern.choice p q).Enters here r place ↔
    p.Enters here r place ∨ q.Enters here r place := by
  constructor
  · intro h
    cases h with
    | left h => exact .inl h
    | right h => exact .inr h
  · rintro (h | h)
    · exact .left h
    · exact .right h

/-- A pattern enters rules only behind the text that it begins with. -/
theorem Enters.moves_text {chars : List Char}
    (h : (Pattern.counted (.seq (.text chars) q)).Enters here r place) :
    ∃ mid, here.Moves chars mid ∧ q.Enters mid r place := by
  cases h with
  | counted h =>
    cases h with
    | first h => exact (List.not_mem_nil h.mem_rules).elim
    | second h h' => exact ⟨_, (Derives.text_iff.mp (h.derives_of_plain rfl _ rfl)).1, h'⟩

/-- At a place where no blank is skipped a pattern derives all of a longer source but what is to
follow. -/
def Rejoins (p : Pattern) (here : Cursor) : Prop := ∀ rest, EndsBefore isSpace rest →
  ∃ t stop ts, Joins here.rest t ∧ Derives p (here.extend t) stop ts ∧ stop.skipSpaces.rest = rest

/-- Where no blank is skipped, to go on behind blanks is to go on right there. -/
theorem rejoins_iff (hhere : here.skipSpaces = here) (hne : here.rest ≠ []) :
    p.Rejoins here ↔ p.Resumes here := by
  simp only [Rejoins, Resumes, Cursor.skipSpaces_extend hhere hne]

/-- A pattern goes on if one does whose derivations are derivations of it. -/
theorem Rejoins.imp (h : p.Rejoins here) (himp : ∀ here stop : Cursor, ∀ ts,
    Derives p here stop ts → ∃ us, Derives q here stop us) : q.Rejoins here := by
  intro rest hrest
  obtain ⟨t, stop, ts, hjoins, hderives, hstop⟩ := h rest hrest
  obtain ⟨us, hus⟩ := himp _ stop ts hderives
  exact ⟨t, stop, us, hjoins, hus, hstop⟩

/-- What derives up to the end of the source is followed by a blank. -/
theorem Rejoins.of_end (h : Derives p here mid us) (hp : p.Laid) (htight : p.endsTight = true)
    (hmid : mid.rest = []) : p.Rejoins here := by
  intro rest hrest
  have hjoins : Joins mid.rest (' ' :: rest) := .inl (seam_cons_of_isSpace rfl)
  obtain ⟨mid', us', hderives, -, hend⟩ := h.extend hp hjoins
  obtain rfl := hend htight
  obtain ⟨u, hu⟩ := h.moves
  refine ⟨' ' :: rest, mid.extend (' ' :: rest), us', ?_, hderives, ?_⟩
  · rw [hu.rest_eq]
    exact hjoins.append u
  · refine Cursor.skipSpaces_rest_of_blank ?_ hrest
    rw [Cursor.extend_rest, hmid]
    rfl

/-- What is written as something in front of which an expression can end is written at the end of
the source without a blank. -/
theorem Writable.rejoins (h : p.Writable) (hend : here.rest = [])
    (hseam : ∀ here stop ts, Derives p here stop ts → Seam here.rest) : p.Rejoins here := by
  intro rest hrest
  obtain ⟨v, -, hwritten⟩ := h rest hrest
  have hplace : (here.extend v).rest = v := by rw [Cursor.extend_rest, hend, List.nil_append]
  obtain ⟨stop, ts, hderives, hstop⟩ := hwritten _ hplace
  exact ⟨v, stop, ts, .inl (hplace ▸ hseam _ _ _ hderives), hderives, hstop⟩

/-- What goes on right behind something that matched. -/
theorem Rejoins.behind (hq : q.Rejoins mid) (h : Derives p here mid us) (hp : p.Laid)
    (htight : p.endsTight = true) : (Pattern.seq p q).Rejoins here := by
  intro rest hrest
  obtain ⟨t, stop, vs, hjoins, hderives, hstop⟩ := hq rest hrest
  obtain ⟨mid', us', hfirst, -, hend⟩ := h.extend hp hjoins
  obtain rfl := hend htight
  obtain ⟨u, hu⟩ := h.moves
  refine ⟨t, stop, us' ++ vs, ?_, .seq hfirst hderives, hstop⟩
  rw [hu.rest_eq]
  exact hjoins.append u

/-- Behind the opening of a reference at the end of the source anything can be written. -/
theorem rejoins_of_reference {u : List Char} (hu : here.Moves u mid) (hmid : mid.rest = [])
    (href : ∃ c ∈ u, beginsReference c = true)
    (h : ∀ rest, EndsBefore isSpace rest → ∃ v, ∀ first next : Cursor, first.Moves u next →
      next.rest = v → ∃ stop ts, Derives p first stop ts ∧ stop.skipSpaces.rest = rest) :
    p.Rejoins here := by
  intro rest hrest
  have hsource : here.rest = u := by rw [hu.rest_eq, hmid, List.append_nil]
  obtain ⟨v, hv⟩ := h rest hrest
  obtain ⟨stop, ts, hderives, hstop⟩ := hv _ _ (hu.extend v) (by
    rw [Cursor.extend_rest, hmid, List.nil_append])
  exact ⟨v, stop, ts, .inr (hsource ▸ href), hderives, hstop⟩

/-- A reference whose name is missing goes on with a name. -/
theorem rejoins_of_name {u : List Char} (hu : here.Moves u mid) (hmid : mid.rest = [])
    (href : ∃ c ∈ u, beginsReference c = true)
    (h : ∀ first next stop : Cursor, ∀ rest, first.Moves u next → next.Moves ['z'] stop →
      stop.rest = ' ' :: rest → ∃ ts, Derives p first stop ts) : p.Rejoins here :=
  rejoins_of_reference hu hmid href fun rest hrest =>
    ⟨['z'] ++ ' ' :: rest, fun first next hmove hnext => by
      obtain ⟨ts, hderives⟩ := h first next _ rest hmove (.of_rest_eq hnext) rfl
      exact ⟨_, ts, hderives, Cursor.skipSpaces_rest_of_blank rfl hrest⟩⟩

end Pattern

namespace Rule

/-- A name that stalls behind its sign can be written to its end. -/
theorem envVariable_rejoins (h : envVariable.pattern.Enters here r place) (hstalls : r.Stalls place) :
    (Pattern.rule envVariable).Rejoins here := by
  obtain ⟨mid, hsign, h⟩ := h.moves_text
  obtain ⟨rfl, rfl⟩ := Enters.call_iff.mp h
  refine rejoins_of_name hsign (hstalls.rest_eq_nil rfl) ⟨'$', by decide, by decide⟩
    fun first next stop rest hsign hname hstop => ?_
  have hlexeme : envName.Lexeme ['z'] stop.rest := by
    rw [hstop]
    exact ⟨⟨by decide, by decide⟩, endsBefore_cons.mpr (by decide)⟩
  exact ⟨_, .rule rfl (.counted (.seq (.text hsign) (.token rfl hname hlexeme))) trivial⟩

/-- Between the sign of an option and its name stands its scope or nothing. -/
theorem option_rejoins (h : option.pattern.Enters here r place) (hstalls : r.Stalls place) :
    (Pattern.rule option).Rejoins here := by
  obtain ⟨mid, hsign, h⟩ := h.moves_text
  have hlexeme (rest : List Char) : optionName.Lexeme ['z'] (' ' :: rest) :=
    ⟨⟨'z', [], rfl, by decide, rfl⟩, endsBefore_cons.mpr (by decide)⟩
  have bare (hmid : mid.rest = []) : (Pattern.rule option).Rejoins here :=
    rejoins_of_name hsign hmid ⟨'&', by decide, by decide⟩
      fun first next stop rest hsign hname hstop => by
        refine ⟨_, .rule rfl (.counted (.seq (.text hsign) (.seq (.counted .absent)
          (.token rfl hname (hstop ▸ hlexeme rest))))) ?_⟩
        intro hscope
        rw [hname.node_text] at hscope
        rcases hscope with hscope | hscope <;> cases hscope
  cases h with
  | first h =>
    obtain ⟨rfl, rfl⟩ := Enters.call_iff.mp (Enters.optional_iff.mp h)
    exact bare (hstalls.rest_eq_nil rfl)
  | @second _ next _ _ _ _ us hscope h =>
    obtain ⟨rfl, rfl⟩ := Enters.call_iff.mp h
    have hend := hstalls.rest_eq_nil rfl
    rcases Derives.opt_iff.mp (Derives.counted_iff.mp (hscope.derives_of_plain rfl _ rfl)) with
      ⟨hsame, -⟩ | hscope
    · exact bare (hsame ▸ hend)
    · obtain ⟨v, hv, hscope, -⟩ := (Derives.token_iff rfl).mp (Derives.call_iff.mp hscope)
      refine rejoins_of_name (hsign.trans hv) hend ⟨'&', by simp, by decide⟩
        fun first next stop rest hmove hname hstop => ?_
      obtain ⟨middle, hsign, hv⟩ := Cursor.Moves.append_iff.mp hmove
      exact ⟨_, .rule rfl (.counted (.seq (.text hsign) (.seq (.counted (.present
        (.token rfl hv hscope))) (.token rfl hname (hstop ▸ hlexeme rest))))) trivial⟩

/-- Only behind its scope can a variable lack its name. -/
theorem variableRef_rejoins (h : variableRef.pattern.Enters here r place) (hstalls : r.Stalls place)
    (hne : here.rest ≠ []) : (Pattern.rule variableRef).Rejoins here := by
  cases h with
  | left h =>
    cases h with
    | counted h =>
      cases h with
      | first h =>
        obtain ⟨rfl, rfl⟩ := Enters.call_iff.mp h
        exact (hne (hstalls.rest_eq_nil rfl)).elim
      | second hscope h =>
        obtain ⟨rfl, rfl⟩ := Enters.call_iff.mp h
        obtain ⟨u, hu, ⟨c, rfl, hc⟩, -⟩ := (Derives.token_iff rfl).mp
          (hscope.derives_of_plain rfl _ rfl)
        refine rejoins_of_name hu (hstalls.rest_eq_nil rfl)
          ⟨c, List.mem_cons_self, beginsReference_of_isScopeLetter hc⟩
          fun first next stop rest hscope hname hstop => ?_
        have hlexeme : scopedName.Lexeme ['z'] stop.rest := by
          rw [hstop]
          exact ⟨⟨by decide, by decide⟩, endsBefore_cons.mpr (by decide)⟩
        exact ⟨_, .rule rfl (.left (.counted (.seq (.token rfl hscope ⟨c, rfl, hc⟩)
          (.token rfl hname hlexeme)))) trivial⟩
  | right h =>
    obtain ⟨rfl, rfl⟩ := Enters.call_iff.mp h
    exact (hne (hstalls.rest_eq_nil rfl)).elim

/-- What attaches to a primary begins with no blank. -/
theorem Stalls.skipSpaces_of_attachment (h : r.Stalls here) (hr : r ∈ Derives.attachments) :
    here.skipSpaces = here := by
  cases h with
  | atEnd h => exact Cursor.skipSpaces_of_nil h
  | inside h =>
    refine Cursor.skipSpaces_of_endsBefore ?_
    simp only [Derives.attachments, List.mem_cons, List.not_mem_nil, or_false] at hr
    rcases hr with rfl | rfl | rfl
    all_goals
      obtain ⟨mid, hmove, -⟩ := h.moves_text
      rw [hmove.rest_eq]
      exact endsBefore_cons.mpr (by decide)

/-- Arguments go on right behind what they are of. -/
theorem callArgs_rejoins (hstalls : callArgs.Stalls place)
    (ih : ResumesInside callArgs place) :
    (Pattern.rule callArgs).Rejoins place := by
  by_cases hend : place.rest = []
  · refine (writable_of_laterParts (by decide)).rejoins hend fun here stop ts h => ?_
    obtain ⟨c, w, hopen, hc⟩ := h.starts_cons rfl
    rw [hopen.rest_eq, eq_of_beq hc]
    exact seam_cons (by decide)
  · have hplace := hstalls.skipSpaces_of_attachment (by decide)
    exact (rejoins_iff hplace hend).mpr (ih hend hplace)

/-- Behind a scope at the end the name and the arguments are missing, behind a name the
arguments. -/
theorem functionCall_rejoins (h : functionCall.pattern.Enters here r place)
    (hstalls : r.Stalls place) (hne : here.rest ≠ [])
    (ih : ResumesInside r place) :
    (Pattern.rule functionCall).Rejoins here := by
  suffices parts : (Pattern.seq (optional (call scope)) (.seq (call functionName)
      (call callArgs))).Rejoins here from
    parts.imp fun _ _ _ h => ⟨_, .rule rfl (.counted h) trivial⟩
  cases h with
  | counted h =>
    cases h with
    | first h =>
      obtain ⟨rfl, rfl⟩ := Enters.call_iff.mp (Enters.optional_iff.mp h)
      exact (hne (hstalls.rest_eq_nil rfl)).elim
    | @second _ mid _ _ _ _ us hscope h =>
      have hscope := hscope.derives_of_plain rfl _ rfl
      cases h with
      | first h =>
        obtain ⟨rfl, rfl⟩ := Enters.call_iff.mp h
        have hend := hstalls.rest_eq_nil rfl
        rcases Derives.opt_iff.mp (Derives.counted_iff.mp hscope) with ⟨rfl, -⟩ | hscope
        · exact (hne hend).elim
        · obtain ⟨u, hu, ⟨c, rfl, hc⟩, -⟩ := (Derives.token_iff rfl).mp (Derives.call_iff.mp hscope)
          refine rejoins_of_reference hu hend
            ⟨c, List.mem_cons_self, beginsReference_of_isScopeLetter hc⟩ fun rest hrest => ?_
          obtain ⟨v, -, hwritten⟩ := writable_named (writable_of_laterParts (by decide)) rest hrest
          refine ⟨v, fun first next hscope hnext => ?_⟩
          obtain ⟨stop, ts, hderives, hstop⟩ := hwritten next hnext
          exact ⟨stop, _, .seq (.counted (.present (.token rfl hscope ⟨c, rfl, hc⟩))) hderives,
            hstop⟩
      | second hname h =>
        obtain ⟨rfl, rfl⟩ := Enters.call_iff.mp h
        have hname := hname.derives_of_plain rfl _ rfl
        have hlaid : (Pattern.seq (optional (call scope)) (call functionName)).Laid :=
          .seq (.counted (.opt (.rule ⟨nofun, nofun⟩))) (.rule ⟨nofun, nofun⟩)
        refine ((callArgs_rejoins hstalls ih).behind (.seq hscope hname) hlaid rfl).imp
          fun _ _ _ h => ?_
        obtain ⟨_, _, _, hfront, hargs, -⟩ := Derives.seq_iff.mp h
        obtain ⟨_, _, _, hscope, hname, -⟩ := Derives.seq_iff.mp hfront
        exact ⟨_, .seq hscope (.seq hname (Derives.call_iff.mpr hargs))⟩

/-- A called lambda goes on in the lambda or in its arguments. -/
theorem lambdaExpr_resumes (h : lambdaExpr.pattern.Enters here r place) (hstalls : r.Stalls place)
    (hne : here.rest ≠ []) (hhere : here.skipSpaces = here)
    (ih : ResumesInside r place) :
    (Pattern.rule lambdaExpr).Resumes here := by
  cases h with
  | counted h =>
    cases h with
    | first h =>
      obtain ⟨rfl, rfl⟩ := Enters.call_iff.mp h
      exact (ih hne hhere).imp fun _ _ _ h =>
        ⟨_, .rule rfl (.counted (.seq (Derives.call_iff.mpr h) (.counted .absent))) trivial⟩
    | second hlambda h =>
      have hlambda := Derives.call_iff.mp (hlambda.derives_of_plain rfl _ rfl)
      obtain ⟨rfl, rfl⟩ := Enters.call_iff.mp (Enters.optional_iff.mp h)
      have hcall := (callArgs_rejoins hstalls ih).behind hlambda (.rule ⟨nofun, nofun⟩) rfl
      refine ((rejoins_iff hhere hne).mp hcall).imp fun _ _ _ h => ?_
      obtain ⟨_, _, _, hlambda, hargs, -⟩ := Derives.seq_iff.mp h
      exact ⟨_, .rule rfl (.counted (.seq (Derives.call_iff.mpr hlambda) (.counted (.present
        (Derives.call_iff.mpr hargs))))) trivial⟩

/-- The attachments in front of one that is entered belong to a primary with attachments. -/
theorem attached_of_enters {t : Tree Rule} (h : Derives (.rule postfixed) here mid [t])
    (henters : (Pattern.many (firstOf [call subscript, call methodCall, call callArgs])).Enters mid r
      place) : r ∈ Derives.attachments ∧ ∃ t', Derives (.rule postfixed) here place [t'] := by
  generalize hmany : Pattern.many (firstOf [call subscript, call methodCall, call callArgs]) = p
    at henters
  induction henters generalizing t with
  | round henters =>
    cases hmany
    cases henters with
    | left henters =>
      obtain ⟨rfl, rfl⟩ := Enters.call_iff.mp henters
      exact ⟨by decide, t, h⟩
    | right henters =>
      cases henters with
      | left henters | right henters =>
        obtain ⟨rfl, rfl⟩ := Enters.call_iff.mp henters
        exact ⟨by decide, t, h⟩
  | again hround _ ih =>
    cases hmany
    have hround := hround.derives_of_plain rfl _ rfl
    obtain ⟨r', hr', hround⟩ : ∃ r' ∈ Derives.attachments, Derives (.rule r') _ _ _ := by
      simp only [firstOf, Derives.choice_iff, Derives.call_iff] at hround
      rcases hround with hround | hround | hround
      · exact ⟨_, by decide, hround⟩
      · exact ⟨_, by decide, hround⟩
      · exact ⟨_, by decide, hround⟩
    obtain ⟨x, rfl⟩ := hround.eq_singleton
    obtain ⟨t', ht'⟩ := h.postfixed_attach hr' hround
    exact ih ht' rfl
  | _ => cases hmany

/-- A postfix node goes on in its primary or in what is attached to it. -/
theorem postfixed_resumes (h : postfixed.pattern.Enters here r place) (hstalls : r.Stalls place)
    (hne : here.rest ≠ []) (hhere : here.skipSpaces = here)
    (ih : ResumesInside r place) :
    (Pattern.rule postfixed).Resumes here := by
  have alone {here stop : Cursor} {ts : List (Tree Rule)} (h : Derives (.rule primary) here stop ts) :
      ∃ t, Derives (.rule postfixed) here stop [t] := by
    obtain ⟨t, rfl⟩ := h.eq_singleton
    exact ⟨_, .rule rfl (.counted (.seq (Derives.call_iff.mpr h) (.counted (.done nofun)))) trivial⟩
  cases h with
  | counted h =>
    cases h with
    | first h =>
      obtain ⟨rfl, rfl⟩ := Enters.call_iff.mp h
      refine (ih hne hhere).imp fun _ _ _ h => ?_
      obtain ⟨t, ht⟩ := alone h
      exact ⟨_, ht⟩
    | second hprimary h =>
      obtain ⟨t, ht⟩ := alone (Derives.call_iff.mp (hprimary.derives_of_plain rfl _ rfl))
      cases h with
      | counted h =>
        obtain ⟨hr, t', ht'⟩ := attached_of_enters ht h
        have hlaid : (Pattern.rule postfixed).Laid := .rule ⟨nofun, nofun⟩
        by_cases hend : place.rest = []
        · exact (rejoins_iff hhere hne).mp (.of_end ht' hlaid rfl hend)
        · have hplace := hstalls.skipSpaces_of_attachment hr
          have hattached := ((rejoins_iff hplace hend).mpr (ih hend hplace)).behind ht' hlaid rfl
          refine ((rejoins_iff hhere hne).mp hattached).imp fun _ _ _ h => ?_
          obtain ⟨_, _, _, hfirst, hlast, -⟩ := Derives.seq_iff.mp h
          obtain ⟨x, rfl⟩ := hfirst.eq_singleton
          obtain ⟨y, rfl⟩ := hlast.eq_singleton
          obtain ⟨z, hz⟩ := hfirst.postfixed_attach hr hlast
          exact ⟨_, hz⟩

/-- A primary enters one of the rules for primaries, or an expression behind a parenthesis. -/
theorem enters_primary (h : primary.pattern.Enters here r place) :
    (r ∈ Derives.primaryRules ∧ place = here) ∨
      (spaced [.token "(", call expr, .token ")"]).Enters here r place := by
  simp only [Rule.pattern, firstOf, Enters.choice_iff, Enters.call_iff] at h
  rcases h with ⟨rfl, rfl⟩ | ⟨rfl, rfl⟩ | ⟨rfl, rfl⟩ | ⟨rfl, rfl⟩ | ⟨rfl, rfl⟩ | ⟨rfl, rfl⟩ |
    ⟨rfl, rfl⟩ | ⟨rfl, rfl⟩ | h | ⟨rfl, rfl⟩ | ⟨rfl, rfl⟩ | ⟨rfl, rfl⟩ | ⟨rfl, rfl⟩ | ⟨rfl, rfl⟩
  case inr.inr.inr.inr.inr.inr.inr.inr.inl => exact .inr h
  all_goals exact .inl ⟨by decide, rfl⟩

/-- A primary goes on as the rule that it enters, or to the parenthesis that closes it. -/
theorem primary_resumes (h : primary.pattern.Enters here r place) (hstalls : r.Stalls place)
    (hne : here.rest ≠ []) (hhere : here.skipSpaces = here)
    (ih : ResumesInside r place) :
    (Pattern.rule primary).Resumes here := by
  rcases enters_primary h with ⟨hr, rfl⟩ | h
  · refine (ih hne hhere).imp fun here stop ts hinner => ?_
    obtain ⟨t, rfl⟩ := hinner.eq_singleton
    refine ⟨_, .rule rfl (Derives.primary_iff.mpr (.inl ⟨r, hr, hinner⟩))
      (ReadsAs.settled_primary ?_)⟩
    rw [hinner.span_eq.2]
    rintro rfl
    exact hne (hstalls.rest_eq_nil rfl)
  · have hspaced : (spaced [.token "(", call expr, .token ")"]).Spaced :=
      .counted (.seq (.text ⟨by decide, by decide⟩) (.seq (.rule ⟨nofun, nofun⟩)
        (.text ⟨by decide, by decide⟩)))
    have hrules : ∀ r, r ∈ (spaced [.token "(", call expr, .token ")"]).rules →
        (Pattern.rule r).Writable := fun r hr => by
      obtain rfl := List.mem_singleton.mp (show r ∈ [expr] from hr)
      exact writable_ofLevel 0 (by decide)
    refine (hspaced.resumes hrules ih hhere h).imp fun here stop ts hinner => ?_
    obtain ⟨t, rfl, hlabel⟩ := hinner.paren_cases
    exact ⟨_, .rule rfl (Derives.primary_iff.mpr (.inr hinner))
      (ReadsAs.settled_primary (by rw [hlabel]; decide))⟩

/-- A rule in front of something other than a blank that comes to enter a rule at the end of the
source goes on. -/
theorem Stalls.resumes (h : r.Stalls here) (hr : r ≠ expression) : ResumesInside r here := by
  intro hne hhere
  induction h with
  | atEnd h => exact (hne h).elim
  | @inside r r' here place henters hstalls ih =>
    have hmem := henters.mem_rules
    have hparts : ∀ r ∈ Rule.all, expression ∉ r.pattern.rules := by decide
    have ih : ResumesInside r' place := ih fun hr' => hparts r (mem_all r) (hr' ▸ hmem)
    cases htoken : r.isToken with
    | true =>
      rw [rules_of_isToken htoken] at hmem
      cases hmem
    | false =>
      by_cases hspaced : r ∈ spacedRules
      · exact ((pattern_spaced hspaced).resumes (fun r' => writable_of_mem_rules hspaced) ih hhere
          henters).imp fun _ _ _ h =>
            ⟨_, .rule htoken h ((spacedRules_spec hspaced).2 _ _)⟩
      · have hothers : ∀ r ∈ Rule.all, r.isToken = false → r ∉ spacedRules → r ≠ expression →
            r ∈ [postfixed, primary, lambdaExpr, option, envVariable, functionCall, variableRef] := by
          decide
        have hother := hothers r (mem_all r) htoken hspaced hr
        simp only [List.mem_cons, List.not_mem_nil, or_false] at hother
        rcases hother with rfl | rfl | rfl | rfl | rfl | rfl | rfl
        · exact postfixed_resumes henters hstalls hne hhere ih
        · exact primary_resumes henters hstalls hne hhere ih
        · exact lambdaExpr_resumes henters hstalls hne hhere ih
        · exact (rejoins_iff hhere hne).mp (option_rejoins henters hstalls)
        · exact (rejoins_iff hhere hne).mp (envVariable_rejoins henters hstalls)
        · exact (rejoins_iff hhere hne).mp (functionCall_rejoins henters hstalls hne ih)
        · exact (rejoins_iff hhere hne).mp (variableRef_rejoins henters hstalls hne)

/-- A source at whose end a rule was entered is the beginning of one that derives as a whole. -/
theorem Stalls.exists_extension {source : List Char} (h : expression.Stalls (.start source)) :
    ∃ t stop root, Derives (.rule .expression) (.start (source ++ t)) stop [root] := by
  have whole (h : (Pattern.rule expr).Resumes (Cursor.start source).skipSpaces) :
      ∃ t stop root, Derives (.rule .expression) (.start (source ++ t)) stop [root] := by
    obtain ⟨t, stop, ts, -, hderives, hstop⟩ := h [] (endsBefore_nil _)
    obtain ⟨x, rfl⟩ := hderives.eq_singleton
    rw [Cursor.skipSpaces_extend_skipSpaces, Cursor.start_extend] at hderives
    exact ⟨t, _, _, Derives.expression_iff.mpr ⟨stop, x, hderives, rfl, hstop, rfl⟩⟩
  by_cases hend : (Cursor.start source).skipSpaces.rest = []
  · exact whole ((writable_ofLevel 0 (by decide)).resumes hend)
  cases h with
  | atEnd h =>
    rw [Cursor.skipSpaces_of_nil h] at hend
    exact (hend h).elim
  | inside henters hstalls =>
    cases henters with
    | counted henters =>
      cases henters with
      | first henters => exact (List.not_mem_nil henters.mem_rules).elim
      | second hempty henters =>
        obtain ⟨rfl, -⟩ := Derives.empty_iff.mp (hempty.derives_of_plain rfl _ rfl)
        cases henters.of_afterBlanks with
        | first henters =>
          obtain ⟨rfl, rfl⟩ := Enters.call_iff.mp henters
          exact whole (hstalls.resumes nofun hend (Cursor.skipSpaces_skipSpaces _))
        | second hexpr henters =>
          -- The whole source is an expression, so nothing is missing.
          obtain ⟨rfl, rfl⟩ := Enters.call_iff.mp henters.of_afterBlanks
          have hexpr := Derives.call_iff.mp (hexpr.derives_of_plain rfl _ rfl)
          obtain ⟨x, rfl⟩ := hexpr.eq_singleton
          have hwhole := Derives.expression_iff.mpr
            ⟨_, x, hexpr, rfl, hstalls.rest_eq_nil rfl, rfl⟩
          exact ⟨[], _, _, (List.append_nil source).symm ▸ hwhole⟩

end Rule

/-- Where a source is refused as incomplete a rule was entered at its end. -/
theorem Tree.stalls_of_ofSource {limits : Limits} {source : List Char}
    (h : ofSource limits source = .error .incomplete) : Rule.expression.Stalls (.start source) := by
  by_cases hne : source = []
  · exact .atEnd hne
  rcases Nesting.check_cases limits.parseDepth source with hcheck | ⟨error, hcheck, hlimit⟩
  · rw [ofSource_eq_ofOutcome hcheck] at h
    cases hrun : Rule.expression.runOn limits.effectiveCalls source with
    | exhausted =>
      rw [hrun] at h
      cases h
    | matched stop nodes trace =>
      rw [hrun] at h
      cases nodes <;> cases h
    | failed trace =>
      rw [hrun, ofOutcome, mismatch] at h
      split at h
      · cases h
      · split at h
        · exact Rule.stalls_of_runOn hrun (Nat.lt_of_not_le ‹_›) ‹_› hne
        · cases h
  · rw [ofSource_of_check_eq_error hcheck] at h
    cases h
    cases hlimit

/-- A source that is refused as incomplete is the beginning of one that is accepted under all limits
that are large enough for it. -/
theorem parseTree_incomplete {limits : Limits} {source : List Char}
    (h : parseTree limits source = .error .incomplete) : ∃ t tree bound, ∀ limits' : Limits,
      bound ≤ limits'.parseDepth → bound ≤ limits'.effectiveCalls →
        parseTree limits' (source ++ t) = .ok tree := by
  have h : Tree.ofSource limits source = .error .incomplete := by
    unfold parseTree at h
    cases hsource : Tree.ofSource limits source with
    | ok root =>
      rw [hsource] at h
      cases h
    | error error =>
      rw [hsource] at h
      cases h
      rfl
  obtain ⟨t, stop, root, hderives⟩ := (Tree.stalls_of_ofSource h).exists_extension
  obtain ⟨bound, hbound⟩ := Tree.ofSource_eventually
    (Rule.complete .expression _ stop root hderives trivial)
  refine ⟨t, root.map Rule.tag, bound, fun limits' hdepth hcalls => ?_⟩
  rw [parseTree, hbound limits' hdepth hcalls]
  rfl

/-- A call, a branch and a scope are open at the end. -/
theorem parseTree_incomplete_scope :
    parseTree Limits.default "f(x ? s:".toList = .error .incomplete ∧
      ∃ t tree bound, ∀ limits' : Limits, bound ≤ limits'.parseDepth →
        bound ≤ limits'.effectiveCalls → parseTree limits' ("f(x ? s:".toList ++ t) = .ok tree := by
  have hrefused : (parseTree Limits.default "f(x ? s:".toList).map Tree.label =
      .error .incomplete := by
    decide +kernel
  have hsource : parseTree Limits.default "f(x ? s:".toList = .error .incomplete := by
    cases htree : parseTree Limits.default "f(x ? s:".toList with
    | ok tree =>
      rw [htree] at hrefused
      cases hrefused
    | error error =>
      rw [htree] at hrefused
      cases hrefused
      rfl
  exact ⟨hsource, parseTree_incomplete hsource⟩

end Vimscript
