import Vimscript.Proofs.Expr.Extend
import Vimscript.Proofs.Grammar.Stalls

/-!
# Where a source ends too early

A pattern that comes to enter a rule at the end of the source goes on in a longer one: the part
that ended is completed, the parts behind it are written with one blank between any two, and the
parts in front of it derive as they did. `Pattern.Spaced.resumes` says so for patterns with blanks
between their parts, which are most of the grammar.
-/

namespace Vimscript

open Pattern Text

namespace Pattern

/-- In front of anything but a blank a text can be written that the pattern derives, blanks behind
it included. -/
def Writable (p : Pattern) : Prop := ∀ rest, EndsBefore isSpace rest → ∃ v, EndsBefore isSpace v ∧
  ∀ here : Cursor, here.rest = v → ∃ stop ts, Derives p here stop ts ∧ stop.skipSpaces.rest = rest

/-- At a place of a source that goes on with a text of some kind the pattern derives all of the
source and of the text but what is to follow. -/
def Resumes (p : Pattern) (here : Cursor) : Prop := ∀ rest, EndsBefore isSpace rest →
  ∃ t stop ts, Joins here.rest t ∧ Derives p (here.extend t).skipSpaces stop ts ∧
    stop.skipSpaces.rest = rest

/-- Behind a place, from wherever the same comes behind blanks, a pattern derives all of a longer
source but what is to follow. -/
def Continues (p : Pattern) (here : Cursor) : Prop := ∀ rest, EndsBefore isSpace rest →
  ∃ t, Joins here.rest t ∧ ∀ here' : Cursor, here'.skipSpaces = (here.extend t).skipSpaces →
    ∃ stop ts, Derives p here' stop ts ∧ stop.skipSpaces.rest = rest

/-- At a place inside a source, in front of no blank, a rule goes on so. -/
def ResumesInside (r : Rule) (here : Cursor) : Prop :=
  here.rest ≠ [] → here.skipSpaces = here → (Pattern.rule r).Resumes here

/-- A pattern with blanks between its parts. -/
inductive Spaced : Pattern → Prop where
  | empty : Spaced .empty
  | text {chars : List Char} (h : IsRun (fun c => !isSpace c) chars) : Spaced (.text chars)
  | rule {r : Rule} (hr : r ≠ .endOfInput ∧ r ≠ .expression) : Spaced (.rule r)
  | seq {p q : Pattern} (h : Spaced p) (h' : Spaced q) : Spaced (.seq p (.seq .blanks q))
  | choice {p q : Pattern} (h : Spaced p) (h' : Spaced q) : Spaced (.choice p q)
  | opt {p : Pattern} (h : Spaced p) : Spaced (.opt p)
  | rounds {p : Pattern} (h : Spaced p) (hp : p.mayBeEmpty = false) :
    Spaced (.seq p (.counted (.many (.counted (.seq .blanks p)))))
  | counted {p : Pattern} (h : Spaced p) : Spaced (.counted p)

end Pattern

/-- The rules whose patterns have blanks between their parts. -/
def Rule.spacedRules : List Rule :=
  [.expr, .ternaryThen, .logicalOr, .logicalAnd, .comparison, .additive, .multiplicative, .unary,
    .subscript, .methodCall, .callArgs, .callArg, .list, .dict, .dictEntry, .literalDict,
    .literalDictEntry, .lambda, .lambdaParams]

/-- The rules with blanks between their parts are spaced. -/
theorem Rule.pattern_spaced {r : Rule} (hr : r ∈ spacedRules) : r.pattern.Spaced := by
  simp only [spacedRules, List.mem_cons, List.not_mem_nil, or_false] at hr
  rcases hr with rfl | rfl | rfl | rfl | rfl | rfl | rfl | rfl | rfl | rfl | rfl | rfl | rfl | rfl |
    rfl | rfl | rfl | rfl | rfl
  all_goals
    repeat' first
      | exact .empty
      | exact .text ⟨by decide, by decide⟩
      | exact .rule ⟨nofun, nofun⟩
      | refine Pattern.Spaced.rounds ?_ rfl
      | apply Pattern.Spaced.seq
      | apply Pattern.Spaced.choice
      | apply Pattern.Spaced.opt
      | apply Pattern.Spaced.counted

namespace Pattern

variable {p q : Pattern} {here mid place : Cursor} {r : Rule} {us : List (Tree Rule)}

/-- A spaced pattern says all about blanks by itself. -/
theorem Spaced.laid (h : p.Spaced) : p.Laid := by
  induction h with
  | empty => exact .empty
  | text h => exact .text h
  | rule hr => exact .rule hr
  | seq _ _ ih ih' => exact .seq ih (.seq .blanks ih')
  | choice _ _ ih ih' => exact .choice ih ih'
  | opt _ ih => exact .opt ih
  | rounds _ _ ih => exact .seq ih (.counted (.many (.counted (.seq .blanks ih))))
  | counted _ ih => exact .counted ih

/-- It enters rules and reads texts only. -/
theorem Spaced.isPlain (h : p.Spaced) : p.isPlain = true := by
  induction h with
  | empty | text _ | rule _ => rfl
  | seq _ _ ih ih' | choice _ _ ih ih' => simp [Pattern.isPlain, blanks, ih, ih']
  | opt _ ih | rounds _ _ ih | counted _ ih => simp [Pattern.isPlain, blanks, ih]

/-- A text in front of a blank can be written. -/
theorem writable_of_text {u : List Char} (hu : ∃ c v, u = c :: v ∧ isSpace c = false)
    (h : ∀ rest, ∀ here mid : Cursor, here.Moves u mid → mid.rest = ' ' :: rest →
      ∃ stop ts, Derives p here stop ts ∧ stop.skipSpaces = mid.skipSpaces) : p.Writable := by
  intro rest hrest
  obtain ⟨c, v, rfl, hc⟩ := hu
  refine ⟨c :: v ++ ' ' :: rest, endsBefore_cons.mpr hc, fun here hhere => ?_⟩
  obtain ⟨stop, ts, hderives, hskip⟩ := h rest here _ (.of_rest_eq hhere) rfl
  refine ⟨stop, ts, hderives, ?_⟩
  rw [hskip, Cursor.skipSpaces_rest_of_blank rfl hrest]

/-- What derives wherever a pattern does is written and goes on as the pattern does. -/
theorem Writable.imp (h : p.Writable) (himp : ∀ here stop : Cursor, ∀ ts, Derives p here stop ts →
    ∃ us, Derives q here stop us) : q.Writable := by
  intro rest hrest
  obtain ⟨v, hv, hwritten⟩ := h rest hrest
  refine ⟨v, hv, fun here hhere => ?_⟩
  obtain ⟨stop, ts, hderives, hstop⟩ := hwritten here hhere
  obtain ⟨us, hus⟩ := himp here stop ts hderives
  exact ⟨stop, us, hus, hstop⟩

/-- A pattern goes on if one does whose derivations are derivations of it. -/
theorem Resumes.imp (h : p.Resumes here) (himp : ∀ here stop : Cursor, ∀ ts,
    Derives p here stop ts → ∃ us, Derives q here stop us) : q.Resumes here := by
  intro rest hrest
  obtain ⟨t, stop, ts, hjoins, hderives, hstop⟩ := h rest hrest
  obtain ⟨us, hus⟩ := himp _ stop ts hderives
  exact ⟨t, stop, us, hjoins, hus, hstop⟩

/-- Patterns with blanks between their parts are written part by part, with one round of each
repetition and no optional part. -/
theorem Spaced.writable (h : p.Spaced)
    (hrules : ∀ r, r ∈ p.rules → (Pattern.rule r).Writable) : p.Writable := by
  induction h with
  | empty =>
    exact fun rest hrest => ⟨rest, hrest, fun here hhere => ⟨here, [], .empty, by
      rw [Cursor.skipSpaces_of_endsBefore (hhere ▸ hrest), hhere]⟩⟩
  | text h =>
    obtain ⟨c, v, hcons⟩ := List.exists_cons_of_ne_nil h.1
    refine writable_of_text ⟨c, v, hcons, ?_⟩ fun _ _ mid hmove _ => ⟨mid, [], .text hmove, rfl⟩
    simpa using List.all_eq_true.mp h.2 c (hcons ▸ List.mem_cons_self)
  | rule => exact hrules _ (List.mem_singleton_self _)
  | seq _ _ ih ih' =>
    intro rest hrest
    obtain ⟨v, hv, hsecond⟩ := ih' (fun r hr => hrules r (by simp [rules, hr])) rest hrest
    obtain ⟨u, hu, hfirst⟩ := ih (fun r hr => hrules r (by simp [rules, hr])) v hv
    refine ⟨u, hu, fun here hhere => ?_⟩
    obtain ⟨mid, us, hderives, hmid⟩ := hfirst here hhere
    obtain ⟨stop, vs, hderives', hstop⟩ := hsecond mid.skipSpaces hmid
    exact ⟨stop, _, Derives.spaced_iff.mpr ⟨mid, us, vs, hderives, hderives', rfl⟩, hstop⟩
  | choice _ _ ih =>
    exact (ih fun r hr => hrules r (by simp [rules, hr])).imp fun _ _ ts h => ⟨ts, .left h⟩
  | opt =>
    exact fun rest hrest => ⟨rest, hrest, fun here hhere => ⟨here, [], .absent, by
      rw [Cursor.skipSpaces_of_endsBefore (hhere ▸ hrest), hhere]⟩⟩
  | rounds _ _ ih =>
    exact (ih fun r hr => hrules r (by simp [rules, hr])).imp fun _ _ _ h =>
      ⟨_, .seq h (.counted (.done nofun))⟩
  | counted _ ih => exact (ih hrules).imp fun _ _ ts h => ⟨ts, .counted h⟩

/-- At the end of the source a pattern is written behind a blank. -/
theorem Writable.resumes (h : p.Writable) (hend : here.rest = []) : p.Resumes here := by
  intro rest hrest
  obtain ⟨v, hv, hderives⟩ := h rest hrest
  have hplace : (here.extend (' ' :: v)).rest = ' ' :: v := by
    rw [Cursor.extend_rest, hend]
    rfl
  obtain ⟨stop, ts, hderives, hstop⟩ := hderives _ (Cursor.skipSpaces_rest_of_blank hplace hv)
  exact ⟨' ' :: v, stop, ts, .inl (seam_cons_of_isSpace rfl), hderives, hstop⟩

/-- What a pattern enters behind blanks is entered where they have been skipped. -/
theorem Enters.of_afterBlanks (h : (Pattern.seq .blanks q).Enters here r place) :
    q.Enters here.skipSpaces r place := by
  cases h with
  | first h => exact (List.not_mem_nil h.mem_rules).elim
  | second h h' =>
    obtain ⟨rfl, -⟩ := Prod.mk.inj (Option.some.inj (h.unique (.blanks here)))
    exact h'

/-- A part goes on behind blanks. -/
theorem Resumes.continues (h : q.Resumes here.skipSpaces) :
    (Pattern.seq .blanks q).Continues here := by
  intro rest hrest
  obtain ⟨t, stop, ts, hjoins, hderives, hstop⟩ := h rest hrest
  refine ⟨t, ?_, fun here' hskip => ⟨stop, ts, ?_, hstop⟩⟩
  · rw [here.moves_skipSpaces.rest_eq]
    exact hjoins.append _
  · rw [Cursor.skipSpaces_extend_skipSpaces, ← hskip] at hderives
    exact Derives.afterBlanks_iff.mpr hderives

/-- A part that goes on behind one that matched. -/
theorem Continues.behind (h : q.Continues mid) (hfirst : Derives p here mid us) (hp : p.Laid)
    (hhere : here.skipSpaces = here) (hne : here.rest ≠ []) : (Pattern.seq p q).Resumes here := by
  intro rest hrest
  obtain ⟨t, hjoins, hsecond⟩ := h rest hrest
  obtain ⟨mid', us', hfirst', hskip, -⟩ := hfirst.extend hp hjoins
  obtain ⟨stop, vs, hderives, hstop⟩ := hsecond mid' hskip
  obtain ⟨u, hu⟩ := hfirst.moves
  refine ⟨t, stop, us' ++ vs, ?_, ?_, hstop⟩
  · rw [hu.rest_eq]
    exact hjoins.append u
  · rw [Cursor.skipSpaces_extend hhere hne]
    exact .seq hfirst' hderives

/-- Further rounds go on behind rounds that matched. -/
theorem Enters.continues_many (hspaced : p.Spaced) (hempty : p.mayBeEmpty = false)
    (h : (Pattern.many (.counted (.seq .blanks p))).Enters here r place)
    (hround : ∀ here : Cursor, p.Enters here.skipSpaces r place → p.Resumes here.skipSpaces) :
    (Pattern.many (.counted (.seq .blanks p))).Continues here := by
  generalize hmany : Pattern.many (.counted (.seq .blanks p)) = q at h
  induction h with
  | @round here place r q h =>
    cases hmany
    cases h with
    | counted h =>
      intro rest hrest
      obtain ⟨t, hjoins, hderives⟩ := (hround here h.of_afterBlanks).continues rest hrest
      refine ⟨t, hjoins, fun here' hskip => ?_⟩
      obtain ⟨stop, ts, hderives, hstop⟩ := hderives here' hskip
      exact ⟨stop, ts ++ [], .again (.counted hderives) (.done nofun), hstop⟩
  | @again here mid place r q us h _ ih =>
    cases hmany
    have hfirst := Derives.afterBlanks_iff.mp (Derives.counted_iff.mp
      (h.derives_of_plain (by simpa [Pattern.isPlain, blanks] using hspaced.isPlain) _ rfl))
    have hne : here.skipSpaces.rest ≠ [] := fun hnil => by
      have hlt := hfirst.length_lt hempty
      rw [hnil] at hlt
      exact Nat.not_lt_zero _ hlt
    -- A round and the rounds behind it go on as two parts do.
    have hrounds := ((ih hround rfl).behind hfirst hspaced.laid here.skipSpaces_skipSpaces
      hne).continues
    intro rest hrest
    obtain ⟨t, hjoins, hderives⟩ := hrounds rest hrest
    refine ⟨t, hjoins, fun here' hskip => ?_⟩
    obtain ⟨stop, ts, hderives, hstop⟩ := hderives here' hskip
    obtain ⟨next, vs, ws, hround, hmore, rfl⟩ := Derives.seq_iff.mp
      (Derives.afterBlanks_iff.mp hderives)
    exact ⟨stop, vs ++ ws, .again (.counted (Derives.afterBlanks_iff.mpr hround)) hmore, hstop⟩
  | _ => cases hmany

/-- Where a pattern with blanks between its parts comes to enter a rule that goes on, it goes on. The
parts behind that rule are written. -/
theorem Spaced.resumes (hp : p.Spaced) (hrules : ∀ r, r ∈ p.rules → (Pattern.rule r).Writable)
    (hplace : ResumesInside r place)
    (hhere : here.skipSpaces = here) (h : p.Enters here r place) : p.Resumes here := by
  induction hp generalizing here with
  | empty | text => exact (List.not_mem_nil h.mem_rules).elim
  | rule =>
    cases h
    by_cases hend : place.rest = []
    · exact (hrules _ (List.mem_singleton_self _)).resumes hend
    · exact hplace hend hhere
  | @seq p q hp hq ih ih' =>
    have hp' : ∀ r, r ∈ p.rules → (Pattern.rule r).Writable := fun r hr =>
      hrules r (by simp [rules, hr])
    have hq' : ∀ r, r ∈ q.rules → (Pattern.rule r).Writable := fun r hr =>
      hrules r (by simp [rules, hr])
    by_cases hend : here.rest = []
    · exact ((hp.seq hq).writable hrules).resumes hend
    cases h with
    | first h =>
      intro rest hrest
      obtain ⟨v, hv, hsecond⟩ := hq.writable hq' rest hrest
      obtain ⟨t, mid, us, hjoins, hfirst, hmid⟩ := ih hp' hhere h v hv
      obtain ⟨stop, vs, hderives, hstop⟩ := hsecond mid.skipSpaces hmid
      exact ⟨t, stop, us ++ vs, hjoins,
        Derives.spaced_iff.mpr ⟨mid, us, vs, hfirst, hderives, rfl⟩, hstop⟩
    | @second _ mid _ _ _ _ us hfirst h =>
      have hfirst := hfirst.derives_of_plain hp.isPlain _ rfl
      exact (ih' hq' mid.skipSpaces_skipSpaces h.of_afterBlanks).continues.behind hfirst hp.laid
        hhere hend
  | choice hp hq ih ih' =>
    cases h with
    | left h =>
      exact (ih (fun r hr => hrules r (by simp [rules, hr])) hhere h).imp
        fun _ _ ts h => ⟨ts, .left h⟩
    | right h =>
      exact (ih' (fun r hr => hrules r (by simp [rules, hr])) hhere h).imp
        fun _ _ ts h => ⟨ts, .right h⟩
  | opt hp ih =>
    cases h with
    | opt h => exact (ih hrules hhere h).imp fun _ _ ts h => ⟨ts, .present h⟩
  | @rounds p hp hempty ih =>
    have hp' : ∀ r, r ∈ p.rules → (Pattern.rule r).Writable := fun r hr =>
      hrules r (by simp [rules, hr])
    by_cases hend : here.rest = []
    · exact ((hp.rounds hempty).writable hrules).resumes hend
    cases h with
    | first h =>
      exact (ih hp' hhere h).imp fun _ _ _ h => ⟨_, .seq h (.counted (.done nofun))⟩
    | second hfirst h =>
      cases h with
      | counted h =>
        have hfirst := hfirst.derives_of_plain hp.isPlain _ rfl
        have hmore := h.continues_many hp hempty
          fun here h => ih hp' here.skipSpaces_skipSpaces h
        exact (hmore.behind hfirst hp.laid hhere hend).imp fun _ _ ts h => by
          obtain ⟨mid, us, vs, hfirst, hmore, rfl⟩ := Derives.seq_iff.mp h
          exact ⟨_, .seq hfirst (.counted hmore)⟩
  | counted hp ih =>
    cases h with
    | counted h => exact (ih hrules hhere h).imp fun _ _ ts h => ⟨ts, .counted h⟩

end Pattern

end Vimscript
