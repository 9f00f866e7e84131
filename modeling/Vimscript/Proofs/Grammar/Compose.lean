import Vimscript.Proofs.Grammar.Chain

/-!
# Longer derivations from shorter ones

A chain of operands is a chain again with a link and an operand in front of it or behind it, and
so are prefix operators in front of an operand and attachments behind a primary. Together with the
lemmas for brackets these build the derivation of a text along the expression that it denotes.
-/

namespace Vimscript

open Pattern Text

namespace Derives

variable {here mid next stop : Cursor} {p q : Pattern} {r operand : Rule} {link : Pattern}
  {ts us vs cs : List (Tree Rule)} {t : Tree Rule}

/-- A repetition may take one round more, unless it runs through a class of characters. -/
theorem many_snoc (hp : ∀ accepts, p ≠ .counted (.char accepts))
    (h : Derives (.many p) here mid ts) (h' : Derives p mid stop us) :
    Derives (.many p) here stop (ts ++ us) := by
  generalize hq : Pattern.many p = q at h
  induction h with
  | done =>
    cases hq
    have := again h' (.done fun accepts hc => (hp accepts hc).elim)
    rwa [List.append_nil] at this
  | again hround _ _ ih =>
    cases hq
    rw [List.append_assoc]
    exact .again hround (ih h' rfl)
  | _ => cases hq

/-- Behind the rounds so far another one goes on. -/
theorem spacedStar_snoc (h : Derives (.spacedStar p) here mid ts) (hhere : here.skipSpaces = here)
    (h' : Derives p mid.skipSpaces stop us) : Derives (.spacedStar p) here stop (ts ++ us) := by
  rcases spacedStar_iff.mp h with ⟨rfl, rfl⟩ | ⟨next, vs, ws, hfirst, hmore, rfl⟩
  · rw [hhere] at h'
    refine spacedStar_iff.mpr (.inr ⟨stop, us, [], h', .done ?_, (List.append_nil us).symm⟩)
    rintro accepts ⟨⟩
  · refine spacedStar_iff.mpr (.inr ⟨next, vs, ws ++ us, hfirst, ?_, by rw [List.append_assoc]⟩)
    refine many_snoc ?_ hmore (.counted (afterBlanks_iff.mpr h'))
    rintro accepts ⟨⟩

/-- In front of the rounds so far another one may stand. -/
theorem spacedStar_cons (h : Derives p here mid us)
    (h' : Derives (.spacedStar p) mid.skipSpaces stop ts) :
    ∃ last, Derives (.spacedStar p) here last (us ++ ts) ∧ last.skipSpaces = stop.skipSpaces := by
  rcases spacedStar_iff.mp h' with ⟨rfl, rfl⟩ | ⟨next, vs, ws, hfirst, hmore, rfl⟩
  · refine ⟨mid, spacedStar_iff.mpr (.inr ⟨mid, us, [], h, .done ?_, rfl⟩), ?_⟩
    · rintro accepts ⟨⟩
    · rw [Cursor.skipSpaces_skipSpaces]
  · refine ⟨stop, spacedStar_iff.mpr (.inr ⟨mid, us, _, h, ?_, rfl⟩), rfl⟩
    exact .again (.counted (afterBlanks_iff.mpr hfirst)) hmore

/-- One operand is a chain, and the blanks behind it belong to it. -/
theorem chained_single (h : Derives (.rule operand) here stop ts) :
    Derives (chained operand link) here stop.skipSpaces ts :=
  .counted (spaced_iff.mpr ⟨stop, ts, [], call_iff.mpr h, spacedStar_iff.mpr (.inl ⟨rfl, rfl⟩),
    (List.append_nil ts).symm⟩)

/-- A chain may take one link and operand more. -/
theorem chained_snoc (h : Derives (chained operand link) here mid ts)
    (hlink : Derives link mid.skipSpaces next us)
    (hoperand : Derives (.rule operand) next.skipSpaces stop vs) :
    Derives (chained operand link) here stop (ts ++ (us ++ vs)) := by
  obtain ⟨first, ws, xs, hfirst, hrounds, rfl⟩ := spaced_iff.mp (counted_iff.mp h)
  have hround : Derives (spaced [link, call operand]) mid.skipSpaces stop (us ++ vs) :=
    .counted (spaced_iff.mpr ⟨next, us, vs, hlink, call_iff.mpr hoperand, rfl⟩)
  refine .counted (spaced_iff.mpr ⟨first, ws, xs ++ (us ++ vs), hfirst, ?_, ?_⟩)
  · exact spacedStar_snoc hrounds first.skipSpaces_skipSpaces hround
  · rw [List.append_assoc]

/-- An operand and a link in front of a chain make a longer one, which ends where the chain does but
for blanks. -/
theorem chained_cons (hfirst : Derives (.rule operand) here mid ts)
    (hlink : Derives link mid.skipSpaces next us)
    (h : Derives (chained operand link) next.skipSpaces stop cs) :
    ∃ last, Derives (chained operand link) here last (ts ++ (us ++ cs)) ∧
      last.skipSpaces = stop.skipSpaces := by
  obtain ⟨second, ws, xs, hsecond, hrounds, rfl⟩ := spaced_iff.mp (counted_iff.mp h)
  have hround : Derives (spaced [link, call operand]) mid.skipSpaces second (us ++ ws) :=
    .counted (spaced_iff.mpr ⟨next, us, ws, hlink, hsecond, rfl⟩)
  obtain ⟨last, hlast, hskip⟩ := spacedStar_cons hround hrounds
  refine ⟨last, .counted (spaced_iff.mpr ⟨mid, ts, _, call_iff.mpr hfirst, hlast, ?_⟩), hskip⟩
  rw [List.append_assoc]

/-- A prefix operator in front of an operand makes one. -/
theorem unary_cons (hop : Derives (.rule .unaryOp) here mid us)
    (h : Derives Rule.unary.pattern mid.skipSpaces stop ts) :
    Derives Rule.unary.pattern here stop (us ++ ts) := by
  obtain ⟨next, vs, ws, hops, hpostfixed, rfl⟩ := spaced_iff.mp (counted_iff.mp h)
  obtain ⟨last, hlast, hskip⟩ := spacedStar_cons (call_iff.mpr hop) hops
  rw [← hskip] at hpostfixed
  exact .counted (spaced_iff.mpr ⟨last, _, ws, hlast, hpostfixed, (List.append_assoc ..).symm⟩)

/-- The rules that attach to a primary. -/
def attachments : List Rule := [.subscript, .methodCall, .callArgs]

/-- One thing more attached, unless it makes a call of what would be called by name. -/
theorem postfixed_snoc {x : Tree Rule} (h : Derives (.rule .postfixed) here mid [t])
    (hr : r ∈ attachments) (hx : Derives (.rule r) mid stop [x])
    (hcall : ∀ first, t.children = [first] → r = .callArgs → first.takesCall = false) :
    Derives (.rule .postfixed) here stop
      [Rule.postfixed.node here stop (t.children ++ [x])] := by
  obtain ⟨children, hpattern, hsettled, hnode⟩ := (rule_iff rfl).mp h
  obtain rfl := List.singleton_inj.mp hnode
  obtain ⟨next, us, vs, hfirst, hattached, rfl⟩ := seq_iff.mp (counted_iff.mp hpattern)
  obtain ⟨first, rfl⟩ := (call_iff.mp hfirst).eq_singleton
  have hround : Derives (firstOf [call .subscript, call .methodCall, call .callArgs]) mid stop [x] := by
    simp only [firstOf, choice_iff, call_iff]
    simp only [attachments, List.mem_cons, List.not_mem_nil, or_false] at hr
    rcases hr with rfl | rfl | rfl <;> simp only [hx, true_or, or_true]
  have hmore := many_snoc (fun accepts h => by cases h) (counted_iff.mp hattached) hround
  refine (rule_iff rfl).mpr ⟨_, ?_, ?_, rfl⟩
  · rw [Rule.node_children, List.append_assoc]
    exact .counted (seq_iff.mpr ⟨next, _, _, hfirst, .counted hmore, rfl⟩)
  · rw [Rule.node_children]
    cases vs with
    | nil =>
      intro hcalls hlabel
      have hrule : r = .callArgs := hx.span_eq.2.symm.trans hlabel
      rw [hcall first rfl hrule] at hcalls
      cases hcalls
    | cons second more => exact hsettled

end Derives

end Vimscript
