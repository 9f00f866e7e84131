import Mathlib.Data.List.Basic
import Vimscript.Proofs.Grammar.Larger
import Vimscript.Proofs.Reading

/-!
# Limits only refuse

A source that is read, or refused for another cause than a limit, has the same result under all
larger limits: the same expression with the same spans, or the same refusal at the same place. The
three guards are taken one by one. The count of delimiters is compared with its bound only; a cut
in the middle of matching is never taken for a mismatch; and the builder spends its budget on
nothing but refusals.
-/

namespace Vimscript

namespace Nesting

/-- Levels that a bound allows are allowed by larger bounds. -/
theorem firstExcess?_eq_none_of_le {bound bound' : Nat} (hle : bound ≤ bound') {level offset : Nat}
    {source : List Char} (h : firstExcess? bound level offset source = none) :
    firstExcess? bound' level offset source = none := by
  induction source generalizing level offset with
  | nil => rfl
  | cons c rest ih =>
    rw [firstExcess?] at h ⊢
    split at h
    · cases h
    · rename_i hfit
      rw [if_neg fun hover => hfit ⟨hover.1, by omega⟩]
      exact ih h

/-- So a source that passes the check passes it with a larger bound. -/
theorem check_of_le {bound bound' : Nat} (hle : bound ≤ bound') {source : List Char}
    (h : check bound source = .ok ()) : check bound' source = .ok () := by
  unfold check at h ⊢
  split at h
  · cases h
  · rename_i hnone
    rw [firstExcess?_eq_none_of_le hle hnone]

end Nesting

namespace Tree

variable {limits limits' : Limits} {source : List Char}

/-- A mismatch found with steps to spare is the same under a larger budget. -/
theorem mismatch_of_le {calls calls' length : Nat} {trace : Trace} (hle : calls ≤ calls')
    (h : trace.calls < calls) : mismatch calls length trace = mismatch calls' length trace := by
  rw [mismatch, mismatch, if_neg (Nat.not_le.mpr h),
    if_neg (Nat.not_le.mpr (Nat.lt_of_lt_of_le h hle))]

/-- A source that no limit refuses has the same parse tree, or the same error, under larger
limits. -/
theorem ofSource_of_le (hparse : limits.parseDepth ≤ limits'.parseDepth)
    (hcalls : limits.effectiveCalls ≤ limits'.effectiveCalls)
    (hlimit : ∀ error, ofSource limits source = .error error → error.isLimit = false) :
    ofSource limits' source = ofSource limits source := by
  rcases Nesting.check_cases limits.parseDepth source with hcheck | ⟨error, hcheck, hrefused⟩
  · rw [ofSource_eq_ofOutcome hcheck] at hlimit ⊢
    rw [ofSource_eq_ofOutcome (Nesting.check_of_le hparse hcheck)]
    cases hrun : Rule.expression.runOn limits.effectiveCalls source with
    | exhausted =>
      rw [hrun] at hlimit
      cases hlimit _ rfl
    | matched stop nodes trace =>
      rw [Rule.runOn_of_le hrun hcalls (.inr ⟨_, _, _, rfl⟩)]
      cases nodes <;> rfl
    | failed trace =>
      rw [hrun] at hlimit
      have hspare : trace.calls < limits.effectiveCalls := by
        refine Nat.lt_of_not_le fun hcut => ?_
        have hfalse := hlimit _ rfl
        rw [mismatch, if_pos hcut] at hfalse
        cases hfalse
      rw [Rule.runOn_of_le hrun hcalls (.inl (Outcome.spares_failed.mpr hspare)), ofOutcome,
        ofOutcome, mismatch_of_le hcalls hspare]
  · rw [hlimit error (ofSource_of_check_eq_error hcheck)] at hrefused
    cases hrefused

end Tree

namespace Expr

variable {Mark : Type}

mutual

/-- Marks that are mapped to themselves stay. -/
theorem map_id (e : Expr Mark) : e.map id = e := by
  cases e with
  | list _ items => simp only [map, mapItems_id items, id]
  | dict _ entries => simp only [map, mapEntries_id entries, id]
  | unary _ _ operand => simp only [map, map_id operand, id]
  | binary _ _ left right | falsy _ left right | index _ left right =>
    simp only [map, map_id left, map_id right, id]
  | ternary _ condition ifTrue ifFalse =>
    simp only [map, map_id condition, map_id ifTrue, map_id ifFalse, id]
  | call _ _ _ args => simp only [map, mapItems_id args, id]
  | lambda _ _ body => simp only [map, map_id body, id]
  | lambdaCall _ callee args | funcrefCall _ callee args =>
    simp only [map, map_id callee, mapItems_id args, id]
  | slice _ base lower upper =>
    simp only [map, map_id base, mapBound_id lower, mapBound_id upper, id]
  | _ => rfl

theorem mapItems_id (items : List (Expr Mark)) : mapItems id items = items := by
  cases items with
  | nil => rfl
  | cons item rest => rw [mapItems, map_id item, mapItems_id rest]

theorem mapEntries_id (entries : List (Expr Mark × Expr Mark)) : mapEntries id entries = entries := by
  match entries with
  | [] => rfl
  | (key, value) :: rest => rw [mapEntries, map_id key, map_id value, mapEntries_id rest]

theorem mapBound_id (bound : Option (Expr Mark)) : mapBound id bound = bound := by
  cases bound with
  | none => rfl
  | some e => rw [mapBound, map_id e]

end

end Expr

/-- One tree is compared with itself under a smaller and a larger budget, with its spans. -/
def Likeness.ofSpans : Likeness Span := ⟨id, id, fun h h' => by rw [id, id] at *; rw [h, h'], True⟩

/-- Refusals that agree with all spans in sight are the same. -/
theorem Likeness.ofSpans_errors {error error' : Error} (h : Likeness.ofSpans.Errors error error') :
    error' = error := by
  cases error <;> cases error' <;> first | exact h.elim | skip
  · obtain ⟨rfl, rfl⟩ := h
    rfl
  · obtain ⟨rfl, rfl⟩ := h
    rfl
  · obtain ⟨rfl, rfl, rfl⟩ := h
    rfl
  · obtain ⟨rfl, rfl⟩ := h
    rfl

/-- A tree that no budget refuses is built alike under a larger budget. -/
theorem Tree.toExpr_of_le {tree : Tree Tag} {budget budget' : Nat} (hle : budget ≤ budget')
    (hlimit : ∀ error, tree.toExpr budget = .error error → error.isLimit = false) :
    tree.toExpr budget' = tree.toExpr budget := by
  have agree : Likeness.ofSpans.Results Likeness.ofSpans.Exprs (tree.toExpr budget)
      (tree.toExpr budget') :=
    .charge (.inr ⟨trivial, hle⟩) rfl fun _ _ hb => Likeness.exprWithin (.refl rfl tree) hb
  cases h : tree.toExpr budget with
  | ok e =>
    rw [h] at agree
    cases h' : tree.toExpr budget' with
    | error error' =>
      rw [h'] at agree
      exact agree.elim
    | ok e' =>
      rw [h'] at agree
      have same : e.map id = e'.map id := agree
      rw [Expr.map_id, Expr.map_id] at same
      rw [same]
  | error error =>
    have hcause := hlimit error h
    have hno : ∀ span, error ≠ .nestingDepth span none := by
      rintro span rfl
      cases hcause
    rw [h] at agree
    cases h' : tree.toExpr budget' with
    | ok e' =>
      rw [h'] at agree
      obtain ⟨-, span, rfl⟩ := agree
      exact (hno span rfl).elim
    | error error' =>
      rw [h'] at agree
      rcases agree with hsame | ⟨-, span, rfl⟩
      · rw [Likeness.ofSpans_errors hsame]
      · exact (hno span rfl).elim

/-- A source that no limit refuses is read alike under larger limits: as the same expression with
the same spans, or not for the same cause at the same place. -/
theorem parseWithin_of_le {limits limits' : Limits} {source : List Char}
    (hparse : limits.parseDepth ≤ limits'.parseDepth) (hexpr : limits.exprDepth ≤ limits'.exprDepth)
    (hcalls : limits.effectiveCalls ≤ limits'.effectiveCalls)
    (hlimit : ∀ error, parseWithin limits source = .error error → error.isLimit = false) :
    parseWithin limits' source = parseWithin limits source := by
  have hsource : Tree.ofSource limits' source = Tree.ofSource limits source := by
    refine Tree.ofSource_of_le hparse hcalls fun error herror => hlimit error ?_
    simp only [parseWithin, parseTree, herror, Except.map, bind, Except.bind]
  simp only [parseWithin, parseTree, hsource] at hlimit ⊢
  cases hroot : Tree.ofSource limits source with
  | error error => rfl
  | ok root =>
    rw [hroot] at hlimit
    exact Tree.toExpr_of_le hexpr hlimit

/-- A blob is refused under the default limits as it is under small ones. -/
theorem parseWithin_of_le_blob : parseWithin Limits.default "0z1F".toList =
    .error (.unsupported ⟨0, 4⟩ .blob) := by
  have hrefused : (parseWithin ⟨0, 1, 300⟩ "0z1F".toList).map (fun _ => ()) =
      .error (.unsupported ⟨0, 4⟩ .blob) := by
    decide +kernel
  have hsmall : parseWithin ⟨0, 1, 300⟩ "0z1F".toList = .error (.unsupported ⟨0, 4⟩ .blob) := by
    cases h : parseWithin ⟨0, 1, 300⟩ "0z1F".toList with
    | error error =>
      rw [h] at hrefused
      exact congrArg Except.error (Except.error.inj hrefused)
    | ok e =>
      rw [h] at hrefused
      cases hrefused
  rw [← hsmall]
  refine parseWithin_of_le (by decide) (by decide) (by decide) fun error herror => ?_
  rw [hsmall] at herror
  cases herror
  rfl

end Vimscript
