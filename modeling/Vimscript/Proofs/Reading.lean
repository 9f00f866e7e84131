import Vimscript.Parse
import Vimscript.Proofs.Expr.Agreement
import Vimscript.Proofs.Grammar.Budget

/-!
# What a source denotes

Limits only refuse. A source denotes the shape of an expression when, under every choice of limits,
it is read as an expression of that shape or refused by a limit, and all limits from some bound on
let it pass. A source that is read once denotes what it was read as.
-/

namespace Vimscript

/-- Whether a limit is the cause of a refusal. -/
def Error.isLimit : Error → Bool
  | nestingDepth _ _ | callLimit _ => true
  | _ => false

/-- Where something is known of what a computation gives, it gives something. -/
theorem exists_of_map_eq_ok {α β : Type} {x : Except Error α} {f : α → β} {b : β}
    (h : x.map f = .ok b) : ∃ a, x = .ok a ∧ f a = b := by
  cases x with
  | ok a => exact ⟨a, rfl, Except.ok.inj h⟩
  | error error => cases h

namespace Expr

variable {Mark : Type}

section

variable {Other : Type} (f : Mark → Other)

mutual

/-- The s-expression shows no mark. -/
theorem sexpr_map (e : Expr Mark) : (e.map f).sexpr = e.sexpr := by
  cases e with
  | list _ items => simp only [map, sexpr, sexprItems_map items]
  | dict _ entries => simp only [map, sexpr, sexprEntries_map entries]
  | unary _ _ operand => simp only [map, sexpr, sexpr_map operand]
  | binary _ _ left right | falsy _ left right | index _ left right =>
    simp only [map, sexpr, sexpr_map left, sexpr_map right]
  | ternary _ condition ifTrue ifFalse =>
    simp only [map, sexpr, sexpr_map condition, sexpr_map ifTrue, sexpr_map ifFalse]
  | call _ _ _ args => simp only [map, sexpr, sexprItems_map args]
  | lambda _ _ body => simp only [map, sexpr, sexpr_map body]
  | lambdaCall _ callee args | funcrefCall _ callee args =>
    simp only [map, sexpr, sexpr_map callee, sexprItems_map args]
  | slice _ base lower upper =>
    simp only [map, sexpr, sexpr_map base, sexprBound_map lower, sexprBound_map upper]
  | _ => rfl

theorem sexprItems_map (items : List (Expr Mark)) :
    sexprItems (mapItems f items) = sexprItems items := by
  cases items with
  | nil => rfl
  | cons item rest => simp only [mapItems, sexprItems, sexpr_map item, sexprItems_map rest]

theorem sexprEntries_map (entries : List (Expr Mark × Expr Mark)) :
    sexprEntries (mapEntries f entries) = sexprEntries entries := by
  match entries with
  | [] => rfl
  | (key, value) :: rest =>
    simp only [mapEntries, sexprEntries, sexpr_map key, sexpr_map value, sexprEntries_map rest]

theorem sexprBound_map (bound : Option (Expr Mark)) :
    sexprBound (mapBound f bound) = sexprBound bound := by
  cases bound with
  | none => rfl
  | some e => simp only [mapBound, sexprBound, sexpr_map e]

end

end

/-- It can be read off the expression without marks. -/
theorem sexpr_erase (e : Expr Mark) : e.erase.sexpr = e.sexpr := sexpr_map _ e

end Expr

/-- A source is read as an expression of a shape wherever no limit is reached. -/
structure Denotes (source : List Char) (shape : Expr Unit) : Prop where
  /-- Under no limits is it read in another way or refused for another cause. -/
  unlessLimit : ∀ limits : Limits,
    (∃ e, parseWithin limits source = .ok e ∧ e.erase = shape) ∨
      ∃ error, parseWithin limits source = .error error ∧ error.isLimit = true
  /-- Large limits let it pass. -/
  eventually : ∃ bound, ∀ limits : Limits, bound ≤ limits.parseDepth →
    bound ≤ limits.exprDepth → bound ≤ limits.effectiveCalls →
      ∃ e, parseWithin limits source = .ok e ∧ e.erase = shape

namespace Nesting

/-- A source opens at most one level a character. -/
theorem firstExcess?_eq_none {bound level offset : Nat} {source : List Char}
    (h : level + source.length ≤ bound) : firstExcess? bound level offset source = none := by
  induction source generalizing level offset with
  | nil => rfl
  | cons c rest ih =>
    rw [List.length_cons] at h
    have hlevel : levelAfter level c ≤ level + 1 := by
      unfold levelAfter
      split
      · exact Nat.le_refl _
      · split <;> omega
    rw [firstExcess?, if_neg (by omega)]
    exact ih (by omega)

/-- A source with no more characters than levels that are allowed passes the check. -/
theorem check_eq_ok {bound : Nat} {source : List Char} (h : source.length ≤ bound) :
    check bound source = .ok () := by
  rw [check, firstExcess?_eq_none (by omega)]

/-- The check refuses with a limit only. -/
theorem check_cases (bound : Nat) (source : List Char) :
    check bound source = .ok () ∨
      ∃ error, check bound source = .error error ∧ error.isLimit = true := by
  unfold check
  split
  · exact .inr ⟨_, rfl, rfl⟩
  · exact .inl rfl

end Nesting

namespace Tree

variable {limits : Limits} {source : List Char} {stop : Cursor} {root : Tree Rule}

/-- The result of matching where the delimiters pass. -/
def ofOutcome (calls length : Nat) : Outcome → Except Error (Tree Rule)
  | .matched _ (root :: _) _ => .ok root
  | .matched _ [] _ => .error (.unsupported ⟨0, 0⟩ .shape)
  | .failed trace => .error (mismatch calls length trace)
  | .exhausted => .error (.callLimit ⟨0, length⟩)

/-- A source that passes the check is matched. -/
theorem ofSource_eq_ofOutcome (h : Nesting.check limits.parseDepth source = .ok ()) :
    ofSource limits source = ofOutcome limits.effectiveCalls (Text.byteLength source)
      (Rule.expression.runOn limits.effectiveCalls source) := by
  unfold ofSource
  rw [h]
  rfl

/-- A source that does not is refused as the check says. -/
theorem ofSource_of_check_eq_error {error : Error}
    (h : Nesting.check limits.parseDepth source = .error error) :
    ofSource limits source = .error error := by
  unfold ofSource
  rw [h]
  rfl

/-- A source has a parse tree if it passes the check and matching gives that tree. -/
theorem ofSource_eq_ok_iff : ofSource limits source = .ok root ↔
    Nesting.check limits.parseDepth source = .ok () ∧ ∃ stop more trace,
      Rule.expression.runOn limits.effectiveCalls source = .matched stop (root :: more) trace := by
  cases hcheck : Nesting.check limits.parseDepth source with
  | error error =>
    rw [ofSource_of_check_eq_error hcheck]
    exact ⟨fun h => (by cases h), fun h => (by cases h.1)⟩
  | ok =>
    rw [ofSource_eq_ofOutcome hcheck]
    constructor
    · intro h
      refine ⟨rfl, ?_⟩
      unfold ofOutcome at h
      split at h
      · cases h
        exact ⟨_, _, _, ‹_›⟩
      all_goals cases h
    · rintro ⟨-, stop, more, trace, hrun⟩
      rw [hrun, ofOutcome]

/-- A tree that a source has is what matching yields without a budget. -/
theorem parses_of_ofSource (h : ofSource limits source = .ok root) :
    ∃ stop, Parses (.rule .expression) (.start source) (some (stop, [root])) := by
  obtain ⟨-, stop, more, trace, hrun⟩ := ofSource_eq_ok_iff.mp h
  have hparses := Rule.reading_of_run hrun
  obtain ⟨_, -, hnodes⟩ := Parses.rule_some_iff.mp hparses
  obtain ⟨-, rfl⟩ := List.cons.inj hnodes
  exact ⟨stop, hparses⟩

variable (h : Parses (.rule .expression) (.start source) (some (stop, [root])))

include h

/-- What matching yields is the tree of the source under all limits that do not refuse it. -/
theorem ofSource_of_parses (limits : Limits) : ofSource limits source = .ok root ∨
    ∃ error, ofSource limits source = .error error ∧ error.isLimit = true := by
  rcases Nesting.check_cases limits.parseDepth source with hcheck | ⟨error, hcheck, hlimit⟩
  · cases hrun : Rule.expression.runOn limits.effectiveCalls source with
    | matched stop' nodes trace =>
      have same := h.unique (Rule.reading_of_run hrun)
      obtain ⟨rfl, rfl⟩ := Prod.mk.inj (Option.some.inj same)
      exact .inl (ofSource_eq_ok_iff.mpr ⟨hcheck, _, _, _, hrun⟩)
    | failed trace =>
      have faithful := Rule.run_faithful ⟨limits.effectiveCalls, source.length + 1⟩
        (Rule.depthBound source.length) .expression (.start source) [] .start
      have hrun' : Rule.run ⟨limits.effectiveCalls, source.length + 1⟩
          (Rule.depthBound source.length) .expression (.start source) [] .start =
            .failed trace := hrun
      rw [hrun'] at faithful
      have hcalls : limits.effectiveCalls ≤ trace.calls :=
        Nat.le_of_not_lt fun hlt => h.not_none (faithful.2 hlt)
      refine .inr ⟨.callLimit ⟨min trace.furthest (Text.byteLength source),
        Text.byteLength source⟩, ?_, rfl⟩
      rw [ofSource_eq_ofOutcome hcheck, hrun, ofOutcome, mismatch, if_pos hcalls]
    | exhausted =>
      refine .inr ⟨.callLimit ⟨0, Text.byteLength source⟩, ?_, rfl⟩
      rw [ofSource_eq_ofOutcome hcheck, hrun, ofOutcome]
  · exact .inr ⟨error, ofSource_of_check_eq_error hcheck, hlimit⟩

/-- Large limits let a source pass that matching takes. -/
theorem ofSource_eventually : ∃ bound, ∀ limits : Limits, bound ≤ limits.parseDepth →
    bound ≤ limits.effectiveCalls → ofSource limits source = .ok root := by
  obtain ⟨steps, hsteps⟩ := Rule.run_of_parses h
  refine ⟨max steps source.length, fun limits hdepth hcalls => ?_⟩
  obtain ⟨trace, -, hrun⟩ := hsteps limits.effectiveCalls (by omega)
  exact ofSource_eq_ok_iff.mpr ⟨Nesting.check_eq_ok (by omega), stop, [], trace, hrun⟩

end Tree

/-- One tree is compared with itself under a smaller and a larger budget, but for its spans. -/
def Likeness.ofBudgets : Likeness Unit := ⟨fun _ => (), fun _ => (), fun _ _ => rfl, True⟩

/-- A larger budget gives an expression of the same shape, a smaller one that or a refusal. -/
theorem Tree.toExpr_cases {tree : Tree Tag} {budget : Nat} {e : Expr Span}
    (h : tree.toExpr budget = .ok e) (budget' : Nat) :
    (∃ e', tree.toExpr budget' = .ok e' ∧ e'.erase = e.erase) ∨
      budget' < budget ∧ ∃ span, tree.toExpr budget' = .error (.nestingDepth span none) := by
  have agree (b b' : Nat) (hb : b ≤ b') : Likeness.ofBudgets.Results Likeness.ofBudgets.Exprs
      (tree.toExpr b) (tree.toExpr b') :=
    .charge (.inr ⟨trivial, hb⟩) rfl fun _ _ hb => Likeness.exprWithin (.refl rfl tree) hb
  rcases Nat.le_total budget budget' with hle | hle
  · have := agree _ _ hle
    rw [h] at this
    cases h' : tree.toExpr budget' with
    | ok e' =>
      rw [h'] at this
      exact .inl ⟨e', rfl, Eq.symm this⟩
    | error error =>
      rw [h'] at this
      exact this.elim
  · have := agree _ _ hle
    rw [h] at this
    cases h' : tree.toExpr budget' with
    | ok e' =>
      rw [h'] at this
      exact .inl ⟨e', rfl, this⟩
    | error error =>
      rw [h'] at this
      obtain ⟨-, span, rfl⟩ := this
      rcases Nat.lt_or_eq_of_le hle with hlt | rfl
      · exact .inr ⟨hlt, span, rfl⟩
      · rw [h] at h'
        cases h'

/-- There are limits above any bound. -/
theorem Limits.exists_above (bound : Nat) : ∃ limits : Limits, bound ≤ limits.parseDepth ∧
    bound ≤ limits.exprDepth ∧ bound ≤ limits.effectiveCalls := by
  refine ⟨⟨bound, bound, bound + 1⟩, Nat.le_refl _, Nat.le_refl _, ?_⟩
  rw [effectiveCalls, if_neg (Nat.succ_ne_zero _)]
  exact Nat.le_succ bound

namespace Denotes

variable {source : List Char} {shape : Expr Unit}

/-- A source denotes the expression of the tree that matching yields. -/
theorem of_parses {stop : Cursor} {root : Tree Rule} {budget : Nat} {e : Expr Span}
    (h : Parses (.rule .expression) (.start source) (some (stop, [root])))
    (he : (root.map Rule.tag).toExpr budget = .ok e) : Denotes source e.erase where
  unlessLimit limits := by
    rcases Tree.ofSource_of_parses h limits with hroot | ⟨error, herror, hlimit⟩
    · rcases Tree.toExpr_cases he limits.exprDepth with ⟨e', he', hsame⟩ | ⟨-, span, hspan⟩
      · refine .inl ⟨e', ?_, hsame⟩
        simp only [parseWithin, parseTree, hroot, Except.map, bind, Except.bind, he']
      · refine .inr ⟨_, ?_, show (Error.nestingDepth span none).isLimit = true from rfl⟩
        simp only [parseWithin, parseTree, hroot, Except.map, bind, Except.bind, hspan]
    · refine .inr ⟨error, ?_, hlimit⟩
      simp only [parseWithin, parseTree, herror, Except.map, bind, Except.bind]
  eventually := by
    obtain ⟨bound, hbound⟩ := Tree.ofSource_eventually h
    refine ⟨max bound budget, fun limits hparse hexpr hcalls => ?_⟩
    have hroot := hbound limits (by omega) (by omega)
    rcases Tree.toExpr_cases he limits.exprDepth with ⟨e', he', hsame⟩ | ⟨hlt, -⟩
    · refine ⟨e', ?_, hsame⟩
      simp only [parseWithin, parseTree, hroot, Except.map, bind, Except.bind, he']
    · omega

/-- What a source is read as comes from what matching yields. -/
theorem parses_of_parseWithin {limits : Limits} {e : Expr Span}
    (h : parseWithin limits source = .ok e) : ∃ stop root,
      Parses (.rule .expression) (.start source) (some (stop, [root])) ∧
        (root.map Rule.tag).toExpr limits.exprDepth = .ok e := by
  cases hroot : Tree.ofSource limits source with
  | error error =>
    simp only [parseWithin, parseTree, hroot, Except.map, bind, Except.bind] at h
    cases h
  | ok root =>
    simp only [parseWithin, parseTree, hroot, Except.map, bind, Except.bind] at h
    obtain ⟨stop, hparses⟩ := Tree.parses_of_ofSource hroot
    exact ⟨stop, root, hparses, h⟩

/-- A source that is read once denotes what it is read as. -/
theorem of_parseWithin {limits : Limits} {e : Expr Span}
    (h : parseWithin limits source = .ok e) : Denotes source e.erase := by
  obtain ⟨stop, root, hparses, he⟩ := parses_of_parseWithin h
  exact .of_parses hparses he

/-- A source denotes at most one shape. -/
theorem unique {shape' : Expr Unit} (h : Denotes source shape) (h' : Denotes source shape') :
    shape = shape' := by
  obtain ⟨bound, hbound⟩ := h.eventually
  obtain ⟨bound', hbound'⟩ := h'.eventually
  obtain ⟨limits, hparse, hexpr, hcalls⟩ := Limits.exists_above (max bound bound')
  obtain ⟨e, he, rfl⟩ := hbound limits (by omega) (by omega) (by omega)
  obtain ⟨e', he', rfl⟩ := hbound' limits (by omega) (by omega) (by omega)
  rw [he] at he'
  cases he'
  rfl

/-- Whatever a source is read as has the s-expression of the shape that it denotes. -/
theorem sexpr_eq (h : Denotes source shape) {limits : Limits} {e : Expr Span}
    (he : parseWithin limits source = .ok e) : e.sexpr = shape.sexpr := by
  rw [← Expr.sexpr_erase e, (of_parseWithin he).unique h]

end Denotes

/-- A source denotes what it is read as under any limits under which it is read. -/
theorem denotes_iff {source : List Char} {shape : Expr Unit} : Denotes source shape ↔
    ∃ limits e, parseWithin limits source = .ok e ∧ e.erase = shape := by
  constructor
  · intro h
    obtain ⟨bound, hbound⟩ := h.eventually
    obtain ⟨limits, hparse, hexpr, hcalls⟩ := Limits.exists_above bound
    exact ⟨limits, hbound limits hparse hexpr hcalls⟩
  · rintro ⟨limits, e, h, rfl⟩
    exact .of_parseWithin h

end Vimscript
