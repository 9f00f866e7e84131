import Vimscript.Proofs.Expr.Fields

/-!
# Chains of method calls

An arrow hands what stands before it to the call behind it, as the first argument. A chain of arrows
behind a base reads as calls one inside the other, each with the chain before it in its first place.
In the chain the receiver is put in front of arguments that have been read without it, and the base
ends in front of an arrow; in the calls the receiver is read as an argument, and ends in front of a
comma. Places left blank count on neither side.
-/

namespace Vimscript

open Pattern Text

/-- Blanks may stand in front of a place for an argument. -/
theorem ReadsSlot.behindBlanks {c : Char} {b text : List Char} {e : Option (Expr Unit)}
    (h : ReadsSlot c text e) (hb : b.all isSpace = true) : ReadsSlot c (b ++ text) e := by
  rcases h with ⟨htext, rfl⟩ | ⟨b', v, b'', e', rfl, hb', hb'', hseam, hreads, rfl⟩
  · exact .inl ⟨by rw [List.all_append, hb, htext, Bool.and_self], rfl⟩
  · exact .inr ⟨b ++ b', v, b'', e', (List.append_assoc _ _ _).symm,
      by rw [List.all_append, hb, hb', Bool.and_self], hb'', hseam, hreads, rfl⟩

/-- Blanks may stand in front of all of them. -/
theorem ReadsArgs.behindBlanks {b text : List Char} {args : List (Option (Expr Unit))}
    (h : ReadsArgs text args) (hb : b.all isSpace = true) : ReadsArgs (b ++ text) args := by
  cases h with
  | one h => exact .one fun c hc => (h c hc).behindBlanks hb
  | @cons u v a more h h' =>
    rw [← List.append_assoc]
    exact .cons (fun c hc => (h c hc).behindBlanks hb) h'

namespace Slot

/-- The text of places with commas between them. -/
def listed (slots : List Slot) : List Char := [','].intercalate (slots.map text)

/-- The arguments in places, without those left blank. -/
def exprs (slots : List Slot) : List (Expr Unit) := slots.filterMap expr?

/-- The text of places reads as the arguments in them; no place at all is one left blank. -/
theorem readsArgs_listed (slots : List Slot) :
    ∃ places, ReadsArgs (listed slots) places ∧ places.filterMap id = exprs slots := by
  have reads (slot : Slot) (c : Char) (hc : endsSlot ')' c) : ReadsSlot c slot.text slot.expr? := by
    have := slot.reads blank_nil blank_nil hc
    rwa [List.append_nil] at this
  induction slots with
  | nil => exact ⟨[none], .one fun c _ => .inl ⟨rfl, rfl⟩, rfl⟩
  | cons slot slots ih =>
    have hexprs (places : List (Option (Expr Unit))) (h : places.filterMap id = exprs slots) :
        (slot.expr? :: places).filterMap id = exprs (slot :: slots) := by
      rw [exprs, List.filterMap_cons, List.filterMap_cons, h]
      rfl
    cases slots with
    | nil =>
      have htext : listed [slot] = slot.text := by simp [listed]
      exact ⟨[slot.expr?], .one (htext ▸ reads slot), hexprs [] rfl⟩
    | cons next slots =>
      obtain ⟨places, hargs, hplaces⟩ := ih
      refine ⟨slot.expr? :: places, ?_, hexprs places hplaces⟩
      have htext : listed (slot :: next :: slots) = slot.text ++ ',' :: listed (next :: slots) := by
        simp [listed, List.intercalate_cons_cons]
      rw [htext]
      exact .cons (reads slot) hargs

end Slot

/-- What can stand behind an arrow and be called: a function by its name, or a lambda. -/
inductive Callee where
  /-- `f`, perhaps with a scope in front of the name. -/
  | function (scope : Option Scope) (name : {name // IsName isNameStart isNameChar name})
  /-- `{p, … -> s}`. -/
  | lambda (params : List {name // IsName isNameStart isWordChar name}) (body : Accepted)

namespace Callee

/-- The text of what is called. -/
def text : Callee → List Char
  | function scope name => Scope.optionalText scope ++ name
  | lambda params body => (Form.lambda params body).text

/-- The call with arguments. -/
def apply (args : List (Expr Unit)) : Callee → Expr Unit
  | function scope name => .call () scope name args
  | lambda params body => .lambdaCall () (Form.lambda params body).expr args

end Callee

/-- An arrow with what it calls and the places for arguments behind it. -/
structure Step where
  callee : Callee
  slots : List Slot

namespace Step

variable (step : Step)

/-- The arrow and the call. -/
def behindArrow : List Char :=
  "->".toList ++ step.callee.text ++ '(' :: Slot.listed step.slots ++ ")".toList

/-- The call with a receiver in its first place. -/
def around (receiver : List Char) : List Char :=
  step.callee.text ++ '(' :: receiver ++ ", ".toList ++ Slot.listed step.slots ++ ")".toList

/-- The call with an expression as its first argument. -/
def apply (receiver : Expr Unit) : Expr Unit :=
  step.callee.apply (receiver :: Slot.exprs step.slots)

/-- A base with steps behind it. -/
def chained (base : List Char) (steps : List Step) : List Char :=
  base ++ steps.flatMap behindArrow

/-- A base with calls around it, the first step innermost. -/
def nested (base : List Char) (steps : List Step) : List Char :=
  steps.foldl (fun receiver step => step.around receiver) base

/-- The calls of steps with an expression at their heart. -/
def calls (base : Expr Unit) (steps : List Step) : Expr Unit :=
  steps.foldl (fun receiver step => step.apply receiver) base

end Step

namespace Callee

variable {callee : Callee} {text : List Char} {places : List (Option (Expr Unit))}

/-- The lambda that is called, without its arguments. -/
theorem readsBody (body : Accepted) :
    ReadsSlot '\x7d' (' ' :: body.text) (some body.expr) := by
  have : ReadsSlot '\x7d' ([' '] ++ (body.text ++ [])) (some body.expr) :=
    body.slot blank_space blank_nil (seam_cons (by decide))
  rwa [List.append_nil] at this

/-- A lambda that is called as a method is written between braces. -/
theorem text_lambda (params : List {name // IsName isNameStart isWordChar name}) (body : Accepted) :
    (lambda params body).text = '\x7b' :: (Expr.commaSeparated (params.map (·.1)) ++ [' '] ++
      ('-' :: '>' :: (' ' :: body.text ++ ['\x7d']))) := by
  simp [Callee.text, Form.text]

/-- What is called as a method begins with no blank. -/
theorem head (callee : Callee) : ∃ c v, callee.text = c :: v ∧ isSpace c = false := by
  cases callee with
  | function scope name =>
    obtain ⟨c, v, hname, hc, -⟩ := name.2
    cases scope with
    | none => exact ⟨c, v, hname, isSpace_eq_false hc (by decide)⟩
    | some s => exact ⟨_, _, rfl, by cases s <;> decide⟩
  | lambda params body => exact ⟨_, _, text_lambda params body, by decide⟩

/-- What is called and its arguments make a call by themselves. -/
theorem readsAs {follow : List Char → Prop} (hargs : ReadsArgs text places) :
    ReadsAs follow 8 (callee.text ++ '(' :: (text ++ [')'])) (callee.apply (places.filterMap id)) := by
  cases callee with
  | function scope name =>
    rw [Callee.text, List.append_assoc]
    exact .call name.2 hargs
  | lambda params body =>
    rw [text_lambda]
    exact .lambdaCall (Form.readsParams params) (readsBody body) hargs

/-- Behind an arrow they make a call with the receiver in front. -/
theorem behindArrow {here mid : Cursor} (hargs : ReadsArgs text places)
    (hmove : here.Moves (callee.text ++ '(' :: (text ++ [')'])) mid) : ∃ us,
      Derives (firstOf [spaced [call .lambda, call .callArgs], call .functionCall]) here mid us ∧
        ∀ {span span' methodSpan excerpt excerpt' methodExcerpt ts e},
          (Tree.node .postfixed span excerpt ts).Builds e →
          (Tree.node .postfixed span' excerpt' (ts ++ [.node .methodCall methodSpan methodExcerpt
            (us.map (Tree.map Rule.tag))])).Builds (callee.apply (e :: places.filterMap id)) := by
  cases callee with
  | function scope name =>
    rw [Callee.text, List.append_assoc] at hmove
    obtain ⟨us, place, ts, hderives, hus, hts⟩ := hargs.functionCall name.2 hmove
    refine ⟨_, .right (Derives.call_iff.mpr hderives), fun h => ?_⟩
    rw [List.map_singleton, Tree.map_node, List.map_append, List.map_singleton, Tree.map_node]
    exact h.methodCall hus hts
  | lambda params body =>
    rw [text_lambda] at hmove
    obtain ⟨place, hlambda, hmove⟩ := Cursor.Moves.append_iff.mp hmove
    have hplace : place.skipSpaces = place := Cursor.skipSpaces_of_endsBefore (by
      rw [hmove.rest_eq]
      exact endsBefore_cons.mpr (by decide))
    obtain ⟨ts, hderives, hts⟩ := (Form.readsParams params).lambda (readsBody body) hlambda
    obtain ⟨us, hcall, hus⟩ := hargs.derives hmove
    refine ⟨_, .left (.counted (Derives.spaced_iff.mpr ⟨place, _, _, Derives.call_iff.mpr hderives,
      hplace.symm ▸ Derives.call_iff.mpr hcall, rfl⟩)), fun h => ?_⟩
    rw [Tree.map_node] at hts
    rw [List.map_append, List.map_singleton, List.map_singleton, Tree.map_node, Tree.map_node]
    exact h.methodLambda hts hus

end Callee

namespace Step

variable {u receiver : List Char} {e : Expr Unit}

/-- An arrow and a call behind a base. -/
theorem readsAs {follow follow' : List Char → Prop} (step : Step) (h : ReadsAs follow' 7 u e)
    (hfollow : ∀ rest, follow' ('-' :: '>' :: rest)) :
    ReadsAs follow 7 (u ++ step.behindArrow) (step.apply e) := by
  obtain ⟨places, hargs, hplaces⟩ := Slot.readsArgs_listed step.slots
  have htext : step.behindArrow = '-' :: '>' ::
      (step.callee.text ++ '(' :: (Slot.listed step.slots ++ [')'])) := by
    simp [behindArrow]
  rw [htext, Step.apply, ← hplaces]
  refine h.attached (r := .methodCall) (by decide) (fun _ => hfollow _) (fun h => by cases h)
    fun here mid hmove => ?_
  obtain ⟨first, harrow, hmove⟩ := Cursor.Moves.append_iff (u := ['-', '>']).mp hmove
  obtain ⟨c, v, hhead, hc⟩ := step.callee.head
  have hmove := hmove.behindBlanks (b := []) blank_nil ⟨c, _, by rw [hhead]; rfl, hc⟩
  obtain ⟨us, hderives, hbuilds⟩ := Callee.behindArrow hargs hmove
  refine ⟨_, (Derives.rule_iff rfl).mpr ⟨us, .counted (Derives.spaced_iff.mpr
    ⟨first, [], us, .text harrow, hderives, rfl⟩), trivial, rfl⟩, fun _ _ _ _ _ h => ?_⟩
  rw [Tree.map_node]
  exact hbuilds h

/-- The call with a receiver that is read alone in its first place. -/
theorem denotes_around (step : Step) (h : Denotes receiver e) :
    Denotes (step.around receiver) (step.apply e) := by
  obtain ⟨places, hargs, hplaces⟩ := Slot.readsArgs_listed step.slots
  have hfirst (c : Char) (hc : endsSlot ')' c) : ReadsSlot c receiver (some e) := by
    have := (Accepted.mk receiver e h).slot blank_nil blank_nil
      (seam_of_endsSlot (by decide) blank_nil hc)
    rwa [List.append_nil] at this
  have hplaces' : ReadsArgs (receiver ++ ',' :: ([' '] ++ Slot.listed step.slots))
      (some e :: places) :=
    .cons hfirst (hargs.behindBlanks blank_space)
  have htext : step.around receiver = step.callee.text ++
      '(' :: (receiver ++ ',' :: ([' '] ++ Slot.listed step.slots) ++ [')']) := by
    simp [around]
  rw [htext, Step.apply, ← hplaces]
  exact (Callee.readsAs hplaces').denotes (Nat.le_refl 8)

/-- Steps behind a base make calls, the first innermost. -/
theorem readsAs_chained (steps : List Step) (h : ReadsAs Onward 7 u e) :
    ReadsAs Onward 7 (chained u steps) (calls e steps) := by
  -- A step makes a longer base of the base, so both it and what it is read as are general.
  induction steps generalizing u e with
  | nil => rwa [chained, List.flatMap_nil, List.append_nil]
  | cons step steps ih =>
    have hnext := ih (step.readsAs h fun rest => .inr ⟨'-', '>', rest, rfl, .inr rfl, by decide⟩)
    rwa [chained, List.append_assoc] at hnext

/-- Calls one around the other denote the same. -/
theorem denotes_nested (steps : List Step) (h : Denotes receiver e) :
    Denotes (nested receiver steps) (calls e steps) := by
  induction steps generalizing receiver e with
  | nil => exact h
  | cons step steps ih => exact ih (step.denotes_around h)

end Step

open Step

/-- A chain of arrows denotes what calls one around the other denote. The base is any text that is a
primary with what is attached to it. -/
theorem denotes_chained {base : List Char} {e : Expr Unit} {calls : Nat} {stop : Cursor}
    {nodes : List (Tree Rule)} {trace : Trace}
    (hrun : Rule.postfixed.runOn calls base = .matched stop nodes trace)
    (hcalls : trace.calls < calls) (hstop : stop.rest = []) (h : Denotes base e)
    (steps : List Step) : Denotes (chained base steps) (Step.calls e steps) ∧
      Denotes (nested base steps) (Step.calls e steps) := by
  have hderives := (Rule.parses_of_runOn hrun hcalls).derives
  obtain ⟨t, rfl⟩ := hderives.eq_singleton
  obtain ⟨hreads, -⟩ := h.reads_postfixed hderives hstop
  exact ⟨((readsAs_chained steps hreads).mono fun _ => .inl).denotes (by decide),
    denotes_nested steps h⟩

/-- A constant handed to a function with a scope and then to a lambda, with places left blank. -/
theorem denotes_chained_string : ∃ e steps, Denotes "'k'".toList e ∧
    chained "'k'".toList steps = "'k'->g:f(1,,x )->\x7ba, b -> a . b\x7d( )".toList ∧
    nested "'k'".toList steps = "\x7ba, b -> a . b\x7d(g:f('k', 1,,x ),  )".toList ∧
    Denotes "'k'->g:f(1,,x )->\x7ba, b -> a . b\x7d( )".toList (Step.calls e steps) ∧
    Denotes "\x7ba, b -> a . b\x7d(g:f('k', 1,,x ),  )".toList (Step.calls e steps) := by
  have accepted (source : List Char)
      (h : (parseWithin Limits.default source).map (fun _ => ()) = .ok ()) :
      ∃ s : Accepted, s.text = source := by
    obtain ⟨e, hok, -⟩ := exists_of_map_eq_ok h
    exact ⟨.ofParse hok, rfl⟩
  obtain ⟨base, hbase⟩ := accepted "'k'".toList (by decide +kernel)
  obtain ⟨one, hone⟩ := accepted "1".toList (by decide +kernel)
  obtain ⟨x, hx⟩ := accepted "x ".toList (by decide +kernel)
  obtain ⟨body, hbody⟩ := accepted "a . b".toList (by decide +kernel)
  let steps : List Step :=
    [⟨.function (some .global) ⟨['f'], 'f', [], rfl, rfl, rfl⟩,
        [.filled one, .blank [] rfl, .filled x]⟩,
      ⟨.lambda [⟨['a'], 'a', [], rfl, rfl, rfl⟩, ⟨['b'], 'b', [], rfl, rfl, rfl⟩] body,
        [.blank [' '] rfl]⟩]
  have hchained : chained "'k'".toList steps = "'k'->g:f(1,,x )->\x7ba, b -> a . b\x7d( )".toList := by
    simp only [Step.chained, steps, behindArrow, List.flatMap_cons, List.flatMap_nil, Slot.listed,
      List.map_cons, List.map_nil, Slot.text, Callee.text, Form.text, hone, hx, hbody]
    decide
  have hnested : nested "'k'".toList steps = "\x7ba, b -> a . b\x7d(g:f('k', 1,,x ),  )".toList := by
    simp only [nested, steps, around, List.foldl_cons, List.foldl_nil, Slot.listed, List.map_cons,
      List.map_nil, Slot.text, Callee.text, Form.text, hone, hx, hbody]
    decide
  have hwhole : (Rule.postfixed.runOn 1000 "'k'".toList).isWhole 1000 = true := by decide +kernel
  obtain ⟨stop, nodes, trace, hrun, hcalls, hstop⟩ := Outcome.exists_of_isWhole hwhole
  have h := denotes_chained hrun hcalls hstop (hbase ▸ base.denotes) steps
  exact ⟨base.expr, steps, hbase ▸ base.denotes, hchained, hnested, hchained ▸ h.1, hnested ▸ h.2⟩

end Vimscript
