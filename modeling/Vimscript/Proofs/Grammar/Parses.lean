import Vimscript.Grammar.Match

/-!
# What patterns match, without a budget

A pattern at a place either matches up to another place and adds nodes, or does not match. This
relation says which, in the way of parsing expressions: the first alternative that matches is
taken, repetitions run until a round fails, and nothing is tried another way. Steps, traces and
bounds on depth or rounds do not appear; how they bear on matching is shown elsewhere. A pattern
has at most one reading at a place.
-/

namespace Vimscript

/-- The node of a rule between two places. -/
def Rule.node (rule : Rule) (here stop : Cursor) (children : List (Tree Rule)) : Tree Rule :=
  .node rule ⟨here.offset, stop.offset⟩ ⟨here.rest, stop.offset - here.offset⟩ children

/-- What a pattern gives at a place: where it stops and the nodes that it adds, or nothing. -/
abbrev Reading : Type := Option (Cursor × List (Tree Rule))

/-- The reading of a leaf that adds no nodes. -/
def Reading.leaf (stop : Option Cursor) : Reading := stop.map fun stop => (stop, [])

/-- What a pattern gives at a place where nothing bounds the matching. -/
inductive Parses : Pattern → Cursor → Reading → Prop where
  | empty {here : Cursor} : Parses .empty here (some (here, []))
  | text {here : Cursor} {chars : List Char} :
    Parses (.text chars) here (.leaf (here.skipText? chars))
  | anyCase {here : Cursor} {chars : List Char} :
    Parses (.anyCase chars) here (.leaf (here.skipAnyCase? chars))
  | char {here : Cursor} {accepts : Char → Bool} :
    Parses (.char accepts) here (.leaf (here.skipChar? accepts))
  | finish {here : Cursor} :
    Parses .finish here (if here.rest = [] then some (here, []) else none)
  | rule {here : Cursor} {rule : Rule} {inside : Reading} (h : Parses rule.pattern here inside) :
    Parses (.rule rule) here (inside.map fun r => (r.1, [rule.node here r.1 r.2]))
  | seqFail {here : Cursor} {first second : Pattern} (h : Parses first here none) :
    Parses (.seq first second) here none
  | seq {here mid : Cursor} {first second : Pattern} {nodes : List (Tree Rule)} {after : Reading}
    (h : Parses first here (some (mid, nodes))) (h' : Parses second mid after) :
    Parses (.seq first second) here (after.map fun r => (r.1, nodes ++ r.2))
  | left {here stop : Cursor} {first second : Pattern} {nodes : List (Tree Rule)}
    (h : Parses first here (some (stop, nodes))) :
    Parses (.choice first second) here (some (stop, nodes))
  | right {here : Cursor} {first second : Pattern} {other : Reading}
    (h : Parses first here none) (h' : Parses second here other) :
    Parses (.choice first second) here other
  | done {here : Cursor} {round : Pattern} (h : Parses round here none) :
    Parses (.many round) here (some (here, []))
  | again {here mid stop : Cursor} {round : Pattern} {nodes more : List (Tree Rule)}
    (h : Parses round here (some (mid, nodes)))
    (h' : Parses (.many round) mid (some (stop, more))) :
    Parses (.many round) here (some (stop, nodes ++ more))
  | opt {here : Cursor} {part : Pattern} {inside : Reading} (h : Parses part here inside) :
    Parses (.opt part) here (some (inside.getD (here, [])))
  | not {here : Cursor} {part : Pattern} {inside : Reading} (h : Parses part here inside) :
    Parses (.not part) here (if inside.isSome then none else some (here, []))
  | counted {here : Cursor} {part : Pattern} {inside : Reading} (h : Parses part here inside) :
    Parses (.counted part) here inside

namespace Parses

variable {here stop : Cursor} {p q : Pattern} {r : Rule} {ts : List (Tree Rule)} {res : Reading}

/-- A pattern has at most one reading at a place. -/
theorem unique {a b : Reading} (h : Parses p here a) : Parses p here b → a = b := by
  induction h generalizing b with
  | empty | text | anyCase | char | finish => intro h; cases h; rfl
  | rule _ ih => intro h; cases h with | rule h => rw [ih h]
  | seqFail _ ih =>
    intro h
    cases h with
    | seqFail => rfl
    | seq h => cases ih h
  | seq _ _ ih ih' =>
    intro h
    cases h with
    | seqFail h => cases ih h
    | seq h h' =>
      obtain ⟨rfl, rfl⟩ := Prod.mk.inj (Option.some.inj (ih h))
      rw [ih' h']
  | left _ ih =>
    intro h
    cases h with
    | left h => exact ih h
    | right h => cases ih h
  | right _ _ ih ih' =>
    intro h
    cases h with
    | left h => cases ih h
    | right _ h' => exact ih' h'
  | done _ ih =>
    intro h
    cases h with
    | done => rfl
    | again h => cases ih h
  | again _ _ ih ih' =>
    intro h
    cases h with
    | done h => cases ih h
    | again h h' =>
      obtain ⟨rfl, rfl⟩ := Prod.mk.inj (Option.some.inj (ih h))
      obtain ⟨rfl, rfl⟩ := Prod.mk.inj (Option.some.inj (ih' h'))
      rfl
  | opt _ ih => intro h; cases h with | opt h => rw [ih h]
  | not _ ih => intro h; cases h with | not h => rw [ih h]
  | counted _ ih => intro h; cases h with | counted h => exact ih h

/-- Where a pattern matches it does not also fail. -/
theorem not_none (h : Parses p here (some (stop, ts))) : ¬ Parses p here none := by
  intro h'
  cases h.unique h'

/-- The empty pattern matches nothing, where it stands. -/
@[simp] theorem empty_iff : Parses .empty here res ↔ res = some (here, []) :=
  ⟨fun h => by cases h; rfl, fun h => h ▸ .empty⟩

/-- A text matches where it stands. -/
@[simp] theorem text_iff {chars : List Char} :
    Parses (.text chars) here res ↔ res = .leaf (here.skipText? chars) :=
  ⟨fun h => by cases h; rfl, fun h => h ▸ .text⟩

/-- A text in any case matches where it stands in some case. -/
@[simp] theorem anyCase_iff {chars : List Char} :
    Parses (.anyCase chars) here res ↔ res = .leaf (here.skipAnyCase? chars) :=
  ⟨fun h => by cases h; rfl, fun h => h ▸ .anyCase⟩

/-- A class matches one of its characters. -/
@[simp] theorem char_iff {accepts : Char → Bool} :
    Parses (.char accepts) here res ↔ res = .leaf (here.skipChar? accepts) :=
  ⟨fun h => by cases h; rfl, fun h => h ▸ .char⟩

/-- Counting depth changes no reading. -/
@[simp] theorem counted_iff : Parses (.counted p) here res ↔ Parses p here res :=
  ⟨fun h => by cases h with | counted h => exact h, .counted⟩

/-- A rule makes one node over what its pattern matches. -/
theorem rule_some_iff : Parses (.rule r) here (some (stop, ts)) ↔
    ∃ children, Parses r.pattern here (some (stop, children)) ∧ ts = [r.node here stop children] := by
  constructor
  · intro h
    generalize hres : some (stop, ts) = res at h
    cases h with
    | @rule _ _ inside h =>
      cases inside with
      | none => cases hres
      | some inside =>
        obtain ⟨rfl, rfl⟩ := Prod.mk.inj (Option.some.inj hres)
        exact ⟨inside.2, h, rfl⟩
  · rintro ⟨children, h, rfl⟩
    exact .rule h

/-- A rule fails where its pattern does. -/
theorem rule_none_iff : Parses (.rule r) here none ↔ Parses r.pattern here none := by
  constructor
  · intro h
    generalize hres : (none : Reading) = res at h
    cases h with
    | @rule _ _ inside h =>
      cases inside with
      | none => exact h
      | some inside => cases hres
  · intro h
    exact .rule h

/-- A sequence matches its parts one behind the other. -/
theorem seq_some_iff : Parses (.seq p q) here (some (stop, ts)) ↔
    ∃ mid us vs, Parses p here (some (mid, us)) ∧ Parses q mid (some (stop, vs)) ∧ ts = us ++ vs := by
  constructor
  · intro h
    generalize hres : some (stop, ts) = res at h
    cases h with
    | seqFail => cases hres
    | @seq _ mid _ _ us after h h' =>
      cases after with
      | none => cases hres
      | some after =>
        obtain ⟨rfl, rfl⟩ := Prod.mk.inj (Option.some.inj hres)
        exact ⟨mid, us, after.2, h, h', rfl⟩
  · rintro ⟨mid, us, vs, h, h', rfl⟩
    exact .seq h h'

/-- A sequence fails in its first part or behind it in the second. -/
theorem seq_none_iff : Parses (.seq p q) here none ↔
    Parses p here none ∨ ∃ mid us, Parses p here (some (mid, us)) ∧ Parses q mid none := by
  constructor
  · intro h
    generalize hres : (none : Reading) = res at h
    cases h with
    | seqFail h => exact .inl h
    | @seq _ mid _ _ us after h h' =>
      cases after with
      | none => exact .inr ⟨mid, us, h, h'⟩
      | some after => cases hres
  · rintro (h | ⟨mid, us, h, h'⟩)
    · exact .seqFail h
    · exact .seq h h'

/-- A choice matches its second side only where the first fails. -/
theorem choice_some_iff : Parses (.choice p q) here (some (stop, ts)) ↔
    Parses p here (some (stop, ts)) ∨ Parses p here none ∧ Parses q here (some (stop, ts)) := by
  constructor
  · intro h
    cases h with
    | left h => exact .inl h
    | right h h' => exact .inr ⟨h, h'⟩
  · rintro (h | ⟨h, h'⟩)
    · exact .left h
    · exact .right h h'

/-- A choice fails where both sides do. -/
theorem choice_none_iff : Parses (.choice p q) here none ↔
    Parses p here none ∧ Parses q here none := by
  constructor
  · intro h
    cases h with
    | right h h' => exact ⟨h, h'⟩
  · rintro ⟨h, h'⟩
    exact .right h h'

/-- An optional pattern matches nothing only where the pattern fails. -/
theorem opt_some_iff : Parses (.opt p) here (some (stop, ts)) ↔
    Parses p here (some (stop, ts)) ∨ Parses p here none ∧ stop = here ∧ ts = [] := by
  constructor
  · intro h
    generalize hres : some (stop, ts) = res at h
    cases h with
    | @opt _ _ inside h =>
      cases inside with
      | none =>
        obtain ⟨rfl, rfl⟩ := Prod.mk.inj (Option.some.inj hres)
        exact .inr ⟨h, rfl, rfl⟩
      | some inside =>
        obtain ⟨rfl, rfl⟩ := Prod.mk.inj (Option.some.inj hres)
        exact .inl h
  · rintro (h | ⟨h, rfl, rfl⟩)
    · exact .opt h
    · exact .opt h

/-- A lookahead matches nothing, where the pattern fails. -/
theorem not_some_iff : Parses (.not p) here (some (stop, ts)) ↔
    Parses p here none ∧ stop = here ∧ ts = [] := by
  constructor
  · intro h
    generalize hres : some (stop, ts) = res at h
    cases h with
    | @not _ _ inside h =>
      cases inside with
      | none =>
        obtain ⟨rfl, rfl⟩ := Prod.mk.inj (Option.some.inj hres)
        exact ⟨h, rfl, rfl⟩
      | some inside => cases hres
  · rintro ⟨h, rfl, rfl⟩
    exact .not h

/-- A repetition ends only where a round fails. -/
theorem many_some_iff : Parses (.many p) here (some (stop, ts)) ↔
    Parses p here none ∧ stop = here ∧ ts = [] ∨
      ∃ mid us vs, Parses p here (some (mid, us)) ∧ Parses (.many p) mid (some (stop, vs)) ∧
        ts = us ++ vs := by
  constructor
  · intro h
    cases h with
    | done h => exact .inl ⟨h, rfl, rfl⟩
    | again h h' => exact .inr ⟨_, _, _, h, h', rfl⟩
  · rintro (⟨h, rfl, rfl⟩ | ⟨mid, us, vs, h, h', rfl⟩)
    · exact .done h
    · exact .again h h'

/-- No repetition fails. -/
theorem many_ne_none (h : Parses (.many p) here none) : False := by
  generalize hres : (none : Reading) = res at h
  cases h <;> cases hres

/-- No optional pattern fails. -/
theorem opt_ne_none (h : Parses (.opt p) here none) : False := by
  generalize hres : (none : Reading) = res at h
  cases h
  cases hres

end Parses

end Vimscript
