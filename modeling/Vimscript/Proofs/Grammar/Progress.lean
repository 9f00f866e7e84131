import Vimscript.Grammar.Table
import Vimscript.Proofs.Grammar.Cursor
import Vimscript.Proofs.Grammar.Parses

/-!
# Progress and totality

Matching never goes round in circles. Rules have ranks such that a rule entered before anything
is consumed has a smaller rank than the rule around it, and no repetition repeats a pattern that
may match nothing. Both facts are read off the grammar by computation. From them every rule has
a reading at every place, by induction on what is left of the source and then on the rank.
-/

namespace Vimscript

/-- Whether a rule may match without consuming anything. -/
def Rule.mayBeEmpty : Rule → Bool
  | endOfInput | callArg | lambdaParams => true
  | _ => false

/-- A rank above those of all rules entered at the place where a rule is entered. -/
def Rule.rank : Rule → Nat
  | expression | callArg | dictEntry => 13
  | expr => 12
  | logicalOr => 11
  | logicalAnd => 10
  | comparison => 9
  | additive => 8
  | multiplicative => 7
  | unary => 6
  | postfixed => 5
  | primary => 4
  | lambdaExpr => 3
  | functionCall | variableRef | literalDictEntry | lambdaParams => 2
  | _ => 1

namespace Pattern

/-- Whether a pattern may match without consuming anything. -/
def mayBeEmpty : Pattern → Bool
  | empty | finish | many _ | opt _ | not _ => true
  | text chars | anyCase chars => chars.isEmpty
  | char _ => false
  | rule r => r.mayBeEmpty
  | seq first second => first.mayBeEmpty && second.mayBeEmpty
  | choice first second => first.mayBeEmpty || second.mayBeEmpty
  | counted part => part.mayBeEmpty

/-- Above the rank of every rule. -/
def topRank : Nat := 64

/-- Whether all rules entered before anything is consumed have ranks below a bound, and no
repetition repeats a pattern that may match nothing. -/
def ranked (bound : Nat) : Pattern → Bool
  | empty | finish | text _ | anyCase _ | char _ => true
  | rule r => r.rank < bound
  | seq first second =>
    first.ranked bound && second.ranked (if first.mayBeEmpty then bound else topRank)
  | choice first second => first.ranked bound && second.ranked bound
  | many round => !round.mayBeEmpty && round.ranked bound
  | opt part | not part | counted part => part.ranked bound

end Pattern

/-- No rule has the highest rank. -/
theorem Rule.rank_lt_topRank (r : Rule) : r.rank < Pattern.topRank := by
  cases r <;> decide

/-- The rules that a pattern enters first have a lower rank than its own. -/
theorem Rule.pattern_ranked (r : Rule) : r.pattern.ranked r.rank = true := by
  cases r <;> rfl

/-- A rule that takes some text has a pattern that does. -/
theorem Rule.mayBeEmpty_of_pattern {r : Rule} (h : r.mayBeEmpty = false) :
    r.pattern.mayBeEmpty = false := by
  revert h
  cases r <;> first | exact fun _ => rfl | exact fun h => absurd h (by decide)

namespace Parses

variable {here stop : Cursor} {p : Pattern} {ts : List (Tree Rule)}

/-- What matches is a text, and some text unless the pattern may match nothing. -/
theorem consumes {res : Reading} (h : Parses p here res) :
    ∀ stop ts, res = some (stop, ts) →
      ∃ u, here.Moves u stop ∧ (p.mayBeEmpty = false → u ≠ []) := by
  induction h with
  | @empty here =>
    rintro stop ts h
    obtain ⟨rfl, rfl⟩ := Prod.mk.inj (Option.some.inj h)
    exact ⟨[], .refl here, nofun⟩
  | @text here chars =>
    intro stop ts h
    obtain ⟨stop', hstop, h⟩ := Option.map_eq_some_iff.mp h
    obtain ⟨rfl, rfl⟩ := Prod.mk.inj h
    refine ⟨chars, Cursor.skipText?_eq_some_iff.mp hstop, fun hne => ?_⟩
    rintro rfl
    cases hne
  | @anyCase here chars =>
    intro stop ts h
    obtain ⟨stop', hstop, h⟩ := Option.map_eq_some_iff.mp h
    obtain ⟨rfl, rfl⟩ := Prod.mk.inj h
    obtain ⟨u, rfl, hu⟩ := Cursor.skipAnyCase?_eq_some_iff.mp hstop
    refine ⟨u, hu, fun hne => ?_⟩
    rintro rfl
    cases hne
  | @char here accepts =>
    intro stop ts h
    obtain ⟨stop', hstop, h⟩ := Option.map_eq_some_iff.mp h
    obtain ⟨rfl, rfl⟩ := Prod.mk.inj h
    obtain ⟨c, _, hc⟩ := Cursor.skipChar?_eq_some_iff.mp hstop
    exact ⟨[c], hc, fun _ => List.cons_ne_nil c []⟩
  | @finish here =>
    intro stop ts h
    split at h
    · obtain ⟨rfl, rfl⟩ := Prod.mk.inj (Option.some.inj h)
      exact ⟨[], .refl here, nofun⟩
    · cases h
  | rule _ ih =>
    intro stop ts h
    obtain ⟨⟨stop', children⟩, hinside, h⟩ := Option.map_eq_some_iff.mp h
    obtain ⟨rfl, rfl⟩ := Prod.mk.inj h
    obtain ⟨u, hu, hne⟩ := ih _ _ hinside
    exact ⟨u, hu, fun h => hne (Rule.mayBeEmpty_of_pattern h)⟩
  | seqFail => nofun
  | seq _ _ ih ih' =>
    intro stop ts h
    obtain ⟨⟨stop', more⟩, hafter, h⟩ := Option.map_eq_some_iff.mp h
    obtain ⟨rfl, rfl⟩ := Prod.mk.inj h
    obtain ⟨u, hu, hune⟩ := ih _ _ rfl
    obtain ⟨v, hv, hvne⟩ := ih' _ _ hafter
    refine ⟨u ++ v, hu.trans hv, fun hne hnil => ?_⟩
    obtain ⟨rfl, rfl⟩ := List.append_eq_nil_iff.mp hnil
    rcases Bool.and_eq_false_iff.mp hne with h | h
    · exact hune h rfl
    · exact hvne h rfl
  | left _ ih =>
    intro stop ts h
    obtain ⟨u, hu, hne⟩ := ih _ _ h
    exact ⟨u, hu, fun h => hne (Bool.or_eq_false_iff.mp h).1⟩
  | right _ _ _ ih =>
    intro stop ts h
    obtain ⟨u, hu, hne⟩ := ih _ _ h
    exact ⟨u, hu, fun h => hne (Bool.or_eq_false_iff.mp h).2⟩
  | @done here =>
    intro stop ts h
    obtain ⟨rfl, rfl⟩ := Prod.mk.inj (Option.some.inj h)
    exact ⟨[], .refl here, nofun⟩
  | again _ _ ih ih' =>
    intro stop ts h
    obtain ⟨rfl, rfl⟩ := Prod.mk.inj (Option.some.inj h)
    obtain ⟨u, hu, _⟩ := ih _ _ rfl
    obtain ⟨v, hv, _⟩ := ih' _ _ rfl
    exact ⟨u ++ v, hu.trans hv, nofun⟩
  | @opt here _ inside _ ih =>
    intro stop ts h
    cases inside with
    | none =>
      obtain ⟨rfl, rfl⟩ := Prod.mk.inj (Option.some.inj h)
      exact ⟨[], .refl here, nofun⟩
    | some inside =>
      obtain ⟨u, hu, _⟩ := ih _ _ h
      exact ⟨u, hu, nofun⟩
  | @not here _ inside =>
    intro stop ts h
    split at h
    · cases h
    · obtain ⟨rfl, rfl⟩ := Prod.mk.inj (Option.some.inj h)
      exact ⟨[], .refl here, nofun⟩
  | counted _ ih =>
    intro stop ts h
    exact ih _ _ h

/-- A match is a move over a text. -/
theorem moves (h : Parses p here (some (stop, ts))) : ∃ u, here.Moves u stop := by
  obtain ⟨u, hu, _⟩ := h.consumes _ _ rfl
  exact ⟨u, hu⟩

/-- A pattern that takes some text leaves less of it. -/
theorem length_lt (h : Parses p here (some (stop, ts))) (hp : p.mayBeEmpty = false) :
    stop.rest.length < here.rest.length := by
  obtain ⟨u, hu, hne⟩ := h.consumes _ _ rfl
  exact hu.length_lt (hne hp)

/-- A match leaves no more text than there was. -/
theorem length_le (h : Parses p here (some (stop, ts))) :
    stop.rest.length ≤ here.rest.length := by
  obtain ⟨u, hu⟩ := h.moves
  exact hu.length_le

end Parses

/-- A repetition of a pattern that consumes something has a reading wherever the pattern has
one. -/
theorem exists_parses_many {p : Pattern} (hp : p.mayBeEmpty = false) :
    ∀ (n : Nat) (here : Cursor), here.rest.length ≤ n →
      (∀ place : Cursor, place.rest.length ≤ here.rest.length → ∃ res, Parses p place res) →
      ∃ res, Parses (.many p) here res := by
  intro n
  induction n with
  | zero =>
    intro here hn total
    obtain ⟨res, h⟩ := total here (Nat.le_refl _)
    cases res with
    | none => exact ⟨_, .done h⟩
    | some res =>
      have := h.length_lt hp
      omega
  | succ n ih =>
    intro here hn total
    obtain ⟨res, h⟩ := total here (Nat.le_refl _)
    cases res with
    | none => exact ⟨_, .done h⟩
    | some res =>
      have shorter := h.length_lt hp
      obtain ⟨more, h'⟩ := ih res.1 (by omega) fun place hplace => total place (by omega)
      cases more with
      | none => exact (Parses.many_ne_none h').elim
      | some more => exact ⟨_, .again h h'⟩

/-- A pattern has a reading at a place where the rules that it may enter have one: rules of
smaller rank here, and all rules further on. -/
theorem Pattern.exists_parses (p : Pattern) :
    ∀ (bound : Nat) (here : Cursor), p.ranked bound = true →
      (∀ (r : Rule) (place : Cursor),
        place.rest.length < here.rest.length ∨
          place.rest.length = here.rest.length ∧ r.rank < bound →
        ∃ res, Parses (.rule r) place res) →
      ∃ res, Parses p here res := by
  induction p with
  | empty => exact fun _ _ _ _ => ⟨_, .empty⟩
  | text => exact fun _ _ _ _ => ⟨_, .text⟩
  | anyCase => exact fun _ _ _ _ => ⟨_, .anyCase⟩
  | char => exact fun _ _ _ _ => ⟨_, .char⟩
  | finish => exact fun _ _ _ _ => ⟨_, .finish⟩
  | rule r =>
    intro bound here hrank total
    exact total r here (.inr ⟨rfl, of_decide_eq_true hrank⟩)
  | seq first second ih ih' =>
    intro bound here hrank total
    obtain ⟨hfirst, hsecond⟩ := Bool.and_eq_true_iff.mp hrank
    obtain ⟨res, h⟩ := ih bound here hfirst total
    cases res with
    | none => exact ⟨_, .seqFail h⟩
    | some res =>
      obtain ⟨after, h'⟩ := ih' _ res.1 hsecond fun r place hplace => by
        apply total r place
        cases hempty : first.mayBeEmpty with
        | false =>
          have := h.length_lt hempty
          omega
        | true =>
          have := h.length_le
          rw [hempty, if_pos rfl] at hplace
          omega
      exact ⟨_, .seq h h'⟩
  | choice first second ih ih' =>
    intro bound here hrank total
    obtain ⟨hfirst, hsecond⟩ := Bool.and_eq_true_iff.mp hrank
    obtain ⟨res, h⟩ := ih bound here hfirst total
    cases res with
    | none =>
      obtain ⟨other, h'⟩ := ih' bound here hsecond total
      exact ⟨_, .right h h'⟩
    | some res => exact ⟨_, .left h⟩
  | many round ih =>
    intro bound here hrank total
    obtain ⟨hempty, hround⟩ := Bool.and_eq_true_iff.mp hrank
    have hempty : round.mayBeEmpty = false := by simpa using hempty
    refine exists_parses_many hempty _ here (Nat.le_refl _) fun place hplace => ?_
    refine ih bound place hround fun r next hnext => total r next ?_
    omega
  | opt part ih =>
    intro bound here hrank total
    obtain ⟨res, h⟩ := ih bound here hrank total
    exact ⟨_, .opt h⟩
  | not part ih =>
    intro bound here hrank total
    obtain ⟨res, h⟩ := ih bound here hrank total
    exact ⟨_, .not h⟩
  | counted part ih =>
    intro bound here hrank total
    obtain ⟨res, h⟩ := ih bound here hrank total
    exact ⟨_, .counted h⟩

/-- Every rule has a reading at every place. -/
theorem Rule.exists_parses (r : Rule) (here : Cursor) : ∃ res, Parses (.rule r) here res := by
  induction hn : Pattern.topRank * here.rest.length + r.rank using Nat.strongRecOn
    generalizing r here with
  | ind n ih =>
    subst hn
    obtain ⟨res, h⟩ := r.pattern.exists_parses r.rank here r.pattern_ranked fun s place hplace => by
      refine ih _ ?_ s place rfl
      have hs := s.rank_lt_topRank
      simp only [Pattern.topRank] at hs ⊢
      omega
    exact ⟨_, .rule h⟩

/-- A pattern that does not match fails. -/
theorem Pattern.parses_none {p : Pattern} {here : Cursor} (hp : p.ranked topRank = true)
    (h : ∀ stop ts, ¬ Parses p here (some (stop, ts))) : Parses p here none := by
  obtain ⟨res, hres⟩ := p.exists_parses topRank here hp fun r place _ => r.exists_parses place
  cases res with
  | none => exact hres
  | some res => exact (h _ _ hres).elim

/-- A rule that does not match fails. -/
theorem Rule.parses_none {r : Rule} {here : Cursor}
    (h : ∀ stop ts, ¬ Parses (.rule r) here (some (stop, ts))) : Parses (.rule r) here none :=
  Pattern.parses_none (decide_eq_true r.rank_lt_topRank) h

end Vimscript
