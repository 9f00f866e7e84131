import Vimscript.Proofs.Grammar.Chain
import Vimscript.Proofs.Grammar.Ink

/-!
# Derivations part by part

Outside tokens the only runs of characters that the grammar takes are blanks. Here a run of blanks
is one part of a derivation, so that an induction meets nothing but fixed texts, blanks, tokens and
rules; `Derives.lays` shows that every derivation inside a source can be read so. What the parts of
a rule have in common is told from its pattern alone.
-/

namespace Vimscript

open Text

/-- A pattern without characters outside fixed texts, tokens and runs of blanks, and without the
end of input. -/
inductive Pattern.Laid : Pattern → Prop where
  | empty : Laid .empty
  | text {chars : List Char} (h : IsRun (fun c => !isSpace c) chars) : Laid (.text chars)
  | blanks : Laid .blanks
  | rule {r : Rule} (hr : r ≠ .endOfInput ∧ r ≠ .expression) : Laid (.rule r)
  | seq {p q : Pattern} (h : Laid p) (h' : Laid q) : Laid (.seq p q)
  | choice {p q : Pattern} (h : Laid p) (h' : Laid q) : Laid (.choice p q)
  | many {p : Pattern} (h : Laid p) : Laid (.many p)
  | opt {p : Pattern} (h : Laid p) : Laid (.opt p)
  | counted {p : Pattern} (h : Laid p) : Laid (.counted p)

/-- The patterns of all rules but tokens and whole sources say all about blanks by themselves. -/
theorem Rule.pattern_laid {r : Rule} (hr : r.isToken = false) (hr' : r ≠ .expression) :
    r.pattern.Laid := by
  cases r <;> first | (cases hr; done) | exact (hr' rfl).elim | skip
  all_goals
    repeat' first
      | exact .empty
      | exact .blanks
      | exact .text ⟨by decide, by decide⟩
      | exact .rule ⟨nofun, nofun⟩
      | apply Pattern.Laid.seq
      | apply Pattern.Laid.choice
      | apply Pattern.Laid.many
      | apply Pattern.Laid.opt
      | apply Pattern.Laid.counted

/-- What a pattern derives between two places, a run of blanks being one part. -/
inductive Lays : Pattern → Cursor → Cursor → List (Tree Rule) → Prop where
  | empty {here : Cursor} : Lays .empty here here []
  | text {here stop : Cursor} {chars : List Char} (hink : IsRun (fun c => !isSpace c) chars)
    (h : here.Moves chars stop) : Lays (.text chars) here stop []
  | blanks {here : Cursor} : Lays .blanks here here.skipSpaces []
  | token {here stop : Cursor} {r : Rule} {u : List Char} (hr : r.isToken = true)
    (hr' : r ≠ .endOfInput) (h : here.Moves u stop) (hu : r.Lexeme u stop.rest) :
    Lays (.rule r) here stop [r.node here stop []]
  | rule {here stop : Cursor} {r : Rule} {children : List (Tree Rule)} (hr : r.isToken = false)
    (hr' : r ≠ .expression) (h : Lays r.pattern here stop children)
    (settled : r.Settled children stop.rest) :
    Lays (.rule r) here stop [r.node here stop children]
  | seq {here mid stop : Cursor} {p q : Pattern} {us vs : List (Tree Rule)}
    (h : Lays p here mid us) (h' : Lays q mid stop vs) : Lays (.seq p q) here stop (us ++ vs)
  | left {here stop : Cursor} {p q : Pattern} {ts : List (Tree Rule)} (h : Lays p here stop ts) :
    Lays (.choice p q) here stop ts
  | right {here stop : Cursor} {p q : Pattern} {ts : List (Tree Rule)} (h : Lays q here stop ts) :
    Lays (.choice p q) here stop ts
  | absent {here : Cursor} {p : Pattern} : Lays (.opt p) here here []
  | present {here stop : Cursor} {p : Pattern} {ts : List (Tree Rule)} (h : Lays p here stop ts) :
    Lays (.opt p) here stop ts
  | done {here : Cursor} {p : Pattern} (hp : p.Laid) : Lays (.many p) here here []
  | again {here mid stop : Cursor} {p : Pattern} {us vs : List (Tree Rule)}
    (h : Lays p here mid us) (h' : Lays (.many p) mid stop vs) : Lays (.many p) here stop (us ++ vs)
  | counted {here stop : Cursor} {p : Pattern} {ts : List (Tree Rule)} (h : Lays p here stop ts) :
    Lays (.counted p) here stop ts

namespace Derives

variable {here stop : Cursor} {p : Pattern} {ts : List (Tree Rule)}

/-- A whole source is an expression between blanks in front of the end of input. -/
theorem expression_iff : Derives (.rule .expression) here stop ts ↔
    ∃ mid t, Derives (.rule .expr) here.skipSpaces mid [t] ∧ stop = mid.skipSpaces ∧
      stop.rest = [] ∧ ts = [Rule.expression.node here stop
        [t, Rule.endOfInput.node stop stop []]] := by
  have hpattern : ∀ children, Derives Rule.expression.pattern here stop children ↔
      ∃ mid us vs, Derives (.rule .expr) here.skipSpaces mid us ∧
        Derives (.rule .endOfInput) mid.skipSpaces stop vs ∧ children = us ++ vs := by
    intro children
    simp only [Rule.pattern, Pattern.spaced, Pattern.spacedChain, counted_iff, spaced_iff,
      empty_iff, call_iff]
    constructor
    · rintro ⟨_, _, vs, ⟨rfl, rfl⟩, h, rfl⟩
      exact h
    · intro h
      exact ⟨_, [], children, ⟨rfl, rfl⟩, h, rfl⟩
  rw [rule_iff rfl]
  simp only [hpattern]
  constructor
  · rintro ⟨_, ⟨mid, us, vs, h, hfinish, rfl⟩, -, rfl⟩
    obtain ⟨t, rfl⟩ := h.eq_singleton
    obtain ⟨u, hmove, ⟨rfl, hend⟩, rfl⟩ := (token_iff rfl).mp hfinish
    obtain rfl := (Cursor.Moves.refl _).stop_unique hmove
    exact ⟨mid, t, h, rfl, hend, rfl⟩
  · rintro ⟨mid, t, h, rfl, hend, rfl⟩
    exact ⟨_, ⟨mid, [t], _, h, (token_iff rfl).mpr ⟨[], .refl _, ⟨rfl, hend⟩, rfl⟩, rfl⟩, trivial,
      rfl⟩

/-- A derivation of a laid pattern goes part by part. -/
theorem lays (h : Derives p here stop ts) (hp : p.Laid) : Lays p here stop ts := by
  induction h with
  | empty => exact .empty
  | text h =>
    cases hp with
    | text hink => exact .text hink h
  | char => cases hp
  | token hr h hu =>
    cases hp with
    | rule hrule => exact .token hr hrule.1 h hu
  | rule hr _ settled ih =>
    cases hp with
    | rule hrule => exact .rule hr hrule.2 (ih (Rule.pattern_laid hr hrule.2)) settled
  | seq _ _ ih ih' =>
    cases hp with
    | seq hp hq => exact .seq (ih hp) (ih' hq)
  | left _ ih =>
    cases hp with
    | choice hp _ => exact .left (ih hp)
  | right _ ih =>
    cases hp with
    | choice _ hq => exact .right (ih hq)
  | absent => exact .absent
  | present _ ih =>
    cases hp with
    | opt hp => exact .present (ih hp)
  | done =>
    cases hp with
    | many hp => exact .done hp
  | again _ _ ih ih' =>
    cases hp with
    | many hp => exact .again (ih hp) (ih' (.many hp))
  | counted h ih =>
    cases hp with
    | blanks =>
      obtain ⟨rfl, rfl⟩ := blanks_iff.mp (.counted h)
      exact .blanks
    | counted hp => exact .counted (ih hp)

end Derives

namespace Lays

variable {here stop : Cursor} {p : Pattern} {ts : List (Tree Rule)}

/-- Parts laid out one after the other are a derivation. -/
theorem derives (h : Lays p here stop ts) : Derives p here stop ts := by
  induction h with
  | empty => exact .empty
  | text _ h => exact .text h
  | blanks => exact Derives.blanks_iff.mpr ⟨rfl, rfl⟩
  | token hr _ h hu => exact .token hr h hu
  | rule hr _ _ settled ih => exact .rule hr ih settled
  | seq _ _ ih ih' => exact .seq ih ih'
  | left _ ih => exact .left ih
  | right _ ih => exact .right ih
  | absent => exact .absent
  | present _ ih => exact .present ih
  | done hp =>
    refine .done fun accepts h => ?_
    subst h
    cases hp with
    | counted hp => cases hp
  | again _ _ ih ih' => exact .again ih ih'
  | counted _ ih => exact .counted ih

/-- What is laid out moves over a text. -/
theorem moves (h : Lays p here stop ts) : ∃ u, here.Moves u stop := h.derives.moves

end Lays

/-- Whether a rule ends by itself, so that its nodes cover no blanks at their end. -/
def Rule.endsTight : Rule → Bool
  | expression | expr | logicalOr | logicalAnd | comparison | additive | multiplicative | callArg
  | dictEntry | literalDictEntry | lambdaParams => false
  | _ => true

/-- Whether a pattern takes no blanks at its end. -/
def Pattern.endsTight : Pattern → Bool
  | empty | text _ => true
  | rule r => r.endsTight
  | seq p q => q.endsTight && (p.endsTight || !q.mayBeEmpty)
  | choice p q => p.endsTight && q.endsTight
  | many p | opt p | counted p => p.endsTight
  | _ => false

/-- A rule that ends tight has a pattern that does. -/
theorem Rule.pattern_endsTight {r : Rule} (hr : r.isToken = false) (h : r.endsTight = true) :
    r.pattern.endsTight = true := by
  cases r <;> first | (cases hr; done) | (cases h; done) | rfl

/-- What a tight pattern takes ends in no blank. -/
theorem Lays.endsInk {here stop : Cursor} {p : Pattern} {ts : List (Tree Rule)}
    (h : Lays p here stop ts) (hp : p.endsTight = true) {u : List Char} (hmove : here.Moves u stop) :
    u = [] ∨ EndsInk u := by
  induction h generalizing u with
  | empty | absent | done => exact .inl ((Cursor.Moves.refl _).text_unique hmove).symm
  | text hink h => exact .inr (h.text_unique hmove ▸ endsInk_of_run hink)
  | blanks => cases hp
  | token _ hr' h hu => exact .inr (h.text_unique hmove ▸ Rule.lexeme_endsInk hr' hu)
  | rule hr _ _ _ ih => exact ih (Rule.pattern_endsTight hr hp) hmove
  | seq h h' ih ih' =>
    obtain ⟨v, w, rfl, hv, hw⟩ := h.derives.split_text h'.derives hmove
    obtain ⟨hq, hp⟩ := Bool.and_eq_true_iff.mp hp
    rcases ih' hq hw with rfl | ⟨x, c, rfl, hc⟩
    · rcases Bool.or_eq_true_iff.mp hp with hp | hempty
      · rw [List.append_nil]
        exact ih hp hv
      · exact (h'.derives.not_moves_nil (by simpa using hempty) hw).elim
    · exact .inr ⟨v ++ x, c, by rw [List.append_assoc], hc⟩
  | again h h' ih ih' =>
    obtain ⟨v, w, rfl, hv, hw⟩ := h.derives.split_text h'.derives hmove
    rcases ih' hp hw with rfl | ⟨x, c, rfl, hc⟩
    · rw [List.append_nil]
      exact ih hp hv
    · exact .inr ⟨v ++ x, c, by rw [List.append_assoc], hc⟩
  | left _ ih => exact ih (Bool.and_eq_true_iff.mp hp).1 hmove
  | right _ ih => exact ih (Bool.and_eq_true_iff.mp hp).2 hmove
  | present _ ih | counted _ ih => exact ih hp hmove

end Vimscript
