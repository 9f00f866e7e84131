import Vimscript.Proofs.Expr.Fields

/-!
# Strings read round by round

The string rule and the reading of a string go over the same text without knowing of each other:
the rule takes a backslash with whatever stands behind it or a quote written twice, and the reading
looks one character ahead. They agree round by round. What a string means is what the rounds of the
rule mean one after the other, so no backslash is used twice and none is left over in front of the
closing quote; and a text spelled with one round for each character reads back to itself.
-/

namespace Vimscript

open Pattern Text

/-- The rounds of a repetition from one place to another: the texts that its pattern takes, up to
where it takes nothing more. -/
inductive Rounds (round : Pattern) : Cursor → List (List Char) → Cursor → Prop where
  | done {here : Cursor} (h : Parses round here none) : Rounds round here [] here
  | again {here mid stop : Cursor} {u : List Char} {us : List (List Char)} {nodes : List (Tree Rule)}
    (h : Parses round here (some (mid, nodes))) (hmove : here.Moves u mid)
    (h' : Rounds round mid us stop) : Rounds round here (u :: us) stop

/-- Every reading of a repetition goes by rounds. -/
theorem Parses.rounds {p : Pattern} {here stop : Cursor} {ts : List (Tree Rule)}
    (h : Parses (.many p) here (some (stop, ts))) : ∃ us, Rounds p here us stop := by
  generalize hq : Pattern.many p = q at h
  generalize hres : some (stop, ts) = res at h
  induction h generalizing ts with
  | done h =>
    cases hq
    obtain ⟨rfl, rfl⟩ := Prod.mk.inj (Option.some.inj hres)
    exact ⟨[], .done h⟩
  | again h _ _ ih =>
    cases hq
    obtain ⟨rfl, rfl⟩ := Prod.mk.inj (Option.some.inj hres)
    obtain ⟨u, hmove⟩ := h.moves
    obtain ⟨us, hus⟩ := ih rfl rfl
    exact ⟨u :: us, .again h hmove hus⟩
  | _ => cases hq

/-- The rounds make up the text between the two places. -/
theorem Rounds.moves {p : Pattern} {here stop : Cursor} {us : List (List Char)}
    (h : Rounds p here us stop) : here.Moves us.flatten stop := by
  induction h with
  | done => exact .refl _
  | again _ hmove _ ih => exact hmove.trans ih

namespace Text

/-- The quotes between which a string can stand. -/
inductive Quotes where
  | double
  | single

namespace Quotes

/-- The quote at both ends. -/
def mark : Quotes → Char
  | double => '"'
  | single => '\''

/-- What is repeated between the quotes. -/
def round : Quotes → Pattern
  | double => Parses.doubleRound
  | single => Parses.singleRound

/-- A string between quotes of a kind, as the grammar writes it. -/
def pattern (quotes : Quotes) : Pattern :=
  tight [.text [quotes.mark], Pattern.star quotes.round, .text [quotes.mark]]

/-- What a round stands for: a quote or a backslash behind a backslash stands for itself, a quote
written twice for one, and everything else, other pairs with a backslash included, for what it is. -/
def meaning : Quotes → List Char → List Char
  | double, ['\\', '"'] => ['"']
  | double, ['\\', '\\'] => ['\\']
  | single, ['\'', '\''] => ['\'']
  | _, u => u

/-- The round that stands for a character. -/
def spell (quotes : Quotes) (c : Char) : List Char :=
  match quotes with
  | double => if c = '"' ∨ c = '\\' then ['\\', c] else [c]
  | single => if c = '\'' then ['\'', '\''] else [c]

/-- A string between quotes of a kind, spelled character by character. -/
def encode (quotes : Quotes) (text : List Char) : List Char :=
  quotes.mark :: text.flatMap quotes.spell ++ [quotes.mark]

/-- What a round can be. -/
def IsUnit : Quotes → List Char → Prop
  | double => Parses.DoubleUnit
  | single => Parses.SingleUnit

/-- How the text between quotes of a kind is read. -/
def unescape : Quotes → List Char → List Char
  | double => Quoted.unescapeDouble
  | single => Quoted.unescapeSingle

variable {quotes : Quotes} {u : List Char} {us : List (List Char)}

/-- The string rule takes a string between quotes of either kind. -/
theorem string_pattern :
    Rule.string.pattern = tokenBody (firstOf [double.pattern, single.pattern]) := rfl

/-- A round takes one unit of the text between quotes. -/
theorem round_some_iff {here stop : Cursor} {ts : List (Tree Rule)} :
    Parses quotes.round here (some (stop, ts)) ↔
      ∃ u, quotes.IsUnit u ∧ here.Moves u stop ∧ ts = [] := by
  cases quotes with
  | double => exact Parses.doubleRound_some_iff
  | single => exact Parses.singleRound_some_iff

/-- All that rounds take are units. -/
theorem isUnit_of_rounds {here stop : Cursor} (h : Rounds quotes.round here us stop) :
    ∀ u ∈ us, quotes.IsUnit u := by
  induction h with
  | done => nofun
  | again h hmove _ ih =>
    obtain ⟨v, hv, hmove', -⟩ := round_some_iff.mp h
    obtain rfl := hmove.text_unique hmove'
    exact List.forall_mem_cons.mpr ⟨hv, ih⟩

/-- A character alone is no pair. -/
theorem meaning_singleton (quotes : Quotes) (c : Char) : quotes.meaning [c] = [c] := by
  cases quotes <;> simp [meaning]

/-- The character spelled by a round is what the round stands for. -/
theorem meaning_spell (quotes : Quotes) (c : Char) : quotes.meaning (quotes.spell c) = [c] := by
  cases quotes with
  | double =>
    by_cases h : c = '"' ∨ c = '\\'
    · rw [spell, if_pos h]
      rcases h with rfl | rfl <;> rfl
    · rw [spell, if_neg h, meaning_singleton]
  | single =>
    by_cases h : c = '\''
    · rw [spell, if_pos h, h]
      rfl
    · rw [spell, if_neg h, meaning_singleton]

/-- A character is spelt as one unit. -/
theorem isUnit_spell (quotes : Quotes) (c : Char) : quotes.IsUnit (quotes.spell c) := by
  cases quotes with
  | double =>
    by_cases h : c = '"' ∨ c = '\\'
    · rw [spell, if_pos h]
      exact .inl ⟨c, rfl⟩
    · rw [spell, if_neg h]
      exact .inr ⟨c, rfl, not_or.mp h⟩
  | single =>
    by_cases h : c = '\''
    · rw [spell, if_pos h]
      exact .inl rfl
    · rw [spell, if_neg h]
      exact .inr ⟨c, rfl, h⟩

/-- A text is spelt unit by unit. -/
theorem forall_isUnit_spell (quotes : Quotes) (text : List Char) :
    ∀ u ∈ text.map quotes.spell, quotes.IsUnit u :=
  List.forall_mem_map.mpr fun c _ => quotes.isUnit_spell c

/-- Reading takes exactly one round off the front, whatever stands behind it. -/
theorem unescape_append (hu : quotes.IsUnit u) (rest : List Char) :
    quotes.unescape (u ++ rest) = quotes.meaning u ++ quotes.unescape rest := by
  cases quotes with
  | double =>
    rcases hu with ⟨c, rfl⟩ | ⟨c, rfl, hquote, hslash⟩
    · by_cases hquote : c = '"'
      · subst hquote
        rfl
      · by_cases hslash : c = '\\'
        · subst hslash
          rfl
        · -- The pair stays, and its second character begins no other.
          simp [unescape, meaning, Quoted.unescapeDouble, hquote, hslash]
    · simp [unescape, meaning, Quoted.unescapeDouble, hslash]
  | single =>
    rcases hu with rfl | ⟨c, rfl, hquote⟩
    · rfl
    · simp [unescape, meaning, Quoted.unescapeSingle, hquote]

/-- Decoding units one behind the other gives their meanings one behind the other. -/
theorem unescape_flatten (hus : ∀ u ∈ us, quotes.IsUnit u) :
    quotes.unescape us.flatten = us.flatMap quotes.meaning := by
  induction us with
  | nil => cases quotes <;> rfl
  | cons u us ih =>
    obtain ⟨hu, hus⟩ := List.forall_mem_cons.mp hus
    rw [List.flatten_cons, unescape_append hu, ih hus, List.flatMap_cons]

/-- A text between quotes is read by the quotes that it begins with. -/
theorem decode_quoted (quotes : Quotes) (body : List Char) :
    Quoted.decode (quotes.mark :: body ++ [quotes.mark]) = some (quotes.unescape body) := by
  have hbody (c : Char) : Quoted.body? c (c :: body ++ [c]) = some body := by
    rw [List.cons_append, Quoted.body?, if_pos ⟨rfl, by rw [List.getLast?_concat]⟩,
      List.dropLast_concat]
  cases quotes with
  | double => simp only [Quoted.decode, mark, hbody, unescape]
  | single =>
    have hother : Quoted.body? '"' ('\'' :: body ++ ['\'']) = none := rfl
    simp only [Quoted.decode, mark, hother, hbody, Option.map_some, unescape]

/-- The spelling of a text is made of rounds that stand for its characters. -/
theorem unescape_spell (quotes : Quotes) (text : List Char) :
    quotes.unescape (text.flatMap quotes.spell) = text := by
  rw [List.flatMap_def, unescape_flatten (quotes.forall_isUnit_spell text), List.flatMap_map]
  simp only [meaning_spell, List.flatMap_singleton']

/-- The string rule takes the spelling of every text. -/
theorem lexeme_encode (quotes : Quotes) (text : List Char) :
    Rule.string.Lexeme (quotes.encode text) [] := by
  have hunits := quotes.forall_isUnit_spell text
  rw [encode, List.flatMap_def]
  cases quotes with
  | double => exact .inl ⟨_, Parses.doubleBody_iff.mpr ⟨_, hunits, rfl⟩, rfl⟩
  | single => exact .inr ⟨_, Parses.singleBody_iff.mpr ⟨_, hunits, rfl⟩, rfl, nofun⟩

end Quotes

end Text

namespace Rule

variable {r : Rule} {text : List Char}

/-- Whether a rule matches the whole of a text: it does so in a run with some number of steps. -/
def MatchesWhole (r : Rule) (text : List Char) : Prop :=
  ∃ calls, (r.runOn calls text).isWhole calls = true

/-- A rule matches a whole text if it is read and nothing is left of it. -/
theorem matchesWhole_iff : r.MatchesWhole text ↔
    ∃ stop ts, Parses (.rule r) (.start text) (some (stop, ts)) ∧ stop.rest = [] := by
  constructor
  · rintro ⟨calls, h⟩
    obtain ⟨stop, ts, trace, hrun, hcalls, hstop⟩ := Outcome.exists_of_isWhole h
    exact ⟨stop, ts, parses_of_runOn hrun hcalls, hstop⟩
  · rintro ⟨stop, ts, h, hstop⟩
    obtain ⟨steps, hsteps⟩ := run_of_parses h
    obtain ⟨trace, rfl, hrun⟩ := hsteps (steps + 1) (Nat.le_succ steps)
    refine ⟨trace.calls + 1, ?_⟩
    rw [hrun]
    exact Bool.and_eq_true_iff.mpr ⟨decide_eq_true (Nat.lt_succ_self _), List.isEmpty_iff.mpr hstop⟩

/-- The string rule goes through a text that it matches by the rounds between quotes of a kind. -/
theorem MatchesWhole.rounds (h : string.MatchesWhole text) :
    ∃ (quotes : Quotes) (units : List (List Char)) (here stop : Cursor),
      (Cursor.start text).Moves [quotes.mark] here ∧ Rounds quotes.round here units stop ∧
        stop.rest = [quotes.mark] := by
  obtain ⟨stop, ts, hparses, hstop⟩ := matchesWhole_iff.mp h
  obtain ⟨_, hpattern, -⟩ := Parses.rule_some_iff.mp hparses
  obtain ⟨quotes, us, hquotes⟩ : ∃ (quotes : Quotes) (us : List (Tree Rule)),
      Parses quotes.pattern (.start text) (some (stop, us)) := by
    rw [Quotes.string_pattern, tokenBody, Parses.counted_iff] at hpattern
    rcases Parses.choice_some_iff.mp hpattern with h | ⟨-, h⟩
    · exact ⟨.double, _, h⟩
    · exact ⟨.single, _, h⟩
  obtain ⟨here, _, _, hopen, hrest, -⟩ := Parses.seq_some_iff.mp (Parses.counted_iff.mp hquotes)
  obtain ⟨last, _, _, hmany, hclose, -⟩ := Parses.seq_some_iff.mp hrest
  obtain ⟨hopen, -⟩ := Parses.text_some_iff.mp hopen
  obtain ⟨hclose, -⟩ := Parses.text_some_iff.mp hclose
  obtain ⟨units, hunits⟩ := (Parses.counted_iff.mp hmany).rounds
  refine ⟨quotes, units, here, last, hopen, hunits, ?_⟩
  rw [hclose.rest_eq, hstop, List.append_nil]

/-- The string rule matches the whole spelling of a text, which reads back to the text. -/
theorem string_encode (quotes : Quotes) (text : List Char) :
    string.MatchesWhole (quotes.encode text) ∧ Quoted.decode (quotes.encode text) = some text := by
  constructor
  · have hmove : (Cursor.start (quotes.encode text)).Moves (quotes.encode text) _ :=
      .of_rest_eq (List.append_nil _).symm
    exact matchesWhole_iff.mpr ⟨_, _, (Parses.token_iff rfl).mpr
      ⟨_, hmove, quotes.lexeme_encode text, rfl⟩, rfl⟩
  · rw [Quotes.encode, Quotes.decode_quoted, Quotes.unescape_spell]

/-- Strings are read round by round, each round once: a text that the string rule matches means what
the rounds of the repetition mean one after the other. So the printed form of a text, and the text
between double quotes with a backslash in front of each quote and each backslash, are matched whole
and read back to the text. -/
theorem string_reads_rounds :
    (∀ text, string.MatchesWhole text →
      ∃ (quotes : Quotes) (units : List (List Char)) (here stop : Cursor),
        (Cursor.start text).Moves [quotes.mark] here ∧ Rounds quotes.round here units stop ∧
          stop.rest = [quotes.mark] ∧ text = quotes.mark :: units.flatten ++ [quotes.mark] ∧
          Quoted.decode text = some (units.flatMap quotes.meaning)) ∧
    ∀ text, ∀ quoted ∈ [(Literal.string text).source, Quotes.double.encode text],
      string.MatchesWhole quoted ∧ Quoted.decode quoted = some text := by
  constructor
  · intro text h
    obtain ⟨quotes, units, here, stop, hopen, hunits, hstop⟩ := h.rounds
    have htext : text = quotes.mark :: units.flatten ++ [quotes.mark] := by
      have hwhole := (hopen.trans hunits.moves).rest_eq
      rwa [hstop] at hwhole
    refine ⟨quotes, units, here, stop, hopen, hunits, hstop, htext, ?_⟩
    rw [htext, Quotes.decode_quoted, Quotes.unescape_flatten (Quotes.isUnit_of_rounds hunits)]
  · intro text quoted hquoted
    rcases List.mem_pair.mp hquoted with rfl | rfl
    · exact string_encode .single text
    · exact string_encode .double text

/-- A run of backslashes that ends at the closing quote, behind a pair that is kept. -/
theorem string_reads_rounds_backslashes :
    string.MatchesWhole "\"\\n\\\\\\\"\\\\\"".toList ∧
      Quoted.decode "\"\\n\\\\\\\"\\\\\"".toList = some "\\n\\\"\\".toList ∧
      ∃ units, "\"\\n\\\\\\\"\\\\\"".toList = '"' :: List.flatten units ++ ['"'] ∧
        units.flatMap Quotes.double.meaning = "\\n\\\"\\".toList := by
  have hwhole : string.MatchesWhole "\"\\n\\\\\\\"\\\\\"".toList := ⟨1000, by decide +kernel⟩
  have hdecode : Quoted.decode "\"\\n\\\\\\\"\\\\\"".toList = some "\\n\\\"\\".toList := by decide
  obtain ⟨quotes, units, _, _, hopen, -, -, htext, hmeaning⟩ := string_reads_rounds.1 _ hwhole
  cases quotes with
  | double => exact ⟨hwhole, hdecode, units, htext, Option.some.inj (hmeaning.symm.trans hdecode)⟩
  | single => cases (List.cons.inj hopen.rest_eq).1

end Rule

end Vimscript
