import Vimscript.Proofs.Grammar.Token

/-!
# Derivations

The grammar read without an order of choice: a text derives from a pattern when some alternative,
some number of rounds and some presence of optional parts account for it. Tokens keep their
lexemes and runs of blanks stay as long as they can be. Four rules would have two derivations over
one text; `Rule.Settled` says which of the two counts. Matching yields derivations only; that each
derivation is also what matching yields is shown elsewhere.
-/

namespace Vimscript

@[simp] theorem Rule.node_label (r : Rule) (here stop : Cursor) (children : List (Tree Rule)) :
    (r.node here stop children).label = r := rfl

@[simp] theorem Rule.node_children (r : Rule) (here stop : Cursor) (children : List (Tree Rule)) :
    (r.node here stop children).children = children := rfl

/-- A node holds the text that was moved over. -/
theorem Cursor.Moves.node_text {here stop : Cursor} {u : List Char} (h : here.Moves u stop)
    {r : Rule} {children : List (Tree Rule)} : (r.node here stop children).text = u :=
  h.excerpt_toList

namespace Tree

/-- Lists are mapped tree by tree. -/
theorem mapAll_eq_map {Label Other : Type} (f : Label → Other) (ts : List (Tree Label)) :
    mapAll f ts = ts.map (map f) := by
  induction ts with
  | nil => rfl
  | cons t rest ih => rw [mapAll, ih, List.map_cons]

/-- A node of tags has the tag of its rule and keeps its place and its text. -/
theorem map_node {r : Rule} {here stop : Cursor} {children : List (Tree Rule)} :
    (r.node here stop children).map Rule.tag = .node r.tag ⟨here.offset, stop.offset⟩
      ⟨here.rest, stop.offset - here.offset⟩ (children.map (map Rule.tag)) := by
  rw [Rule.node, map, mapAll_eq_map]

/-- Tags are those of the rules. -/
theorem label_map (t : Tree Rule) : (t.map Rule.tag).label = t.label.tag := by
  cases t
  rw [map]
  rfl

/-- Texts stay when rules become tags. -/
theorem text_map (t : Tree Rule) : (t.map Rule.tag).text = t.text := by
  cases t
  rw [map]
  rfl

/-- So do spans. -/
theorem span_map (t : Tree Rule) : (t.map Rule.tag).span = t.span := by
  cases t
  rw [map]
  rfl

end Tree

/-- Whether arguments right behind a primary are taken by the primary itself: it is a variable
with the name of a function, or a lambda without arguments. -/
def Tree.takesCall : Tree Rule → Bool
  | .node .primary _ _ [inner] => inner.takesCall
  | .node .variableRef _ _ parts =>
    parts.getLast?.any fun name => name.text.head?.any Text.isNameStart
  | .node .lambdaExpr _ _ [_] => true
  | _ => false

/-- Which derivation of a rule counts where a text has two: digits before a point and a digit
belong to a float, a letter before a colon is a scope where it can be one, and a call by name or
of a lambda is no call of a value. -/
def Rule.Settled : Rule → List (Tree Rule) → List Char → Prop
  | .primary, [.node .integer _ excerpt _], rest => excerpt.toList.all Char.isDigit = true →
    ∀ d more, rest = '.' :: d :: more → d.isDigit = false
  | .variableRef, [name], rest => ∀ c, name.text = [c] → Text.isScopeLetter c = true →
    ∀ d more, rest = ':' :: d :: more → Text.isNameChar d = false
  | .option, [name], rest => name.text = ['g'] ∨ name.text = ['l'] → Text.EndsBefore (· == ':') rest
  | .postfixed, first :: second :: _, _ => first.takesCall = true → second.label ≠ .callArgs
  | _, _, _ => True

/-- What a pattern derives between two places, with the nodes that it adds. -/
inductive Derives : Pattern → Cursor → Cursor → List (Tree Rule) → Prop where
  | empty {here : Cursor} : Derives .empty here here []
  | text {here stop : Cursor} {chars : List Char} (h : here.Moves chars stop) :
    Derives (.text chars) here stop []
  | char {here stop : Cursor} {accepts : Char → Bool} {c : Char} (hc : accepts c = true)
    (h : here.Moves [c] stop) : Derives (.char accepts) here stop []
  | token {here stop : Cursor} {r : Rule} {u : List Char} (hr : r.isToken = true)
    (h : here.Moves u stop) (hu : r.Lexeme u stop.rest) :
    Derives (.rule r) here stop [r.node here stop []]
  | rule {here stop : Cursor} {r : Rule} {children : List (Tree Rule)} (hr : r.isToken = false)
    (h : Derives r.pattern here stop children) (settled : r.Settled children stop.rest) :
    Derives (.rule r) here stop [r.node here stop children]
  | seq {here mid stop : Cursor} {p q : Pattern} {us vs : List (Tree Rule)}
    (h : Derives p here mid us) (h' : Derives q mid stop vs) :
    Derives (.seq p q) here stop (us ++ vs)
  | left {here stop : Cursor} {p q : Pattern} {ts : List (Tree Rule)} (h : Derives p here stop ts) :
    Derives (.choice p q) here stop ts
  | right {here stop : Cursor} {p q : Pattern} {ts : List (Tree Rule)}
    (h : Derives q here stop ts) : Derives (.choice p q) here stop ts
  | absent {here : Cursor} {p : Pattern} : Derives (.opt p) here here []
  | present {here stop : Cursor} {p : Pattern} {ts : List (Tree Rule)} (h : Derives p here stop ts) :
    Derives (.opt p) here stop ts
  /-- No further round; a run of a class goes as far as the class does. -/
  | done {here : Cursor} {p : Pattern} (longest : ∀ accepts, p = .counted (.char accepts) →
      Text.EndsBefore accepts here.rest) : Derives (.many p) here here []
  | again {here mid stop : Cursor} {p : Pattern} {us vs : List (Tree Rule)}
    (h : Derives p here mid us) (h' : Derives (.many p) mid stop vs) :
    Derives (.many p) here stop (us ++ vs)
  | counted {here stop : Cursor} {p : Pattern} {ts : List (Tree Rule)} (h : Derives p here stop ts) :
    Derives (.counted p) here stop ts

namespace Derives

variable {here stop : Cursor} {p q : Pattern} {r : Rule} {ts : List (Tree Rule)}

/-- Counting depth changes no derivation. -/
@[simp] theorem counted_iff : Derives (.counted p) here stop ts ↔ Derives p here stop ts :=
  ⟨fun h => by cases h with | counted h => exact h, .counted⟩

/-- The empty pattern derives nothing, where it stands. -/
@[simp] theorem empty_iff : Derives .empty here stop ts ↔ stop = here ∧ ts = [] :=
  ⟨fun h => by cases h; exact ⟨rfl, rfl⟩, fun ⟨h, h'⟩ => h ▸ h' ▸ .empty⟩

/-- A text derives itself. -/
@[simp] theorem text_iff {chars : List Char} :
    Derives (.text chars) here stop ts ↔ here.Moves chars stop ∧ ts = [] :=
  ⟨fun h => by cases h with | text h => exact ⟨h, rfl⟩, fun ⟨h, h'⟩ => h' ▸ .text h⟩

/-- A class derives one of its characters. -/
theorem char_iff {accepts : Char → Bool} : Derives (.char accepts) here stop ts ↔
    ∃ c, accepts c = true ∧ here.Moves [c] stop ∧ ts = [] :=
  ⟨fun h => by cases h with | char hc h => exact ⟨_, hc, h, rfl⟩,
    fun ⟨_, hc, h, h'⟩ => h' ▸ .char hc h⟩

/-- A sequence derives its parts one behind the other. -/
theorem seq_iff : Derives (.seq p q) here stop ts ↔
    ∃ mid us vs, Derives p here mid us ∧ Derives q mid stop vs ∧ ts = us ++ vs :=
  ⟨fun h => by cases h with | seq h h' => exact ⟨_, _, _, h, h', rfl⟩,
    fun ⟨_, _, _, h, h', e⟩ => e ▸ .seq h h'⟩

/-- A choice derives what either side does. -/
theorem choice_iff : Derives (.choice p q) here stop ts ↔
    Derives p here stop ts ∨ Derives q here stop ts := by
  constructor
  · intro h
    cases h with
    | left h => exact .inl h
    | right h => exact .inr h
  · rintro (h | h)
    · exact .left h
    · exact .right h

/-- An optional pattern derives nothing or what the pattern does. -/
theorem opt_iff : Derives (.opt p) here stop ts ↔
    stop = here ∧ ts = [] ∨ Derives p here stop ts := by
  constructor
  · intro h
    cases h with
    | absent => exact .inl ⟨rfl, rfl⟩
    | present h => exact .inr h
  · rintro (⟨rfl, rfl⟩ | h)
    · exact .absent
    · exact .present h

/-- A repetition derives round after round, and a class of characters is repeated as long as it can
be. -/
theorem many_iff : Derives (.many p) here stop ts ↔
    (∀ accepts, p = .counted (.char accepts) → Text.EndsBefore accepts here.rest) ∧
        stop = here ∧ ts = [] ∨
      ∃ mid us vs, Derives p here mid us ∧ Derives (.many p) mid stop vs ∧ ts = us ++ vs := by
  constructor
  · intro h
    cases h with
    | done longest => exact .inl ⟨longest, rfl, rfl⟩
    | again h h' => exact .inr ⟨_, _, _, h, h', rfl⟩
  · rintro (⟨longest, rfl, rfl⟩ | ⟨_, _, _, h, h', rfl⟩)
    · exact .done longest
    · exact .again h h'

/-- A token derives its lexemes. -/
theorem token_iff (hr : r.isToken = true) : Derives (.rule r) here stop ts ↔
    ∃ u, here.Moves u stop ∧ r.Lexeme u stop.rest ∧ ts = [r.node here stop []] := by
  constructor
  · intro h
    cases h with
    | token _ h hu => exact ⟨_, h, hu, rfl⟩
    | rule hr' => rw [hr] at hr'; cases hr'
  · rintro ⟨_, h, hu, rfl⟩
    exact .token hr h hu

/-- Another rule derives a node over what its pattern derives, if the node is settled. -/
theorem rule_iff (hr : r.isToken = false) : Derives (.rule r) here stop ts ↔
    ∃ children, Derives r.pattern here stop children ∧ r.Settled children stop.rest ∧
      ts = [r.node here stop children] := by
  constructor
  · intro h
    cases h with
    | token hr' => rw [hr] at hr'; cases hr'
    | rule _ h settled => exact ⟨_, h, settled, rfl⟩
  · rintro ⟨_, h, settled, rfl⟩
    exact .rule hr h settled

/-- A derivation accounts for the text between its places. -/
theorem moves (h : Derives p here stop ts) : ∃ u, here.Moves u stop := by
  induction h with
  | empty | absent | done => exact ⟨[], .refl _⟩
  | text h | char _ h | token _ h _ => exact ⟨_, h⟩
  | seq _ _ ih ih' | again _ _ ih ih' =>
    obtain ⟨u, hu⟩ := ih
    obtain ⟨v, hv⟩ := ih'
    exact ⟨_, hu.trans hv⟩
  | rule _ _ _ ih | left _ ih | right _ ih | present _ ih | counted _ ih => exact ih

/-- The text of one derivation in front of another is divided between the two. -/
theorem split_text {mid : Cursor} {us : List (Tree Rule)} {u : List Char}
    (h : Derives p here mid ts) (h' : Derives q mid stop us) (hmove : here.Moves u stop) :
    ∃ v w, u = v ++ w ∧ here.Moves v mid ∧ mid.Moves w stop := by
  obtain ⟨v, hv⟩ := h.moves
  obtain ⟨w, hw⟩ := h'.moves
  exact ⟨v, w, hmove.text_unique (hv.trans hw), hv, hw⟩

/-- The text of a node is what its derivation takes. -/
theorem moves_text {t : Tree Rule} (h : Derives (.rule r) here stop [t]) :
    here.Moves t.text stop := by
  obtain ⟨u, hu⟩ := h.moves
  generalize hts : [t] = ts at h
  cases h with
  | token | rule =>
    obtain rfl := List.singleton_inj.mp hts
    rwa [hu.node_text]

/-- A derivation leaves no more text than there was. -/
theorem length_le (h : Derives p here stop ts) : stop.rest.length ≤ here.rest.length := by
  obtain ⟨u, hu⟩ := h.moves
  exact hu.length_le

/-- Blanks are taken as far as they go. -/
theorem blanks_iff : Derives .blanks here stop ts ↔ stop = here.skipSpaces ∧ ts = [] := by
  constructor
  · intro h
    have h := counted_iff.mp h
    generalize hq : Pattern.many (.counted (.char Text.isSpace)) = q at h
    have moves : ∃ u, u.all Text.isSpace = true ∧ here.Moves u stop ∧
        Text.EndsBefore Text.isSpace stop.rest ∧ ts = [] := by
      induction h with
      | done longest =>
        cases hq
        exact ⟨[], rfl, .refl _, longest _ rfl, rfl⟩
      | again h _ _ ih =>
        cases hq
        obtain ⟨c, hc, hmove, rfl⟩ := char_iff.mp (counted_iff.mp h)
        obtain ⟨u, hu, hmoves, hend, rfl⟩ := ih (.counted ‹_›) rfl
        exact ⟨c :: u, by rw [List.all_cons, hc, hu]; rfl, hmove.trans hmoves, hend, rfl⟩
      | _ => cases hq
    have same := (Parses.blanks here).unique
      (.counted ((Parses.many_char_some_iff fun _ _ => Parses.counted_iff).mpr moves))
    obtain ⟨rfl, rfl⟩ := Prod.mk.inj (Option.some.inj same)
    exact ⟨rfl, rfl⟩
  · rintro ⟨rfl, rfl⟩
    obtain ⟨u, hu, hmoves, hend, -⟩ :=
      (Parses.many_char_some_iff fun _ _ => Parses.counted_iff).mp
        (Parses.counted_iff.mp (Parses.blanks here))
    refine .counted ?_
    generalize here.skipSpaces = stop at hmoves hend
    induction u generalizing here with
    | nil =>
      obtain rfl := (Cursor.Moves.refl here).stop_unique hmoves
      refine .done fun accepts h => ?_
      cases h
      exact hend
    | cons c u ih =>
      obtain ⟨hc, hu⟩ := Bool.and_eq_true_iff.mp (List.all_cons ▸ hu)
      obtain ⟨mid, hfirst, hmoves⟩ := Cursor.Moves.cons_iff.mp hmoves
      exact .again (.counted (.char hc hfirst)) (ih hu hmoves)

end Derives

end Vimscript
