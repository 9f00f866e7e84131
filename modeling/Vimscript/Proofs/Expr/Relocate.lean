import Vimscript.Proofs.Expr.Places

/-!
# Moving a derivation to another text

What derives in front of the blanks at the end of a source derives over each text that has other
blanks in the places of blanks outside strings, in front of any text in which an expression can
end. What derives in front of the first character of a reference derives whatever follows that
character. The nodes of the two derivations read alike; only the blanks in them differ.
-/

namespace Vimscript

open Pattern Text

namespace Relocation

open Piece

variable (m : Relocation)

/-- Nodes over the same part of the text but for blanks at their ends. -/
structure Moved (t t' : Tree Rule) : Prop where
  label : t.label = t'.label
  trees : Likeness.ofBudgets.Trees (t.map Rule.tag) (t'.map Rule.tag)
  start : m.Offsets t.span.start t'.span.start
  stop : m.Offsets t.span.stop t'.span.stop
  token : t.label.isToken = true → t.text = t'.text
  endsBlank : t.span.stop < m.stop .old → Tree.endsBlank t.text = Tree.endsBlank t'.text
  head : ∀ c v, t.text = c :: v → isSpace c = false →
    t.span.start < m.stop .old ∧ t'.text.head? = some c
  takesCall : t.takesCall = t'.takesCall

variable {m} {here here' stop stop' : Cursor} {r : Rule} {u w : List Char}
  {ts ts' children children' : List (Tree Rule)}

/-- Trees that were moved one by one read alike as lists. -/
theorem forest_of_moved (h : List.Forall₂ m.Moved ts ts') :
    Likeness.ofBudgets.Forest (ts.map (Tree.map Rule.tag)) (ts'.map (Tree.map Rule.tag)) := by
  induction h with
  | nil => exact trivial
  | cons h _ ih => exact ⟨h.trees, ih⟩

/-- Where a node begins behind its left neighbour and with no blank, the blanks between the two are
the same. -/
theorem apart_of_moved {a a' b b' : Tree Rule} (ha : m.Moved a a') (hb : m.Moved b b')
    (hle : a.span.stop ≤ b.span.start) {c : Char} {v : List Char} (hc : isSpace c = false)
    (htext : b.text = c :: v) : Tree.apart a b = Tree.apart a' b' := by
  obtain ⟨hlt, hhead⟩ := hb.head c v htext hc
  have hends := ha.endsBlank (by omega)
  have hbegins : Tree.beginsBlank b.text = Tree.beginsBlank b'.text := by
    rw [Tree.beginsBlank, Tree.beginsBlank, hhead, htext]
    rfl
  have hspans : (a.span.stop = b.span.start) ↔ (a'.span.stop = b'.span.start) := by
    rcases ha.stop with ⟨ps, hps, hold, hnew⟩ | ⟨hk, -⟩
    · rcases hb.start with ⟨qs, hqs, hold', hnew'⟩ | ⟨hn, -⟩
      · have hsame := (Piece.byteLength_spell_inj .old hps hqs).trans
          (Piece.byteLength_spell_inj .new hps hqs).symm
        omega
      · omega
    · omega
  rw [Tree.apart, Tree.apart, hends, hbegins, Bool.eq_iff_iff]
  simp only [Bool.or_eq_true, bne_iff_ne, ne_eq, hspans]

/-- A blank stands between moved neighbours exactly if one stands between the neighbours. -/
theorem anyApart_of_moved (h : List.Forall₂ m.Moved ts ts')
    (hchain : ts.IsChain fun a b => a.span.stop ≤ b.span.start ∧
      ∃ c v, b.text = c :: v ∧ isSpace c = false) : Tree.anyApart ts = Tree.anyApart ts' := by
  induction h with
  | nil => rfl
  | cons ha hrest ih =>
    cases hrest with
    | nil => rfl
    | cons hb hrest =>
      obtain ⟨⟨hle, c, v, htext, hc⟩, hchain⟩ := List.isChain_cons_cons.mp hchain
      rw [Tree.anyApart, Tree.anyApart, apart_of_moved ha hb hle hc htext, ih hchain]

/-- A token moves with the text. -/
theorem Places.token (h : m.Places here here') (hr : r.isToken = true) (hr' : r ≠ .endOfInput)
    (hmove : here.Moves u stop) (hu : r.Lexeme u stop.rest) (hreach : m.Reaches stop)
    (hstring : r = .string → m.Spares ⟨here.offset, stop.offset⟩) : ∃ stop', here'.Moves u stop' ∧
      m.Inside stop stop' ∧ r.Lexeme u stop'.rest ∧
        m.Moved (r.node here stop []) (r.node here' stop' []) := by
  have hopen := Rule.lexeme_endsOpen hr' hu
  obtain ⟨stop', hmove', hinside⟩ := h.move hopen.endsInk hmove hreach <| by
    by_cases heq : r = .string
    · exact .inr (hstring heq)
    · exact .inl (all_of_all (Rule.lexeme_all_isTokenChar heq hu) fun c hc => by
        rw [isSpace_of_isTokenChar hc]
        rfl)
  refine ⟨stop', hmove', hinside,
    Rule.lexeme_of_parting hr' hu (h.parting hinside hreach hopen hmove), ?_⟩
  · have htext : (r.node here stop []).text = (r.node here' stop' []).text := by
      rw [hmove.node_text, hmove'.node_text]
    refine ⟨rfl, ?_, h.offsets, (Places.inside hinside).offsets, fun _ => htext,
      fun _ => by rw [htext], fun c v hcons hc => ?_, ?_⟩
    · rw [Tree.map_node, Tree.map_node]
      exact ⟨rfl, rfl, fun _ => htext, congrArg (fun text => key? (trim text)) htext,
        fun _ n => by rw [List.map_nil, List.drop_nil]; rfl, trivial⟩
    · rw [hmove.node_text] at hcons
      subst hcons
      rw [hmove'.node_text]
      exact h.head_of_texts (.inside hinside) hmove hmove' hc
    · cases r <;> rfl

/-- Whether a node takes a call is told alike from nodes that read alike. -/
theorem takesCall_of_moved (h : List.Forall₂ m.Moved children children')
    (hlabels : Labels r.pattern (children.map Tree.label)) :
    (r.node here stop children).takesCall = (r.node here' stop' children').takesCall := by
  cases r with
  | primary =>
    cases h with
    | nil => rfl
    | cons h hrest =>
      cases hrest with
      | nil => exact h.takesCall
      | cons => rfl
  | lambdaExpr =>
    cases h with
    | nil => rfl
    | cons h hrest => cases hrest <;> rfl
  | variableRef =>
    have last {t t' : Tree Rule} (h : m.Moved t t') (hlabel : t.label.isToken = true) :
        (t.text.head?.any isNameStart) = t'.text.head?.any isNameStart := by
      rw [h.token hlabel]
    rcases Rule.variableRef_labels hlabels with hlabels | hlabels
    · obtain ⟨name, rfl, hname⟩ := List.map_eq_singleton_iff.mp hlabels
      obtain ⟨name', _, hmoved, hnil, rfl⟩ := List.forall₂_cons_left_iff.mp h
      cases hnil
      exact last hmoved (congrArg Rule.isToken hname)
    · obtain ⟨letter, rest, rfl, -, hrest⟩ := List.map_eq_cons_iff.mp hlabels
      obtain ⟨name, rfl, hname⟩ := List.map_eq_singleton_iff.mp hrest
      obtain ⟨letter', _, -, hrest, rfl⟩ := List.forall₂_cons_left_iff.mp h
      obtain ⟨name', _, hmoved, hnil, rfl⟩ := List.forall₂_cons_left_iff.mp hrest
      cases hnil
      exact last hmoved (congrArg Rule.isToken hname)
  | _ => rfl

/-- A node whose last child is a token ends with that token. -/
theorem endsOpen_of_token {t : Tree Rule} (h : Derives r.pattern here stop [t])
    (hlabel : r = .primary ∧ t.label = .integer ∨ r = .variableRef ∨ r = .option) :
    ∃ u, here.Moves u stop ∧ EndsOpen u := by
  have of_token {place : Cursor} {name : Rule} {us : List (Tree Rule)}
      (h : Derives (.rule name) place stop us) (hname : name.isToken = true)
      (hname' : name ≠ .endOfInput) : ∃ u, place.Moves u stop ∧ EndsOpen u := by
    obtain ⟨u, hmove, hu, -⟩ := (Derives.token_iff hname).mp h
    exact ⟨u, hmove, Rule.lexeme_endsOpen hname' hu⟩
  rcases hlabel with ⟨rfl, hlabel⟩ | rfl | rfl
  · rcases Derives.primary_iff.mp h with ⟨r, -, h⟩ | h
    · obtain rfl := h.span_eq.2.symm.trans hlabel
      exact of_token h rfl (by decide)
    · have := Labels.enclosed_iff.mp h.labels
      rw [List.map_singleton, hlabel] at this
      cases this
  · simp only [Rule.pattern, firstOf, tight, chain, Derives.choice_iff, Derives.counted_iff,
      Derives.seq_iff, Derives.call_iff] at h
    rcases h with ⟨mid, us, vs, hscope, hname, -⟩ | h
    · obtain ⟨u, hu⟩ := hscope.moves
      obtain ⟨v, hv, hopen⟩ := of_token hname rfl (by decide)
      exact ⟨u ++ v, hu.trans hv, hopen.append u⟩
    · exact of_token h rfl (by decide)
  · obtain ⟨mid, us, vs, hmark, h, -⟩ := Derives.seq_iff.mp (Derives.counted_iff.mp h)
    obtain ⟨place, us', vs', hscope, h, -⟩ := Derives.seq_iff.mp h
    have hname : Derives (.rule .optionName) place stop vs' := h
    obtain ⟨u, hu⟩ := hmark.moves
    obtain ⟨v, hv⟩ := hscope.moves
    obtain ⟨w, hw, hopen⟩ := of_token hname rfl (by decide)
    exact ⟨u ++ (v ++ w), hu.trans (hv.trans hw), (hopen.append v).append u⟩

/-- Of two derivations of a text the same counts wherever it stands. -/
theorem settled_of_moved (h : List.Forall₂ m.Moved children children')
    (hderives : Derives r.pattern here stop children)
    (hparting : r.endsTight = true → r.mayBeEmpty = false → ∀ u, here.Moves u stop → EndsOpen u →
      Parting stop.rest stop'.rest)
    (hsettled : r.Settled children stop.rest) : r.Settled children' stop'.rest := by
  have seam {d : Char} (hd : isSeam d = true) {accepts : Char → Bool}
      (haccepts : " \t)]\x7d,([".toList.all (fun c => !accepts c) = true) : accepts d = false := by
    have hseam : Seam [d] := seam_cons hd
    exact hseam.endsBefore haccepts d rfl
  cases r with
  | primary =>
    cases h with
    | nil => exact trivial
    | @cons t t' _ _ hmoved hrest =>
      obtain ⟨label, span, excerpt, parts⟩ := t
      obtain ⟨label', span', excerpt', parts'⟩ := t'
      cases hrest with
      | cons => cases label' <;> exact trivial
      | nil =>
        obtain rfl : label = label' := hmoved.label
        cases label <;> try exact trivial
        intro hdigits d more hmore
        obtain ⟨u, hu, hopen⟩ := endsOpen_of_token hderives (.inl ⟨rfl, rfl⟩)
        rcases (hparting rfl rfl u hu hopen).second (by decide) (by decide) hmore with
          hd | ⟨more', hold⟩
        · exact seam hd (by decide)
        · have htext : excerpt.toList = excerpt'.toList := hmoved.token rfl
          exact hsettled (htext ▸ hdigits) d more' hold
  | variableRef =>
    cases h with
    | nil => exact trivial
    | cons hmoved hrest =>
      cases hrest with
      | cons => exact trivial
      | nil =>
        have hname := (Rule.variableRef_labels hderives.labels).resolve_right (by simp)
        have hname := congrArg Rule.isToken (List.cons.inj hname).1
        intro c hc hscope d more hmore
        obtain ⟨u, hu, hopen⟩ := endsOpen_of_token hderives (.inr (.inl rfl))
        rcases (hparting rfl rfl u hu hopen).second (by decide) (by decide) hmore with
          hd | ⟨more', hold⟩
        · exact seam hd (by decide)
        · exact hsettled c (by rw [hmoved.token hname]; exact hc) hscope d more' hold
  | option =>
    cases h with
    | nil => exact trivial
    | cons hmoved hrest =>
      cases hrest with
      | cons => exact trivial
      | nil =>
        have hname := (Rule.option_labels hderives.labels).resolve_right (by simp)
        have hname := congrArg Rule.isToken (List.cons.inj hname).1
        intro htext
        obtain ⟨u, hu, hopen⟩ := endsOpen_of_token hderives (.inr (.inr rfl))
        rw [← hmoved.token hname] at htext
        exact (hparting rfl rfl u hu hopen).endsBefore (hsettled htext) (by decide)
  | postfixed =>
    cases h with
    | nil => exact trivial
    | cons hfirst hrest =>
      cases hrest with
      | nil => exact trivial
      | cons hsecond =>
        intro hcall
        rw [← hsecond.label]
        exact hsettled (hfirst.takesCall ▸ hcall)
  | _ => exact trivial

/-- Blanks stand between the same nodes of a sum. -/
theorem sameGaps_of_moved (h : List.Forall₂ m.Moved children children')
    (hderives : Derives Rule.additive.pattern here stop children)
    (hderives' : Derives Rule.additive.pattern here' stop' children') :
    Likeness.SameGaps here.offset here'.offset
      (Excerpt.mk here.rest (stop.offset - here.offset)).toList
      (Excerpt.mk here'.rest (stop'.offset - here'.offset)).toList
      (children.map (Tree.map Rule.tag)) (children'.map (Tree.map Rule.tag)) := by
  intro n
  obtain ⟨u, hu⟩ := hderives.moves
  obtain ⟨v, hv⟩ := hderives'.moves
  have hbegins := hderives.chained_begins rfl rfl
  have hchain : children.IsChain fun a b => a.span.stop ≤ b.span.start ∧
      ∃ c v, b.text = c :: v ∧ isSpace c = false := by
    refine hderives.chained_isChain.imp_of_mem_tail_imp fun a b _ hb hadjacent => ?_
    obtain ⟨_, _, _, _, _, -, hgap, -, -, hstop, hstart⟩ := hadjacent
    have := hgap.offset_eq
    exact ⟨by omega, hbegins b hb⟩
  rw [hu.excerpt_toList, hv.excerpt_toList, ← List.map_drop, ← List.map_take, Tree.blankAmong_map,
    ← List.map_drop, ← List.map_take, Tree.blankAmong_map,
    Tree.blankAmong_eq ((hderives.chained_isChain.drop n).take 3) hu,
    Tree.blankAmong_eq ((hderives'.chained_isChain.drop n).take 3) hv]
  exact anyApart_of_moved (List.forall₂_take 3 (List.forall₂_drop n h)) ((hchain.drop n).take 3)

/-- A node moves with its children. -/
theorem Places.node (h : m.Places here here') (h' : m.Places stop stop') (hr : r.isToken = false)
    (hparts : List.Forall₂ m.Moved children children')
    (hderives : Derives r.pattern here stop children)
    (hderives' : Derives r.pattern here' stop' children') :
    m.Moved (r.node here stop children) (r.node here' stop' children') := by
  obtain ⟨u, hu⟩ := hderives.moves
  obtain ⟨v, hv⟩ := hderives'.moves
  obtain ⟨qs, b, hx, hx', hb, hend, -⟩ := h.texts h' hu hv
  refine ⟨rfl, ?_, h.offsets, h'.offsets, fun htoken => ?_, fun hlt => ?_, fun c w hcons hc => ?_,
    takesCall_of_moved hparts hderives.labels⟩
  · rw [Tree.map_node, Tree.map_node]
    refine ⟨rfl, rfl, fun htoken => ?_, ?_, fun htag n => ?_, forest_of_moved hparts⟩
    · cases r <;> first | (cases hr; done) | cases htoken
    · rw [hu.excerpt_toList, hv.excerpt_toList, hx, hx', trim_append (hb .old),
        trim_append (hb .new), key?_trim_spell]
    · obtain rfl : r = .additive := by revert htag; cases r <;> decide
      exact sameGaps_of_moved hparts hderives hderives' n
  · rw [show (r.node here stop children).label = r from rfl, hr] at htoken
    cases htoken
  · rw [hu.node_text, hv.node_text, hx, hx', hend hlt, hend hlt, List.append_nil, List.append_nil,
      endsBlank_spell, endsBlank_spell]
  · rw [hu.node_text] at hcons
    rw [hcons] at hu
    rw [hv.node_text]
    exact h.head_of_texts h' hu hv hc

end Relocation

namespace Lays

variable {m : Relocation} {here here' stop : Cursor} {p : Pattern} {ts : List (Tree Rule)}

/-- What is laid out from a place of a text with no gap in a string is laid out from the place that
corresponds. -/
theorem relocate (h : Lays p here stop ts) (hplaces : m.Places here here') (hreach : m.Reaches stop)
    (hstrings : ∀ t ∈ Tree.nodesAll ts, t.label = .string → m.Spares t.span) : ∃ stop' ts',
    m.Places stop stop' ∧ Lays p here' stop' ts' ∧ List.Forall₂ m.Moved ts ts' ∧
      (p.endsTight = true → m.Inside here here' → m.Inside stop stop') := by
  induction h generalizing here' with
  | empty => exact ⟨_, _, hplaces, .empty, .nil, fun _ h => h⟩
  | text hink h =>
    obtain ⟨stop', hmove, hinside⟩ := hplaces.move (endsInk_of_run hink) h hreach (.inl hink.2)
    exact ⟨stop', _, .inside hinside, .text hink hmove, .nil, fun _ _ => hinside⟩
  | blanks => exact ⟨_, _, hplaces.skipSpaces hreach, .blanks, .nil, nofun⟩
  | @token here stop r u hr hr' h hu =>
    obtain ⟨stop', hmove, hinside, hu', hmoved⟩ := hplaces.token hr hr' h hu hreach
      fun heq => hstrings (r.node here stop []) List.mem_cons_self heq
    exact ⟨stop', _, .inside hinside, .token hr hr' hmove hu', .cons hmoved .nil,
      fun _ _ => hinside⟩
  | @rule here stop r children hr hr' h hsettled ih =>
    obtain ⟨stop', children', hstop, hlays, hmoved, hinside⟩ := ih hplaces hreach fun t ht =>
      hstrings t (List.mem_append_left _ (List.mem_cons_of_mem _ ht))
    refine ⟨stop', _, hstop, .rule hr hr' hlays ?_,
      .cons (hplaces.node hstop hr hmoved h.derives hlays.derives) .nil,
      fun htight => hinside (Rule.pattern_endsTight hr htight)⟩
    refine Relocation.settled_of_moved hmoved h.derives (fun htight hempty u hu hopen => ?_)
      hsettled
    have hlt := (Derives.rule hr h.derives hsettled).length_lt hempty
    exact hplaces.parting (hinside (Rule.pattern_endsTight hr htight) (hplaces.isInside fun hnil => by
      rw [hnil] at hlt
      exact Nat.not_lt_zero _ hlt)) hreach hopen hu
  | @seq here mid stop p q us vs h h' ih ih' =>
    obtain ⟨u, hu⟩ := h'.moves
    rw [Tree.nodesAll_append] at hstrings
    obtain ⟨mid', us', hmid, hlays, hmoved, hinside⟩ := ih hplaces (hreach.of_moves hu) fun t ht =>
      hstrings t (List.mem_append_left _ ht)
    obtain ⟨stop', vs', hstop, hlays', hmoved', hinside'⟩ := ih' hmid hreach fun t ht =>
      hstrings t (List.mem_append_right _ ht)
    refine ⟨stop', _, hstop, .seq hlays hlays', List.rel_append hmoved hmoved', fun htight hhere => ?_⟩
    obtain ⟨hq, hp⟩ := Bool.and_eq_true_iff.mp htight
    refine hinside' hq ?_
    rcases Bool.or_eq_true_iff.mp hp with hp | hempty
    · exact hinside hp hhere
    · have hlt := h'.derives.length_lt (by simpa using hempty)
      exact hmid.isInside fun hnil => by
        rw [hnil] at hlt
        exact Nat.not_lt_zero _ hlt
  | left _ ih =>
    obtain ⟨stop', ts', hstop, hlays, hmoved, hinside⟩ := ih hplaces hreach hstrings
    exact ⟨stop', ts', hstop, .left hlays, hmoved,
      fun htight => hinside (Bool.and_eq_true_iff.mp htight).1⟩
  | right _ ih =>
    obtain ⟨stop', ts', hstop, hlays, hmoved, hinside⟩ := ih hplaces hreach hstrings
    exact ⟨stop', ts', hstop, .right hlays, hmoved,
      fun htight => hinside (Bool.and_eq_true_iff.mp htight).2⟩
  | absent => exact ⟨_, _, hplaces, .absent, .nil, fun _ h => h⟩
  | present _ ih =>
    obtain ⟨stop', ts', hstop, hlays, hmoved, hinside⟩ := ih hplaces hreach hstrings
    exact ⟨stop', ts', hstop, .present hlays, hmoved, hinside⟩
  | done hp => exact ⟨_, _, hplaces, .done hp, .nil, fun _ h => h⟩
  | again _ h' ih ih' =>
    obtain ⟨u, hu⟩ := h'.moves
    rw [Tree.nodesAll_append] at hstrings
    obtain ⟨mid', us', hmid, hlays, hmoved, hinside⟩ := ih hplaces (hreach.of_moves hu) fun t ht =>
      hstrings t (List.mem_append_left _ ht)
    obtain ⟨stop', vs', hstop, hlays', hmoved', hinside'⟩ := ih' hmid hreach fun t ht =>
      hstrings t (List.mem_append_right _ ht)
    exact ⟨stop', _, hstop, .again hlays hlays', List.rel_append hmoved hmoved',
      fun htight hhere => hinside' htight (hinside htight hhere)⟩
  | counted _ ih =>
    obtain ⟨stop', ts', hstop, hlays, hmoved, hinside⟩ := ih hplaces hreach hstrings
    exact ⟨stop', ts', hstop, .counted hlays, hmoved, hinside⟩

end Lays

end Vimscript
