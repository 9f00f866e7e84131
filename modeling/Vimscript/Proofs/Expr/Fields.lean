import Vimscript.Proofs.Expr.Bases

/-!
# Fields behind points

A key with dashes inside it is lexed as names with minus signs between them, and only what stands
before a minus sign tells whether it goes on with the key. Each point right behind a text that is
read adds a field, and each dash with a name behind it a part of the last key.
-/

namespace Vimscript

open Pattern Text

/-- Neighbours without blanks at their ends are seen to stand right behind each other. -/
theorem Derives.blankAmong_tight {here last : Cursor} {children : List (Tree Rule)}
    {left op operand : Tree Rule}
    (h : Derives (chained .multiplicative (Pattern.call .addOp)) here last
      (children ++ [op, operand]))
    (hleft : children.getLast? = some left) (hends : Tree.endsBlank left.text = false)
    (hop : Tree.beginsBlank op.text = false ∧ Tree.endsBlank op.text = false)
    (hbegins : Tree.beginsBlank operand.text = false) (hstop : left.span.stop = op.span.start)
    (hstart : op.span.stop = operand.span.start) :
    Tree.blankAmong here.offset (Excerpt.mk here.rest (last.offset - here.offset)).toList
      ([left, op, operand].map (Tree.map Rule.tag)) = false := by
  obtain ⟨u, hu⟩ := h.moves
  have hsuffix : [left, op, operand] <:+ children ++ [op, operand] := by
    obtain ⟨front, rfl⟩ := List.getLast?_eq_some_iff.mp hleft
    exact ⟨front, by rw [List.append_assoc]; rfl⟩
  rw [hu.excerpt_toList, Tree.blankAmong_map,
    Tree.blankAmong_eq (h.chained_isChain.suffix hsuffix) hu]
  simp only [Tree.anyApart, Tree.apart, hends, hop.1, hop.2, hbegins, hstop, hstart, bne_self_eq_false,
    Bool.or_false]

/-- A text reads as operands with additive operators between them, in front of a seam or of what goes
on right behind it, and blanks at its end are none of its own. -/
def ReadsSum (u : List Char) (e : Expr Unit) : Prop :=
  ∀ here mid : Cursor, here.Moves u mid → Onward mid.rest → ∃ children last,
    Derives Rule.additive.pattern here mid.skipSpaces children ∧
      children.getLast? = some last ∧ last.span.stop = mid.skipSpaces.offset ∧
        (mid.skipSpaces = mid → Tree.endsBlank last.text = false) ∧
          ((Rule.additive.node here mid.skipSpaces children).map Rule.tag).Builds e

/-- An operand with the blanks behind it. -/
theorem ReadsAs.operand {follow : List Char → Prop} {u : List Char} {e : Expr Unit}
    (h : ReadsAs follow 6 u e) {here mid : Cursor} (hmove : here.Moves u mid)
    (hfollow : follow mid.rest) : ∃ t b,
      Derives (.rule .multiplicative) here mid.skipSpaces [t] ∧ t.text = u ++ b ∧
        b.all isSpace = true ∧ (mid.skipSpaces = mid → b = []) ∧ (t.map Rule.tag).Builds e := by
  obtain ⟨stop, t, hderives, -, htight, ht⟩ := h.derives here mid hmove hfollow
  obtain rfl := htight rfl
  have hmoves := stop.moves_skipSpaces
  refine ⟨Rule.multiplicative.node here stop.skipSpaces [t], stop.rest.takeWhile isSpace,
    (Derives.rule_iff rfl).mpr ⟨[t], Derives.chained_single hderives, trivial, rfl⟩,
    (hmove.trans hmoves).node_text, List.all_takeWhile, fun hsame => ?_, ?_⟩
  · rw [hsame] at hmoves
    exact hmoves.text_unique (.refl stop)
  · rw [Tree.map_node]
    exact .single rfl ht

/-- One operand that ends with no blank is a sum. -/
theorem ReadsAs.sum {u : List Char} {e : Expr Unit} (h : ReadsAs Onward 6 u e)
    (hend : Tree.endsBlank u = false) : ReadsSum u e := by
  intro here mid hmove hmid
  obtain ⟨t, b, hderives, htext, -, hnil, ht⟩ := h.operand hmove hmid
  refine ⟨[t], t, ?_, rfl, by rw [hderives.span_eq.1], fun hsame => ?_, ?_⟩
  · rw [← Cursor.skipSpaces_skipSpaces]
    exact Derives.chained_single hderives
  · rwa [htext, hnil hsame, List.append_nil]
  · rw [Tree.map_node]
    exact .single rfl ht

namespace ReadsSum

variable {u name : List Char} {e : Expr Unit}

/-- A sum goes on with an operator and a word right behind it. -/
theorem step {mark : Char} {e' : Expr Unit} (h : ReadsSum u e) (hmark : mark = '.' ∨ mark = '-')
    (hname : IsName isNameStart isWordChar name)
    (hbuilds : ∀ {span span' excerpt excerpt' op operand ts},
      (Tree.node .additive span excerpt ts).Builds e →
      Likeness.SameGaps span.start span'.start excerpt.toList excerpt'.toList ts ts →
      (∀ last, ts.getLast? = some last →
        Tree.blankAmong span'.start excerpt'.toList [last, op, operand] = false) →
      op.label = .operator → op.text = [mark] → operand.Builds (.var () none name) →
      trim operand.text = name → isLiteralKey name = true →
      (Tree.node .additive span' excerpt' (ts ++ [op, operand])).Builds e') :
    ReadsSum (u ++ mark :: name) e' := by
  intro here stop hmove hstop
  obtain ⟨place, hu, hmove⟩ := Cursor.Moves.append_iff.mp hmove
  obtain ⟨next, hop, hv⟩ := Cursor.Moves.cons_iff.mp hmove
  obtain ⟨c, v, rfl, hc, -⟩ := id hname
  have hkey := isKeyChar_of_isName hname
  have hspace : isSpace mark = false := by rcases hmark with rfl | rfl <;> decide
  have hdigit : c.isDigit = false := by
    by_contra hd
    rw [Derives.isNameStart_of_isDigit (Bool.not_eq_false _ ▸ hd)] at hc
    cases hc
  have hplace : place.skipSpaces = place :=
    Cursor.skipSpaces_of_endsBefore (by rw [hmove.rest_eq]; exact endsBefore_cons.mpr hspace)
  have hnext : next.skipSpaces = next := Cursor.skipSpaces_of_endsBefore (by
    rw [hv.rest_eq]
    exact endsBefore_cons.mpr (isSpace_eq_false hc (by decide)))
  obtain ⟨children, left, hchain, hlast, hends, hink, ht⟩ := h here place hu
    (.inr ⟨mark, c, v ++ stop.rest, hmove.rest_eq, hmark, hdigit⟩)
  have hlexeme : Rule.addOp.Lexeme [mark] next.rest := by
    rcases hmark with rfl | rfl
    · refine .inr (.inl ⟨rfl, ?_⟩)
      rw [hv.rest_eq]
      refine endsBefore_cons.mpr (beq_eq_false_iff_ne.mpr ?_)
      rintro rfl
      cases hc
    · exact .inr (.inr (.inr rfl))
  have hoperator : Derives (.rule .addOp) place next [Rule.addOp.node place next []] :=
    (Derives.token_iff rfl).mpr ⟨_, hop, hlexeme, rfl⟩
  have hvar : ReadsAs Edge 6 _ _ :=
    (ReadsAs.var hname.isNameChar).loosen (by decide) (Nat.le_refl 8)
  obtain ⟨t, b, hoperand, htext, hb, hnil, hbuild⟩ :=
    hvar.operand hv hstop.edge
  rw [hplace] at hchain hends ht
  have hlonger : Derives (chained .multiplicative (Pattern.call .addOp)) here stop.skipSpaces
      (children ++ [Rule.addOp.node place next [], t]) :=
    Derives.chained_snoc hchain (by rw [hplace]; exact Derives.call_iff.mpr hoperator)
      (by rwa [hnext])
  refine ⟨_, t, hlonger, by simp, by rw [hoperand.span_eq.1], fun hsame => ?_, ?_⟩
  · rw [htext, hnil hsame, List.append_nil]
    exact endsBlank_of_isTokenChar (u := []) (List.cons_ne_nil c v)
      (all_of_all hkey fun _ => isTokenChar_of_isKeyChar)
  rw [Tree.map_node, List.map_append]
  rw [Tree.map_node] at ht
  refine hbuilds ht (Derives.sameGaps hchain hlonger) (fun last hlast' => ?_) ?_ ?_ hbuild ?_ ?_
  · rw [List.getLast?_map] at hlast'
    obtain ⟨_, hsome, rfl⟩ := Option.map_eq_some_iff.mp hlast'
    obtain rfl := Option.some.inj (hlast.symm.trans hsome)
    refine hlonger.blankAmong_tight hlast (hink hplace) ?_ ?_ hends (by rw [hoperand.span_eq.1]; rfl)
    · rw [hop.node_text]
      rcases hmark with rfl | rfl <;> decide
    · rw [htext]
      exact isBlank_of_isKeyChar (Bool.and_eq_true_iff.mp (List.all_cons ▸ hkey)).1
  · rw [Tree.label_map]; rfl
  · rw [Tree.text_map]
    exact hop.node_text
  · rw [Tree.text_map, htext, trim_append hb, trim_of_isKeyChar hkey]
  · rw [isLiteralKey, hkey]
    rfl

/-- A point and a word behind what could be a dictionary make a field. -/
theorem point (h : ReadsSum u e) (hdict : e.couldBeDict = true)
    (hname : IsName isNameStart isWordChar name) :
    ReadsSum (u ++ '.' :: name) (.index () e (.literal () (.string name))) :=
  h.step (.inl rfl) hname fun ht hgaps htight hlabel hop hoperand htext hkey =>
    ht.tight_point hdict hgaps htight hlabel hop hoperand (fun _ _ _ => nofun) htext hkey

/-- A dash and a word behind a field go on with its key. -/
theorem dash {key : List Char} (h : ReadsSum u (.index () e (.literal () (.string key))))
    (hname : IsName isNameStart isWordChar name) :
    ReadsSum (u ++ '-' :: name) (.index () e (.literal () (.string (key ++ '-' :: name)))) :=
  h.step (.inr rfl) hname fun ht hgaps htight hlabel hop hoperand htext hkey =>
    ht.tight_dash hgaps htight hlabel hop hoperand htext hkey

/-- A sum reads at its level, with the blanks behind it. -/
theorem readsAs (h : ReadsSum u e) (hhead : ∃ c v, u = c :: v ∧ isSpace c = false) :
    ReadsAs Onward 4 u e where
  head := hhead
  derives here mid hmove hmid := by
    obtain ⟨children, last, hchain, -, -, -, ht⟩ := h here mid hmove hmid
    exact ⟨mid.skipSpaces, _, (Derives.rule_iff rfl).mpr ⟨children, hchain, trivial, rfl⟩,
      mid.skipSpaces_skipSpaces, nofun, ht⟩

end ReadsSum

/-- Words with single dashes between them. -/
structure DashedKey where
  first : {name // IsName isNameStart isWordChar name}
  rest : List {name // IsName isNameStart isWordChar name}

namespace DashedKey

/-- The text of the key. -/
def text (k : DashedKey) : List Char := k.first.1 ++ k.rest.flatMap fun name => '-' :: name.1

/-- A base and keys, each behind a point. -/
def dotted (base : List Char) (keys : List DashedKey) : List Char :=
  base ++ keys.flatMap fun k => '.' :: k.text

/-- A base and keys, each between quotes in brackets. -/
def quoted (base : List Char) (keys : List DashedKey) : List Char :=
  base ++ keys.flatMap fun k => "['".toList ++ k.text ++ "']".toList

/-- The fields of an expression by keys, the first innermost. -/
def fields (e : Expr Unit) (keys : List DashedKey) : Expr Unit :=
  keys.foldl (fun e k => .index () e (.literal () (.string k.text))) e

/-- Dashes between names make a key. -/
theorem all_isKeyChar (k : DashedKey) : k.text.all isKeyChar = true := by
  rw [text, List.all_append, isKeyChar_of_isName k.first.2, Bool.true_and, List.all_flatMap]
  refine List.all_eq_true.mpr fun name _ => ?_
  rw [List.all_cons, isKeyChar_of_isName name.2]
  rfl

end DashedKey

open DashedKey

namespace ReadsSum

variable {u : List Char} {e : Expr Unit}

/-- Dashes and words behind a field go on with its key, one after the other. -/
theorem dashes {key : List Char} (names : List {name // IsName isNameStart isWordChar name})
    (h : ReadsSum u (.index () e (.literal () (.string key)))) :
    ReadsSum (u ++ names.flatMap fun name => '-' :: name.1)
      (.index () e (.literal () (.string (key ++ names.flatMap fun name => '-' :: name.1)))) := by
  induction names generalizing u key with
  | nil => simpa using h
  | cons name names ih =>
    have hlonger := ih (h.dash name.2)
    simpa only [List.flatMap_cons, List.append_assoc] using hlonger

/-- Points and keys behind what could be a dictionary make fields, one inside the other. -/
theorem dotted (keys : List DashedKey) (h : ReadsSum u e) (hdict : e.couldBeDict = true) :
    ReadsSum (DashedKey.dotted u keys) (fields e keys) := by
  induction keys generalizing u e with
  | nil => simpa [DashedKey.dotted, fields] using h
  | cons k keys ih =>
    have hfield := (h.point hdict k.first.2).dashes k.rest
    have hlonger := ih hfield rfl
    simpa only [DashedKey.dotted, fields, DashedKey.text, List.flatMap_cons, List.foldl_cons,
      List.append_assoc, List.cons_append] using hlonger

end ReadsSum

/-- Keys between quotes in brackets make the same fields. -/
theorem ReadsAs.quoted {u : List Char} {e : Expr Unit} (keys : List DashedKey)
    (h : ReadsAs Seam 7 u e) : ReadsAs Seam 7 (DashedKey.quoted u keys) (fields e keys) := by
  induction keys generalizing u e with
  | nil => simpa [DashedKey.quoted, fields] using h
  | cons k keys ih =>
    have hkey : ReadsSlot ']' (Quoted.encode k.text) (some (.literal () (.string k.text))) :=
      .inr ⟨[], _, [], _, (List.append_nil _).symm, blank_nil, blank_nil, seam_cons (by decide),
        ((ReadsAs.string k.text).loosen (Nat.zero_le 8) (Nat.le_refl 8)).mono fun _ h => h.edge,
        rfl⟩
    have hlonger := ih (h.index hkey)
    rw [Quoted.encode, Form.escapeSingle_of_isKeyChar k.all_isKeyChar] at hlonger
    simpa [DashedKey.quoted, fields] using hlonger

/-- What a rule matches before its limit is reached it matches without a limit. -/
theorem Rule.parses_of_runOn {r : Rule} {calls : Nat} {source : List Char} {stop : Cursor}
    {nodes : List (Tree Rule)} {trace : Trace}
    (h : r.runOn calls source = .matched stop nodes trace) (hcalls : trace.calls < calls) :
    Parses (.rule r) (.start source) (some (stop, nodes)) := by
  have faithful := Rule.run_faithful ⟨calls, source.length + 1⟩ (Rule.depthBound source.length) r
    (.start source) [] .start
  rw [show Rule.run _ _ r _ _ _ = _ from h] at faithful
  obtain ⟨ts, rfl, hparses⟩ := faithful.2 hcalls
  obtain ⟨us, -, rfl⟩ := Parses.rule_some_iff.mp hparses
  exact hparses

/-- Whether a run went through its whole text before its limit was reached. -/
def Outcome.isWhole (calls : Nat) : Outcome → Bool
  | .matched stop _ trace => decide (trace.calls < calls) && stop.rest.isEmpty
  | _ => false

/-- A whole match leaves nothing of the text and takes fewer calls than were allowed. -/
theorem Outcome.exists_of_isWhole {calls : Nat} {outcome : Outcome}
    (h : outcome.isWhole calls = true) : ∃ stop nodes trace,
      outcome = .matched stop nodes trace ∧ trace.calls < calls ∧ stop.rest = [] := by
  cases outcome with
  | matched stop nodes trace =>
    obtain ⟨hcalls, hstop⟩ := Bool.and_eq_true_iff.mp h
    exact ⟨stop, nodes, trace, rfl, of_decide_eq_true hcalls, List.isEmpty_iff.mp hstop⟩
  | failed | exhausted => cases h

/-- Keys behind points make the same fields as keys between quotes in brackets. The base is any text
that is a primary with what is attached to it and could stand for a dictionary. -/
theorem denotes_fields {base : List Char} {e : Expr Unit} {calls : Nat} {stop : Cursor}
    {nodes : List (Tree Rule)} {trace : Trace}
    (hrun : Rule.postfixed.runOn calls base = .matched stop nodes trace)
    (hcalls : trace.calls < calls) (hstop : stop.rest = []) (h : Denotes base e)
    (hdict : e.couldBeDict = true) (keys : List DashedKey) :
    Denotes (dotted base keys) (fields e keys) ∧ Denotes (quoted base keys) (fields e keys) := by
  have hderives := (Rule.parses_of_runOn hrun hcalls).derives
  obtain ⟨t, rfl⟩ := hderives.eq_singleton
  obtain ⟨hreads, hend⟩ := h.reads_postfixed hderives hstop
  constructor
  · have hunary : ReadsAs Onward 6 _ _ := hreads.loosen (by decide) (by decide)
    have hsum := (hunary.sum hend).dotted keys hdict
    obtain ⟨c, v, rfl, hc⟩ := hreads.head
    exact ((hsum.readsAs ⟨c, _, rfl, hc⟩).mono fun _ => .inl).denotes (by decide)
  · exact ((hreads.mono fun _ => .inl).quoted keys).denotes (by decide)

/-- A key with two dashes and one without, behind what a call results in. -/
theorem denotes_fields_call : ∃ e keys, Denotes "f(1)".toList e ∧
    dotted "f(1)".toList keys = "f(1).a-b2-_c.d".toList ∧
    quoted "f(1)".toList keys = "f(1)['a-b2-_c']['d']".toList ∧
    Denotes "f(1).a-b2-_c.d".toList (fields e keys) ∧
    Denotes "f(1)['a-b2-_c']['d']".toList (fields e keys) := by
  let keys : List DashedKey :=
    [⟨⟨['a'], 'a', [], rfl, rfl, rfl⟩,
      [⟨['b', '2'], 'b', ['2'], rfl, rfl, rfl⟩, ⟨['_', 'c'], '_', ['c'], rfl, rfl, rfl⟩]⟩,
      ⟨⟨['d'], 'd', [], rfl, rfl, rfl⟩, []⟩]
  have hparse : ((parseWithin Limits.default "f(1)".toList).map
      fun e => e.erase.couldBeDict) = .ok true := by
    decide +kernel
  have hwhole : (Rule.postfixed.runOn 1000 "f(1)".toList).isWhole 1000 = true := by decide +kernel
  obtain ⟨stop, nodes, trace, hrun, hcalls, hstop⟩ := Outcome.exists_of_isWhole hwhole
  obtain ⟨e, hok, hdict⟩ := exists_of_map_eq_ok hparse
  have hbase := Denotes.of_parseWithin hok
  have h := denotes_fields hrun hcalls hstop hbase hdict keys
  exact ⟨_, keys, hbase, by decide, by decide, h.1, h.2⟩

end Vimscript
