import Vimscript.Proofs.Expr.Forms

/-!
# What stands in front of a point

A text that the grammar takes as a primary with what is attached to it is read in front of a point
or of another attachment as it is read alone. What ends with a closing delimiter ends wherever it
stands; a constant or a reference ends where no more of it follows.
-/

namespace Vimscript

open Pattern Text

namespace Text

/-- A text that ends with a closing delimiter. -/
def EndsClosed (u : List Char) : Prop := ∃ v c, u = v ++ [c] ∧ Nesting.closes c = true

variable {u v : List Char}

/-- What a text ends with is what it ends with behind another. -/
theorem EndsClosed.append (h : EndsClosed u) : EndsClosed (v ++ u) := by
  obtain ⟨w, c, rfl, hc⟩ := h
  exact ⟨v ++ w, c, (List.append_assoc v w [c]).symm, hc⟩

/-- A text that ends with a closing delimiter is not open at its end. -/
theorem EndsClosed.not_endsOpen (h : EndsClosed u) : ¬ EndsOpen u := by
  rintro ⟨v, c, rfl, -, hc⟩
  obtain ⟨w, d, heq, hd⟩ := h
  obtain ⟨-, hsame⟩ := List.append_inj' heq rfl
  rw [(List.cons.inj hsame).1, hd] at hc
  cases hc

end Text

/-- The rules whose texts end with a closing delimiter. -/
def Rule.endsClosed : Rule → Bool
  | subscript | methodCall | callArgs | list | dict | literalDict | lambdaExpr | lambda
  | functionCall => true
  | _ => false

/-- Whether what a pattern takes is nothing or ends with a closing delimiter. -/
def Pattern.endsClosed : Pattern → Bool
  | empty => true
  | text chars => chars.getLast?.any Nesting.closes
  | rule r => r.endsClosed
  | seq p q => q.endsClosed && (p.endsClosed || !q.mayBeEmpty)
  | choice p q => p.endsClosed && q.endsClosed
  | many p | opt p | counted p => p.endsClosed
  | _ => false

/-- A rule whose text ends with a closing delimiter is no token, and its pattern ends with one. -/
theorem Rule.pattern_endsClosed {r : Rule} (h : r.endsClosed = true) :
    r.isToken = false ∧ r.pattern.endsClosed = true := by
  cases r <;> first | (cases h; done) | exact ⟨rfl, by decide⟩

namespace Derives

variable {here mid stop : Cursor} {p : Pattern} {r : Rule} {ts : List (Tree Rule)} {u : List Char}

/-- A pattern that ends with a closing delimiter matches nothing or a text that ends with one. -/
theorem endsClosed (h : Derives p here stop ts) (hp : p.endsClosed = true)
    (hmove : here.Moves u stop) : u = [] ∨ EndsClosed u := by
  induction h generalizing u with
  | empty | absent | done => exact .inl ((Cursor.Moves.refl _).text_unique hmove).symm
  | @text here stop chars h =>
    obtain rfl := h.text_unique hmove
    obtain ⟨c, hlast, hc⟩ := (Option.any_eq_true _ _).mp hp
    obtain ⟨v, hv⟩ := List.getLast?_eq_some_iff.mp hlast
    exact .inr ⟨v, c, hv, hc⟩
  | char => cases hp
  | token hr => rw [(Rule.pattern_endsClosed hp).1] at hr; cases hr
  | rule hr _ _ ih => exact ih (Rule.pattern_endsClosed hp).2 hmove
  | seq h h' ih ih' =>
    obtain ⟨v, w, rfl, hv, hw⟩ := h.split_text h' hmove
    obtain ⟨hq, hp⟩ := Bool.and_eq_true_iff.mp hp
    rcases ih' hq hw with rfl | hclosed
    · rcases Bool.or_eq_true_iff.mp hp with hp | hempty
      · rw [List.append_nil]
        exact ih hp hv
      · exact (h'.not_moves_nil (by simpa using hempty) hw).elim
    · exact .inr hclosed.append
  | again h h' ih ih' =>
    obtain ⟨v, w, rfl, hv, hw⟩ := h.split_text h' hmove
    rcases ih' hp hw with rfl | hclosed
    · rw [List.append_nil]
      exact ih hp hv
    · exact .inr hclosed.append
  | left _ ih => exact ih (Bool.and_eq_true_iff.mp hp).1 hmove
  | right _ ih => exact ih (Bool.and_eq_true_iff.mp hp).2 hmove
  | present _ ih | counted _ ih => exact ih hp hmove

/-- A postfix node that ends openly is a primary by itself, and one of the tokens that can stand for
a primary or a reference. -/
theorem postfixed_of_endsOpen {t : Tree Rule} (h : Derives (.rule .postfixed) here stop [t])
    (hmove : here.Moves u stop) (hu : EndsOpen u) : ∃ r x,
      t = Rule.postfixed.node here stop [Rule.primary.node here stop [x]] ∧
        Derives (.rule r) here stop [x] ∧ r ∈ [Rule.blob, .float, .integer, .string, .option,
          .envVariable, .register, .variableRef] := by
  obtain ⟨children, hpattern, -, hnode⟩ := (rule_iff rfl).mp h
  obtain rfl := List.singleton_inj.mp hnode
  obtain ⟨mid, us, vs, hfirst, hmore, rfl⟩ := seq_iff.mp (counted_iff.mp hpattern)
  obtain ⟨v, w, rfl, hv, hw⟩ := hfirst.split_text hmore hmove
  obtain rfl : w = [] := (hmore.endsClosed (by decide) hw).resolve_right fun hclosed =>
    hclosed.append.not_endsOpen hu
  obtain rfl := (Cursor.Moves.refl mid).stop_unique hw
  obtain rfl : vs = [] := by
    rcases many_iff.mp (counted_iff.mp hmore) with ⟨-, -, hvs⟩ | ⟨next, us', vs', hround, hrest, -⟩
    · exact hvs
    · have hlt := hround.length_lt (by decide)
      have hle := hrest.length_le
      omega
  have not_closed {p : Pattern} {xs : List (Tree Rule)} (h : Derives p here mid xs)
      (hp : p.endsClosed = true) : False := by
    rcases h.endsClosed hp hmove with hnil | hclosed
    · exact hu.endsInk.ne_nil hnil
    · exact hclosed.not_endsOpen hu
  obtain ⟨xs, hprimary, -, rfl⟩ := (rule_iff rfl).mp (call_iff.mp hfirst)
  rcases primary_iff.mp hprimary with ⟨r, hr, hx⟩ | hparen
  · obtain ⟨x, rfl⟩ := hx.eq_singleton
    refine ⟨r, x, rfl, hx, ?_⟩
    have hopen : r.endsClosed = false := by
      by_contra hclosed
      exact not_closed hx (Bool.of_not_eq_false hclosed)
    simp only [primaryRules, List.mem_cons, List.not_mem_nil, or_false] at hr
    rcases hr with rfl | rfl | rfl | rfl | rfl | rfl | rfl | rfl | rfl | rfl | rfl | rfl | rfl <;>
      first | (cases hopen; done) | decide
  · exact (not_closed hparen (by decide)).elim

/-- A node of a level is alone an expression, with the blanks behind it. -/
theorem loosen {level : Nat} {t : Tree Rule} (hlevel : level ≤ 8) (hhere : here.skipSpaces = here)
    (h : Derives (.rule (.ofLevel level)) here stop [t]) : ∃ last x,
      Derives (.rule .expr) here last [x] ∧ last.skipSpaces = stop.skipSpaces ∧
        ∀ budget, (x.map Rule.tag).exprWithin budget = (t.map Rule.tag).exprWithin budget := by
  induction level generalizing stop t with
  | zero => exact ⟨stop, t, h, rfl, fun _ => rfl⟩
  | succ level ih =>
    obtain ⟨last, hlast, hskip, -⟩ := loosen_one (by omega) hhere h
    obtain ⟨last', x, hx, hskip', hsame⟩ := ih (by omega) hlast
    refine ⟨last', x, hx, hskip'.trans hskip, fun budget => (hsame budget).trans ?_⟩
    rw [Tree.map_node, List.map_singleton,
      Tree.exprWithin_single ((Rule.ofLevel_spec level).2.2.2 (by omega))]

end Derives

/-- What a source denotes is made of the node of any level that covers the source. -/
theorem Denotes.exprWithin {source : List Char} {e : Expr Unit} (h : Denotes source e)
    {level : Nat} {stop : Cursor} {t : Tree Rule} (hlevel : level ≤ 8)
    (hhere : (Cursor.start source).skipSpaces = .start source)
    (ht : Derives (.rule (.ofLevel level)) (.start source) stop [t]) (hstop : stop.rest = []) :
    ∃ budget e', (t.map Rule.tag).exprWithin budget = .ok e' ∧ e'.erase = e := by
  obtain ⟨limits, e', he', rfl⟩ := denotes_iff.mp h
  obtain ⟨last, root, hparses, hroot⟩ := parses_of_parseWithin he'
  obtain ⟨mid, x, hx, hskip, hsame⟩ := ht.loosen hlevel hhere
  have hend : mid.skipSpaces.rest = [] := by
    rw [hskip, Cursor.skipSpaces_of_nil hstop, hstop]
  have hwhole := Derives.expression_iff.mpr ⟨mid, x, hhere.symm ▸ hx, rfl, hend, rfl⟩
  have hunique := hparses.unique (Rule.complete .expression _ _ _ hwhole trivial)
  obtain ⟨-, hroots⟩ := Prod.mk.inj (Option.some.inj hunique)
  obtain rfl := List.singleton_inj.mp hroots
  obtain ⟨budget, hx'⟩ := Tree.exprWithin_of_toExpr (by rw [hx.span_eq.2]; decide) hroot
  exact ⟨budget, e', (hsame budget).symm.trans hx', rfl⟩

namespace Text

/-- A text that ends with a token other than a string ends with no blank. -/
theorem endsBlank_of_isTokenChar {u v : List Char} (hne : v ≠ []) (h : v.all isTokenChar = true) :
    Tree.endsBlank (u ++ v) = false := by
  rw [Tree.endsBlank, List.getLast?_append_of_ne_nil _ hne, List.getLast?_eq_getLast_of_ne_nil hne]
  exact isBlank_of_isTokenChar (List.all_eq_true.mp h _ (List.getLast_mem hne))

/-- A character that can begin a name can go on with one. -/
theorem isWordChar_of_isNameStart {c : Char} (h : isNameStart c = true) : isWordChar c = true := by
  simp only [isNameStart, isWordChar, Char.isAlphanum, Bool.or_eq_true] at h ⊢
  exact h.imp_left .inl

/-- A character of a key is one of tokens. -/
theorem isTokenChar_of_isKeyChar {c : Char} (h : isKeyChar c = true) : isTokenChar c = true := by
  rcases Bool.or_eq_true_iff.mp h with h | h
  · exact isTokenChar_of_isWordChar h
  · rw [beq_iff_eq.mp h]
    decide

/-- No character of a key is a blank. -/
theorem isBlank_of_isKeyChar {c : Char} (h : isKeyChar c = true) : isBlank c = false :=
  isBlank_of_isTokenChar (isTokenChar_of_isKeyChar h)

/-- A letter, a digit or an underscore is a character of keys. -/
theorem isKeyChar_of_isWordChar {c : Char} (h : isWordChar c = true) : isKeyChar c = true := by
  rw [isKeyChar, h, Bool.true_or]

/-- A word can be a key. -/
theorem isKeyChar_of_isName {u : List Char} (h : IsName isNameStart isWordChar u) :
    u.all isKeyChar = true :=
  all_of_all (all_of_isName (fun _ => isWordChar_of_isNameStart) h) fun _ => isKeyChar_of_isWordChar

/-- A word can be a variable. -/
theorem IsName.isNameChar {u : List Char} (h : IsName isNameStart isWordChar u) :
    IsName isNameStart isNameChar u := by
  obtain ⟨c, v, rfl, hc, hv⟩ := h
  exact ⟨c, v, rfl, hc, all_of_all hv fun d hd => by rw [Text.isNameChar, hd, Bool.true_or]⟩

/-- Nothing is trimmed from a key. -/
theorem trim_of_isKeyChar {u : List Char} (h : u.all isKeyChar = true) : trim u = u := by
  have dropped {v : List Char} (hv : v.all isKeyChar = true) : v.dropWhile isBlank = v := by
    cases v with
    | nil => rfl
    | cons c v =>
      rw [List.dropWhile_cons_of_neg]
      rw [isBlank_of_isKeyChar (Bool.and_eq_true_iff.mp (List.all_cons ▸ hv)).1]
      exact Bool.false_ne_true
  rw [trim, dropped h, trimEnd, dropped (by rwa [List.all_reverse]), List.reverse_reverse]

end Text

/-- A text in front of which an expression can end, or which goes on with a point, a dash or an
arrow. -/
def Text.Onward (rest : List Char) : Prop := Seam rest ∨ Joint rest

/-- What goes on with an expression is an edge for it. -/
theorem Text.Onward.edge {rest : List Char} (h : Onward rest) : Edge rest := by
  rcases h with h | h
  · exact .inl h
  · exact .inr (.inr h)

/-- No colon goes on with an expression right behind it. -/
theorem Text.Onward.endsBefore_colon {rest : List Char} (h : Onward rest) :
    EndsBefore (· == ':') rest := by
  rcases h with h | ⟨mark, c, more, rfl, hmark, -⟩
  · exact h.endsBefore (by decide)
  · rcases hmark with rfl | rfl <;> exact endsBefore_cons.mpr (by decide)

namespace Derives

variable {here stop : Cursor} {x : Tree Rule} {u : List Char}

/-- A reference alone reads as what it stands for in front of a point, too. -/
theorem readsAs_reference {r : Rule} (h : Derives (.rule r) here stop [x])
    (hr : r ∈ [Rule.option, .envVariable, .register, .variableRef]) (hmove : here.Moves u stop) :
    (∃ e, ReadsAs Onward 8 u e) ∧ Tree.endsBlank u = false := by
  have name (r : Rule) {place : Cursor} {us : List (Tree Rule)} (hr : r.isToken = true)
      (hr' : r ≠ .endOfInput ∧ r ≠ .string) (h : Derives (.call r) place stop us) :
      ∃ v, place.Moves v stop ∧ (∀ w, Tree.endsBlank (w ++ v) = false) ∧ r.Lexeme v stop.rest := by
    obtain ⟨v, hv, hlexeme, -⟩ := (token_iff hr).mp (call_iff.mp h)
    exact ⟨v, hv, fun w => endsBlank_of_isTokenChar (Rule.lexeme_endsInk hr'.1 hlexeme).ne_nil
      (Rule.lexeme_all_isTokenChar hr'.2 hlexeme), hlexeme⟩
  simp only [List.mem_cons, List.not_mem_nil, or_false] at hr
  rcases hr with rfl | rfl | rfl | rfl
  · obtain ⟨_, hpattern, -, -⟩ := (rule_iff rfl).mp h
    obtain ⟨first, us, vs, hsign, hrest, -⟩ := seq_iff.mp (counted_iff.mp hpattern)
    obtain ⟨place, ws, xs, hscope, hname, -⟩ := seq_iff.mp hrest
    obtain ⟨hsign, -⟩ := text_iff.mp hsign
    obtain ⟨v, hv, hend, hname, -⟩ := name .optionName rfl ⟨nofun, nofun⟩ hname
    rcases opt_iff.mp (counted_iff.mp hscope) with ⟨rfl, -⟩ | hscope
    · obtain rfl := hmove.text_unique (hsign.trans hv)
      exact ⟨⟨_, (ReadsAs.option hname).mono fun rest h => ⟨h.edge, fun _ => h.endsBefore_colon⟩⟩,
        hend ['&']⟩
    · obtain ⟨w, hw, hscope, -⟩ := (token_iff rfl).mp (call_iff.mp hscope)
      obtain rfl := hmove.text_unique (hsign.trans (hw.trans hv))
      obtain ⟨s, hs, rfl⟩ : ∃ s : Scope, (s = .global ∨ s = .functionLocal) ∧ s.text = w := by
        rcases hscope with rfl | rfl
        · exact ⟨.global, .inl rfl, rfl⟩
        · exact ⟨.functionLocal, .inr rfl, rfl⟩
      exact ⟨⟨_, (ReadsAs.scopedOption hs hname).mono fun _ => Onward.edge⟩, hend ('&' :: s.text)⟩
  · obtain ⟨_, hpattern, -, -⟩ := (rule_iff rfl).mp h
    obtain ⟨first, us, vs, hsign, hname, -⟩ := seq_iff.mp (counted_iff.mp hpattern)
    obtain ⟨hsign, -⟩ := text_iff.mp hsign
    obtain ⟨v, hv, hend, hname, -⟩ := name .envName rfl ⟨nofun, nofun⟩ hname
    obtain rfl := hmove.text_unique (hsign.trans hv)
    exact ⟨⟨_, (ReadsAs.env hname).mono fun _ => Onward.edge⟩, hend ['$']⟩
  · obtain ⟨v, hv, hend, c, rfl, hc⟩ := name .register rfl ⟨nofun, nofun⟩ (call_iff.mpr h)
    obtain rfl := hmove.text_unique hv
    exact ⟨⟨_, (ReadsAs.register hc).mono fun _ => Onward.edge⟩, hend []⟩
  · obtain ⟨_, hpattern, -, -⟩ := (rule_iff rfl).mp h
    rcases choice_iff.mp hpattern with hpattern | hname
    · obtain ⟨place, us, vs, hscope, hname, -⟩ := seq_iff.mp (counted_iff.mp hpattern)
      obtain ⟨w, hw, ⟨c, rfl, hc⟩, -⟩ := (token_iff rfl).mp (call_iff.mp hscope)
      obtain ⟨v, hv, hend, hname, -⟩ := name .scopedName rfl ⟨nofun, nofun⟩ hname
      obtain ⟨s, rfl⟩ := Scope.exists_letter hc
      obtain rfl := hmove.text_unique (hw.trans hv)
      exact ⟨⟨_, (ReadsAs.scopedVar (s := s) hname).mono fun _ => Onward.edge⟩, hend s.text⟩
    · obtain ⟨v, hv, hend, hname, -⟩ := name .variableName rfl ⟨nofun, nofun⟩ hname
      obtain rfl := hmove.text_unique hv
      exact ⟨⟨_, (ReadsAs.var hname).mono fun _ => Onward.edge⟩, hend []⟩

/-- A constant alone reads as its literal in front of a point or an arrow, too; a blob makes
nothing. -/
theorem readsAs_constant {r : Rule} (h : Derives (.rule r) here stop [x])
    (hr : r ∈ [Rule.blob, .float, .integer, .string]) (hmove : here.Moves u stop) {budget : Nat}
    {e : Expr Span} (he : (x.map Rule.tag).exprWithin budget = .ok e) :
    ReadsAs Edge 8 u e.erase ∧ Tree.endsBlank u = false := by
  have htoken : r.isToken = true := by
    simp only [List.mem_cons, List.not_mem_nil, or_false] at hr
    rcases hr with rfl | rfl | rfl | rfl <;> rfl
  obtain ⟨v, hv, hlexeme, hnode⟩ := (token_iff htoken).mp h
  obtain rfl := List.singleton_inj.mp hnode
  obtain rfl := hmove.text_unique hv
  have hend (hstring : r ≠ .string) (hfinish : r ≠ .endOfInput) : Tree.endsBlank u = false :=
    endsBlank_of_isTokenChar (u := []) (Rule.lexeme_endsInk hfinish hlexeme).ne_nil
      (Rule.lexeme_all_isTokenChar hstring hlexeme)
  have htext := hmove.excerpt_toList
  rw [Tree.map_node] at he
  simp only [List.mem_cons, List.not_mem_nil, or_false] at hr
  rcases hr with rfl | rfl | rfl | rfl <;> simp only [Rule.tag, Tree.exprWithin, reduceCtorEq] at he
  · rw [htext] at he
    obtain ⟨whole, fraction, exponent, rfl, hwhole, hfraction, -, hexponent⟩ := id hlexeme
    unfold Tree.float at he
    split at he <;> cases he
    rename_i value hvalue
    obtain ⟨hvalue, hfinite⟩ := Option.filter_eq_some_iff.mp hvalue
    refine ⟨ReadsAs.float hwhole hfraction ?_ hvalue hfinite, hend (by decide) (by decide)⟩
    exact hexponent.symm.imp_left And.left
  · rw [htext] at he
    unfold Tree.integer at he
    split at he <;> cases he
    rename_i value hvalue
    exact ⟨ReadsAs.integer hlexeme.2 hvalue, hend (by decide) (by decide)⟩
  · rw [htext] at he
    unfold Tree.string at he
    split at he <;> cases he
    rename_i value hvalue
    refine ⟨ReadsAs.quotation hlexeme hvalue, ?_⟩
    rcases hlexeme with ⟨body, -, rfl⟩ | ⟨body, -, rfl, -⟩
    · rw [Tree.endsBlank, List.getLast?_concat]
      decide
    · rw [Tree.endsBlank, List.getLast?_concat]
      decide

end Derives

/-- A text that is a primary with what is attached to it reads as what it denotes, in front of a
point or an arrow, too. -/
theorem Denotes.reads_postfixed {source : List Char} {e : Expr Unit} (h : Denotes source e)
    {stop : Cursor} {t : Tree Rule}
    (ht : Derives (.rule .postfixed) (.start source) stop [t]) (hstop : stop.rest = []) :
    ReadsAs Onward 7 source e ∧ Tree.endsBlank source = false := by
  obtain ⟨c, v, hmove, hc⟩ := ht.starts_cons rfl
  obtain rfl : source = c :: v := by
    have hrest := hmove.rest_eq
    rwa [hstop, List.append_nil] at hrest
  have hhead : ∃ d w, c :: v = d :: w ∧ isSpace d = false :=
    ⟨c, v, rfl, isSpace_eq_false hc (by decide)⟩
  have hhere : (Cursor.start (c :: v)).skipSpaces = .start (c :: v) :=
    Cursor.skipSpaces_of_endsBefore (endsBefore_cons.mpr (isSpace_eq_false hc (by decide)))
  have hlevel : Derives (.rule (.ofLevel 7)) (.start (c :: v)) stop [t] := ht
  obtain ⟨budget, e', he, rfl⟩ := h.exprWithin (by decide) hhere hlevel hstop
  obtain ⟨w, d, hsource, hd⟩ : EndsInk (c :: v) :=
    ((ht.lays (.rule ⟨nofun, nofun⟩)).endsInk rfl hmove).resolve_left (List.cons_ne_nil c v)
  cases hclose : Nesting.closes d with
  | true =>
    have hlast : ((c :: v).map Piece.char).getLast? = some (.char d) := by
      rw [hsource, List.map_append, List.map_singleton, List.getLast?_concat]
    have hend : stop.skipSpaces.rest = [] := by
      rw [Cursor.skipSpaces_of_nil hstop, hstop]
    have hrest : (Cursor.start (c :: v)).rest = Piece.spell .old ((c :: v).map .char) ++ [] := by
      rw [Piece.spell_char, List.append_nil]
      rfl
    have hreads : ReadsAs Onward 7 (Piece.spell .new ((c :: v).map .char)) e'.erase :=
      hlevel.readsAs hrest rfl hend (by rwa [Piece.spell_char])
      (fun p hp => by rw [← Option.some.inj (hlast.symm.trans hp)]; exact hd)
      (fun _ _ => .inr ⟨d, hlast, hclose⟩) (fun _ _ _ => Piece.sparesFrom_char _ _ _) he
    rw [Piece.spell_char] at hreads
    refine ⟨hreads, ?_⟩
    rw [hsource, Tree.endsBlank, List.getLast?_concat]
    exact isBlank_of_closes hclose
  | false =>
    obtain ⟨r, x, rfl, hx, hr⟩ := ht.postfixed_of_endsOpen hmove ⟨w, d, hsource, hd, hclose⟩
    have hlabel : (x.map Rule.tag).label ≠ .conditional := by
      rw [Tree.label_map, hx.span_eq.2]
      revert hr
      cases r <;> decide
    rw [Tree.map_node, List.map_singleton, Tree.exprWithin_single rfl, Tree.map_node,
      List.map_singleton, show Rule.primary.tag = .primary from rfl,
      Tree.exprWithin_primary hlabel] at he
    rcases List.mem_append.mp
      (show r ∈ [Rule.blob, .float, .integer, .string] ++ [.option, .envVariable, .register,
        .variableRef] from hr) with hr | hr
    · obtain ⟨hreads, hend⟩ := hx.readsAs_constant hr hmove he
      exact ⟨(hreads.mono fun _ => Onward.edge).loosen (by decide) (Nat.le_refl 8), hend⟩
    · obtain ⟨⟨e, hreads⟩, hend⟩ := hx.readsAs_reference hr hmove
      rw [h.unique ((hreads.mono fun _ => .inl).denotes (Nat.le_refl 8))]
      exact ⟨hreads.loosen (by decide) (Nat.le_refl 8), hend⟩

end Vimscript
