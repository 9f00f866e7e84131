import Vimscript.Proofs.Expr.Calls

/-!
# Texts of constants and names

A constant or a name ends in front of whatever can stand behind an expression. In front of a colon
that is so unless the name goes on behind it, or the name is that of an option and could be a
scope.
-/

namespace Vimscript

open Pattern Text

/-- A text that begins with a point or a dash and something right behind it that is no digit: a name,
or the rest of an arrow. -/
def Text.Joint (rest : List Char) : Prop :=
  ∃ mark c more, rest = mark :: c :: more ∧ (mark = '.' ∨ mark = '-') ∧ c.isDigit = false

/-- A text in front of which a token can end: a seam, a colon behind which no name goes on, or a
point or dash with no digit behind it. -/
def Text.Edge (rest : List Char) : Prop :=
  Seam rest ∨ (∃ more, rest = ':' :: more ∧ EndsBefore isNameChar more) ∨ Joint rest

/-- A seam is an edge. -/
theorem Text.Seam.edge {rest : List Char} (h : Seam rest) : Edge rest := .inl h

/-- What is no seam character does not begin a seam. -/
theorem Text.Seam.endsBefore {accepts : Char → Bool} {rest : List Char} (h : Seam rest)
    (haccepts : " \t)]\x7d,([".toList.all (fun c => !accepts c) = true) :
    EndsBefore accepts rest := by
  intro c hc
  have hmem := h c hc
  rw [isSeam, List.contains_iff_mem] at hmem
  simpa using List.all_eq_true.mp haccepts c hmem

/-- What takes no character of an edge stops in front of it. -/
theorem Text.Edge.endsBefore {accepts : Char → Bool} {rest : List Char} (h : Edge rest)
    (haccepts : ":.- \t)]\x7d,([".toList.all (fun c => !accepts c) = true) :
    EndsBefore accepts rest := by
  have hmem {c : Char} (hc : c ∈ ":.- \t)]\x7d,([".toList) : accepts c = false := by
    simpa using List.all_eq_true.mp haccepts c hc
  rcases h with h | ⟨more, rfl, -⟩ | ⟨mark, c, more, rfl, hmark, -⟩
  · refine h.endsBefore (List.all_eq_true.mpr fun c hc => ?_)
    rw [hmem (List.mem_cons_of_mem _ (List.mem_cons_of_mem _ (List.mem_cons_of_mem _ hc)))]
    rfl
  · exact endsBefore_cons.mpr (hmem (by decide))
  · rcases hmark with rfl | rfl <;> exact endsBefore_cons.mpr (hmem (by decide))

/-- No digit stands behind a point at an edge, so digits in front of one are no part of a float. -/
theorem Text.Edge.settled {rest : List Char} (h : Edge rest) (t : Tree Rule) :
    Rule.primary.Settled [t] rest := by
  obtain ⟨label, span, excerpt, children⟩ := t
  cases label <;> try exact trivial
  rintro - d more rfl
  rcases h with h | ⟨more, hcolon, -⟩ | ⟨mark, c, more, hrest, -, hc⟩
  · exact absurd (h '.' rfl) (by decide)
  · cases hcolon
  · simp only [List.cons.injEq] at hrest
    obtain ⟨-, rfl, -⟩ := hrest
    exact hc

namespace ReadsAs

variable {u name : List Char} {scope : Option Scope}

/-- A rule of tokens that stands for a primary by itself. -/
theorem token {r : Rule} {e : Expr Unit} (hr : r ∈ Derives.primaryRules) (htoken : r.isToken = true)
    (hhead : ∃ c v, u = c :: v ∧ isSpace c = false) (hu : ∀ rest, Edge rest → r.Lexeme u rest)
    (he : ∀ span excerpt, Excerpt.toList excerpt = u →
      (Tree.node r.tag span excerpt []).Builds e) : ReadsAs Edge 8 u e := by
  refine atom hr hhead fun here mid hmove hmid => ⟨Rule.node r here mid [],
    (Derives.token_iff htoken).mpr ⟨u, hmove, hu _ hmid, rfl⟩, hmid.settled _, ?_⟩
  rw [Tree.map_node]
  exact he _ _ hmove.excerpt_toList

/-- An integer reads as its value. -/
theorem integer {value : Int64} (hu : IsBased 'x' 'X' isHexDigit u ∨
      IsBased 'b' 'B' isBinaryDigit u ∨ IsBased 'o' 'O' isOctalDigit u ∨ IsRun Char.isDigit u)
    (hvalue : Numeral.decode? u = some value) : ReadsAs Edge 8 u (.literal () (.int value)) := by
  refine token (r := .integer) (by decide) rfl ?_ (fun rest h => ⟨h.endsBefore (by decide), hu⟩)
    fun span excerpt h => .integer (h ▸ hvalue)
  rcases hu with ⟨mark, digits, rfl, -⟩ | ⟨mark, digits, rfl, -⟩ | ⟨mark, digits, rfl, -⟩ |
    ⟨hne, hdigits⟩
  · exact ⟨_, _, rfl, by decide⟩
  · exact ⟨_, _, rfl, by decide⟩
  · exact ⟨_, _, rfl, by decide⟩
  · obtain ⟨c, v, rfl⟩ := List.exists_cons_of_ne_nil hne
    exact ⟨c, v, rfl, isSpace_eq_false (Bool.and_eq_true_iff.mp (List.all_cons ▸ hdigits)).1
      (by decide)⟩

/-- A float reads as its value if that is finite. -/
theorem float {whole fraction exponent : List Char} {value : Binary64}
    (hwhole : IsRun Char.isDigit whole) (hfraction : IsRun Char.isDigit fraction)
    (hexponent : exponent = [] ∨ IsExponent exponent)
    (hvalue : Binary64.ofText? (whole ++ '.' :: fraction ++ exponent) = some value)
    (hfinite : value.isFinite = true) :
    ReadsAs Edge 8 (whole ++ '.' :: fraction ++ exponent) (.literal () (.float value)) := by
  refine token (r := .float) (by decide) rfl ?_ (fun rest h => ⟨whole, fraction, exponent, rfl,
    hwhole, hfraction, h.endsBefore (by decide), ?_⟩)
    fun span excerpt h => .float (h ▸ hvalue) hfinite
  · obtain ⟨c, v, rfl⟩ := List.exists_cons_of_ne_nil hwhole.1
    exact ⟨c, _, rfl, isSpace_eq_false
      (Bool.and_eq_true_iff.mp (List.all_cons ▸ hwhole.2)).1 (by decide)⟩
  · rcases hexponent with rfl | hexponent
    · refine .inr ⟨rfl, ?_⟩
      rintro v ⟨mark, sign, digits, rfl, hmark, -⟩ ⟨more, rfl⟩
      have hends : EndsBefore (fun c => c == 'e' || c == 'E') (mark :: (sign ++ digits) ++ more) :=
        h.endsBefore (by decide)
      rcases hmark with rfl | rfl <;> cases endsBefore_cons.mp hends
    · exact .inl hexponent

/-- With its quotes doubled a text can stand between single quotes. -/
theorem singleBody_escapeSingle (text : List Char) :
    SingleBody (Text.Quoted.escapeSingle text) := by
  induction text with
  | nil => exact .nil
  | cons c rest ih =>
    by_cases h : c = '\''
    · subst h
      exact ih.quote
    · simp only [Text.Quoted.escapeSingle, List.flatMap_cons, if_neg h] at ih ⊢
      exact ih.plain h

/-- A string in quotes of either kind. -/
theorem quotation {value rest : List Char} (hu : Rule.string.Lexeme u rest)
    (hvalue : Text.Quoted.decode u = some value) :
    ReadsAs Edge 8 u (.literal () (.string value)) := by
  refine token (r := .string) (by decide) rfl ?_ (fun rest h => ?_)
    fun span excerpt h => .string (h ▸ hvalue)
  · rcases hu with ⟨body, -, rfl⟩ | ⟨body, -, rfl, -⟩ <;> exact ⟨_, _, rfl, by decide⟩
  · exact hu.imp_right fun ⟨body, hbody, htext, _⟩ =>
      ⟨body, hbody, htext, h.endsBefore (by decide)⟩

/-- A text in quotes reads as the text. -/
theorem string (text : List Char) :
    ReadsAs Edge 8 (Text.Quoted.encode text) (.literal () (.string text)) := by
  have hlexeme : Rule.string.Lexeme (Text.Quoted.encode text) [] :=
    .inr ⟨_, singleBody_escapeSingle text, rfl, nofun⟩
  exact quotation hlexeme (Text.Quoted.decode_encode text)

/-- A register reads as its name. -/
theorem register {c : Char} (hc : isRegisterName c = true) :
    ReadsAs Edge 8 ['@', c] (.register () c) :=
  token (r := .register) (by decide) rfl ⟨_, _, rfl, by decide⟩ (fun _ _ => ⟨c, rfl, hc⟩)
    fun _ _ h => .register h

/-- An environment variable reads as its name. -/
theorem env (hname : IsRun isWordChar name) : ReadsAs Edge 8 ('$' :: name) (.env () name) := by
  refine atom (r := .envVariable) (by decide) ⟨_, _, rfl, by decide⟩ fun here mid hmove hmid => ?_
  obtain ⟨first, hsign, hmove⟩ := Cursor.Moves.cons_iff.mp hmove
  have htoken := (Derives.token_iff (r := .envName) rfl).mpr
    ⟨name, hmove, ⟨hname, hmid.endsBefore (by decide)⟩, rfl⟩
  refine ⟨_, (Derives.rule_iff rfl).mpr ⟨_, .counted (Derives.seq_iff.mpr ⟨first, [], _,
    .text hsign, Derives.call_iff.mpr htoken, rfl⟩), trivial, rfl⟩, hmid.settled _, ?_⟩
  rw [Tree.map_node, List.nil_append, List.map_singleton]
  have htext : ((Rule.envName.node first mid []).map Rule.tag).text = name := by
    rw [Tree.text_map]
    exact hmove.node_text
  rw [← htext]
  exact .env (by rw [Tree.label_map]; rfl)

/-- A name with which a variable or a call can begin. -/
theorem head_of_isName {starts accepts : Char → Bool} (h : IsName starts accepts u)
    (hstarts : starts ' ' = false ∧ starts '\t' = false) :
    ∃ c v, u = c :: v ∧ isSpace c = false := by
  obtain ⟨c, v, rfl, hc, -⟩ := h
  exact ⟨c, v, rfl, isSpace_eq_false hc hstarts⟩

/-- A variable without a scope. -/
theorem var (hname : IsName isNameStart isNameChar name) :
    ReadsAs Edge 8 name (.var () none name) := by
  refine atom (r := .variableRef) (by decide) (head_of_isName hname (by decide))
    fun here mid hmove hmid => ?_
  have htoken := (Derives.token_iff (r := .variableName) rfl).mpr
    ⟨name, hmove, ⟨hname, hmid.endsBefore (by decide)⟩, rfl⟩
  refine ⟨_, (Derives.rule_iff rfl).mpr ⟨_, .right (Derives.call_iff.mpr htoken), ?_, rfl⟩,
    hmid.settled _, ?_⟩
  · rintro c - - d more hrest
    rcases hmid with hseam | ⟨more', hcolon, hends⟩ | ⟨mark, e, more', hjoint, hmark, -⟩
    · exact absurd (hseam ':' (by rw [hrest]; rfl)) (by decide)
    · obtain ⟨-, rfl⟩ := List.cons.inj (hcolon.symm.trans hrest)
      exact endsBefore_cons.mp hends
    · obtain ⟨rfl, -⟩ := List.cons.inj (hjoint.symm.trans hrest)
      rcases hmark with hmark | hmark <;> cases hmark
  · rw [Tree.map_node]
    exact .var (Tree.isScopedName_single rfl hmove)

/-- A variable behind its scope. -/
theorem scopedVar {s : Scope} (hname : IsRun isNameChar name) :
    ReadsAs Edge 8 (s.text ++ name) (.var () (some s) name) := by
  refine atom (r := .variableRef) (by decide) ⟨_, _, rfl, by cases s <;> decide⟩
    fun here mid hmove hmid => ?_
  obtain ⟨first, hscope, hmove⟩ := Cursor.Moves.append_iff.mp hmove
  have htoken := (Derives.token_iff (r := .scopedName) rfl).mpr
    ⟨name, hmove, ⟨hname, hmid.endsBefore (by decide)⟩, rfl⟩
  refine ⟨_, (Derives.rule_iff rfl).mpr ⟨_, .left (.counted (Derives.seq_iff.mpr ⟨first, _, _,
    Derives.call_iff.mpr (Derives.scopeToken hscope), Derives.call_iff.mpr htoken, rfl⟩)), trivial,
    rfl⟩, hmid.settled _, ?_⟩
  rw [Tree.map_node]
  exact .var (Tree.isScopedName_pair rfl rfl hscope hmove)

/-- An option without a scope; one with the name of a scope cannot stand in front of a colon. -/
theorem option (hname : IsName Char.isAlpha isWordChar name) :
    ReadsAs (fun rest => Edge rest ∧ (name = ['g'] ∨ name = ['l'] → EndsBefore (· == ':') rest)) 8
      ('&' :: name) (.option () none name) := by
  refine atom (r := .option) (by decide) ⟨_, _, rfl, by decide⟩ fun here mid hmove hmid => ?_
  obtain ⟨first, hsign, hmove⟩ := Cursor.Moves.cons_iff.mp hmove
  have htoken := (Derives.token_iff (r := .optionName) rfl).mpr
    ⟨name, hmove, ⟨hname, hmid.1.endsBefore (by decide)⟩, rfl⟩
  refine ⟨_, (Derives.rule_iff rfl).mpr ⟨_, .counted (Derives.seq_iff.mpr ⟨first, [], _,
    .text hsign, Derives.seq_iff.mpr ⟨first, [], _, .counted .absent, Derives.call_iff.mpr htoken,
      rfl⟩, rfl⟩), ?_, rfl⟩, hmid.1.settled _, ?_⟩
  · intro hscope
    rw [hmove.node_text] at hscope
    exact hmid.2 hscope
  · rw [Tree.map_node]
    exact .option (Tree.isScopedName_single rfl hmove)

/-- An option behind one of the two scopes that options have. -/
theorem scopedOption {s : Scope} (hs : s = .global ∨ s = .functionLocal)
    (hname : IsName Char.isAlpha isWordChar name) :
    ReadsAs Edge 8 ('&' :: (s.text ++ name)) (.option () (some s) name) := by
  refine atom (r := .option) (by decide) ⟨_, _, rfl, by decide⟩ fun here mid hmove hmid => ?_
  obtain ⟨first, hsign, hmove⟩ := Cursor.Moves.cons_iff.mp hmove
  obtain ⟨place, hscope, hmove⟩ := Cursor.Moves.append_iff.mp hmove
  have hscopeToken := (Derives.token_iff (r := .optionScope) rfl).mpr
    ⟨_, hscope, by rcases hs with rfl | rfl <;> simp [Rule.Lexeme, Scope.text, Scope.letter], rfl⟩
  have htoken := (Derives.token_iff (r := .optionName) rfl).mpr
    ⟨name, hmove, ⟨hname, hmid.endsBefore (by decide)⟩, rfl⟩
  refine ⟨_, (Derives.rule_iff rfl).mpr ⟨_, .counted (Derives.seq_iff.mpr ⟨first, [], _,
    .text hsign, Derives.seq_iff.mpr ⟨place, _, _, .counted (.present
      (Derives.call_iff.mpr hscopeToken)), Derives.call_iff.mpr htoken, rfl⟩, rfl⟩), trivial, rfl⟩,
    hmid.settled _, ?_⟩
  rw [Tree.map_node]
  exact .option (Tree.isScopedName_pair rfl rfl hscope hmove)

end ReadsAs

end Vimscript
