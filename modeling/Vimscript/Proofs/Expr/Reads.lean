import Vimscript.Proofs.Expr.Compounds
import Vimscript.Proofs.Grammar.Compose
import Vimscript.Proofs.Grammar.Gap
import Vimscript.Proofs.Grammar.Lays
import Vimscript.Proofs.Grammar.Opening

/-!
# Texts that read as expressions

A text reads as an expression by a rule when, wherever it stands in front of something that may
follow, the rule derives a node over it that builds the expression. Each way to make an expression
longer makes its text longer, so that the text of a whole expression is read from those of its
parts.
-/

namespace Vimscript

open Pattern Text

/-- The characters that stand behind an expression wherever one can end, but for the colon. -/
def Text.isSeam (c : Char) : Bool := " \t)]\x7d,([".toList.contains c

/-- A text in front of which any expression can end. -/
def Text.Seam (rest : List Char) : Prop := ∀ c, rest.head? = some c → isSeam c = true

/-- A text that begins with a seam character begins with a seam. -/
theorem Text.seam_cons {c : Char} {rest : List Char} (hc : isSeam c = true) : Seam (c :: rest) := by
  rintro d hd
  obtain rfl : c = d := Option.some.inj hd
  exact hc

/-- So does one that begins with a blank. -/
theorem Text.seam_cons_of_isSpace {c : Char} {rest : List Char} (hc : isSpace c = true) :
    Seam (c :: rest) := by
  refine seam_cons ?_
  rcases (by simpa [isSpace] using hc : c = ' ' ∨ c = '\t') with rfl | rfl <;> decide

/-- Nothing is made of blanks. -/
theorem Text.blank_nil : ([] : List Char).all isSpace = true := rfl

/-- A single blank is one of blanks. -/
theorem Text.blank_space : [' '].all isSpace = true := rfl

/-- A character of a class without blanks is no blank. -/
theorem Text.isSpace_eq_false {accepts : Char → Bool} {c : Char} (hc : accepts c = true)
    (h : accepts ' ' = false ∧ accepts '\t' = false) : isSpace c = false := by
  by_contra hspace
  have hblank : isSpace c = true := by simpa using hspace
  rcases (by simpa [isSpace] using hblank : c = ' ' ∨ c = '\t') with rfl | rfl
  · exact Bool.noConfusion (hc.symm.trans h.1)
  · exact Bool.noConfusion (hc.symm.trans h.2)

/-- By a rule a text in front of a text of a kind has a node with a property. The text begins with
no blank; the node may cover blanks behind the text. -/
structure Reads (follow : List Char → Prop) (r : Rule) (u : List Char) (q : Tree Tag → Prop) :
    Prop where
  head : ∃ c v, u = c :: v ∧ isSpace c = false
  derives : ∀ here mid : Cursor, here.Moves u mid → follow mid.rest → ∃ stop t,
    Derives (.rule r) here stop [t] ∧ stop.skipSpaces = mid.skipSpaces ∧
      (r.endsTight = true → stop = mid) ∧ q (t.map Rule.tag)

/-- The rule for expressions that bind as tight as a level, from conditionals to primaries. -/
def Rule.ofLevel : Nat → Rule
  | 0 => expr
  | 1 => logicalOr
  | 2 => logicalAnd
  | 3 => comparison
  | 4 => additive
  | 5 => multiplicative
  | 6 => unary
  | 7 => postfixed
  | _ => primary

/-- A text reads as an expression at a level. -/
def ReadsAs (follow : List Char → Prop) (level : Nat) (u : List Char) (e : Expr Unit) : Prop :=
  Reads follow (.ofLevel level) u (·.Builds e)

namespace Cursor

variable {here mid stop : Cursor} {b u : List Char}

/-- Blanks and then no blank: the blanks are what is skipped. -/
theorem Moves.skipSpaces_eq (h : here.Moves b mid) (hb : b.all isSpace = true)
    (hmid : EndsBefore isSpace mid.rest) : here.skipSpaces = mid := by
  have hend := here.skipSpaces_endsBefore
  exact (here.moves_skipSpaces).run_unique List.all_takeWhile hend h hb hmid

/-- Behind blanks a text stands where they have been skipped. -/
theorem Moves.behindBlanks (h : here.Moves (b ++ u) stop) (hb : b.all isSpace = true)
    (hu : ∃ c v, u = c :: v ∧ isSpace c = false) : here.skipSpaces.Moves u stop := by
  obtain ⟨c, v, rfl, hc⟩ := hu
  obtain ⟨place, hblanks, htext⟩ := append_iff.mp h
  have hplace : EndsBefore isSpace place.rest := by
    rw [htext.rest_eq]
    exact endsBefore_cons.mpr hc
  rwa [hblanks.skipSpaces_eq hb hplace]

end Cursor

/-- What links the operands of a level. -/
def Pattern.linkOf : Nat → Pattern
  | 0 => firstOf [call .coalesce, call .ternaryThen]
  | 1 => call .orOp
  | 2 => call .andOp
  | 3 => call .compareOp
  | 4 => call .addOp
  | _ => call .mulOp

/-- The rules of the tiers of operators are chains. -/
theorem Rule.pattern_ofLevel {level : Nat} (h : level ≤ 5) :
    (ofLevel level).pattern = chained (ofLevel (level + 1)) (linkOf level) := by
  obtain rfl | rfl | rfl | rfl | rfl | rfl : level = 0 ∨ level = 1 ∨ level = 2 ∨ level = 3 ∨
      level = 4 ∨ level = 5 := by omega
  all_goals rfl

/-- A rule of a level is no token, and none of the tiers has to be told from anything. -/
theorem Rule.ofLevel_spec (level : Nat) : (ofLevel level).isToken = false ∧
    (level ≤ 6 → ∀ children rest, (ofLevel level).Settled children rest) ∧
      ((ofLevel level).endsTight = true ↔ 6 ≤ level) ∧
        (level ≤ 7 → Tree.passes (ofLevel level).tag = true) := by
  match level with
  | 0 | 1 | 2 | 3 | 4 | 5 | 6 | 7 =>
    exact ⟨rfl, fun h _ _ => (by trivial), by decide, fun _ => rfl⟩
  | n + 8 => exact ⟨rfl, fun h => absurd h (by omega), by simp [ofLevel, endsTight], by omega⟩

/-- A node of a level is alone a node of the next looser one, with the blanks behind it if that
level is one of operators. -/
theorem Derives.loosen_one {here stop : Cursor} {t : Tree Rule} {level : Nat} (hlevel : level ≤ 7)
    (hhere : here.skipSpaces = here) (h : Derives (.rule (.ofLevel (level + 1))) here stop [t]) :
    ∃ last, Derives (.rule (.ofLevel level)) here last [(Rule.ofLevel level).node here last [t]] ∧
      last.skipSpaces = stop.skipSpaces ∧ ((Rule.ofLevel level).endsTight = true → last = stop) := by
  obtain ⟨htoken, hsettled, hends, -⟩ := Rule.ofLevel_spec level
  by_cases htier : level ≤ 5
  · refine ⟨stop.skipSpaces, (Derives.rule_iff htoken).mpr ⟨[t], ?_, hsettled (by omega) _ _, rfl⟩,
      Cursor.skipSpaces_skipSpaces stop, fun hlast => absurd (hends.mp hlast) (by omega)⟩
    rw [Rule.pattern_ofLevel htier]
    exact Derives.chained_single h
  · refine ⟨stop, ?_, rfl, fun _ => rfl⟩
    obtain rfl | rfl : level = 6 ∨ level = 7 := by omega
    · refine (Derives.rule_iff rfl).mpr ⟨[t], .counted (Derives.spaced_iff.mpr ⟨here, [], [t],
        Derives.spacedStar_iff.mpr (.inl ⟨rfl, rfl⟩), ?_, rfl⟩), trivial, rfl⟩
      rw [hhere]
      exact Derives.call_iff.mpr h
    · refine (Derives.rule_iff rfl).mpr ⟨[t], .counted (Derives.seq_iff.mpr ⟨stop, [t], [],
        Derives.call_iff.mpr h, .counted (.done fun accepts hc => ?_), rfl⟩), trivial, rfl⟩
      cases hc

namespace Reads

variable {follow follow' : List Char → Prop} {r : Rule} {u : List Char} {q q' : Tree Tag → Prop}

/-- What reads in front of some texts and has a property reads in front of fewer and has a weaker
one. -/
theorem mono (h : Reads follow r u q) (hfollow : ∀ rest, follow' rest → follow rest)
    (hq : ∀ t, q t → q' t) : Reads follow' r u q' where
  head := h.head
  derives here mid hmove hmid := by
    obtain ⟨stop, t, hderives, hskip, htight, ht⟩ := h.derives here mid hmove (hfollow _ hmid)
    exact ⟨stop, t, hderives, hskip, htight, hq _ ht⟩

/-- No blank is skipped in front of the text. -/
theorem skipSpaces_eq (h : Reads follow r u q) {here mid : Cursor} (hmove : here.Moves u mid) :
    here.skipSpaces = here := by
  obtain ⟨c, v, rfl, hc⟩ := h.head
  refine Cursor.skipSpaces_of_endsBefore ?_
  rw [hmove.rest_eq]
  exact endsBefore_cons.mpr hc

end Reads

namespace ReadsAs

variable {follow follow' : List Char → Prop} {level : Nat} {u : List Char} {e : Expr Unit}

/-- What reads in front of some texts reads in front of fewer. -/
theorem mono (h : ReadsAs follow level u e) (hfollow : ∀ rest, follow' rest → follow rest) :
    ReadsAs follow' level u e :=
  Reads.mono h hfollow fun _ ht => ht

/-- What reads at a level reads at the next looser one. -/
theorem loosen_one (hlevel : level ≤ 7) (h : ReadsAs follow (level + 1) u e) :
    ReadsAs follow level u e where
  head := h.head
  derives here mid hmove hmid := by
    obtain ⟨stop, t, hderives, hskip, htight, ht⟩ := h.derives here mid hmove hmid
    obtain ⟨-, -, hends, hpasses⟩ := Rule.ofLevel_spec level
    obtain ⟨last, hlast, hsame, hstop⟩ :=
      Derives.loosen_one hlevel (Reads.skipSpaces_eq h hmove) hderives
    refine ⟨last, _, hlast, hsame.trans hskip, fun htight' => ?_, ?_⟩
    · have hle : 6 ≤ level + 1 := Nat.le_succ_of_le (hends.mp htight')
      exact (hstop htight').trans (htight ((Rule.ofLevel_spec (level + 1)).2.2.1.mpr hle))
    · rw [Tree.map_node]
      exact .single (hpasses hlevel) ht

/-- What reads at a level reads at every looser one. -/
theorem loosen {looser : Nat} (h : ReadsAs follow level u e) (hle : looser ≤ level)
    (hlevel : level ≤ 8) : ReadsAs follow looser u e := by
  induction hle with
  | refl => exact h
  | step _ ih => exact ih (loosen_one (by omega) h) (by omega)

/-- Between blanks and in front of a character that ends it a text is read. -/
theorem inside {b b' w : List Char} {c : Char} {here last : Cursor} (h : ReadsAs follow 0 u e)
    (hb : b.all isSpace = true) (hb' : b'.all isSpace = true) (hc : isSpace c = false)
    (hfollow : ∀ rest, follow (b' ++ c :: (w ++ rest)))
    (hmove : here.Moves (b ++ (u ++ (b' ++ c :: w))) last) : ∃ stop t,
      Derives (.rule .expr) here.skipSpaces stop [t] ∧ stop.skipSpaces.Moves (c :: w) last ∧
        (t.map Rule.tag).Builds e := by
  have hmove := hmove.behindBlanks hb (by
    obtain ⟨d, v, rfl, hd⟩ := h.head
    exact ⟨d, _, List.cons_append, hd⟩)
  obtain ⟨place, htext, hclose⟩ := Cursor.Moves.append_iff.mp hmove
  have hplace : follow place.rest := by
    rw [hclose.rest_eq, List.append_assoc]
    exact hfollow _
  obtain ⟨stop, t, hderives, hskip, -, ht⟩ := h.derives _ _ htext hplace
  refine ⟨stop, t, hderives, ?_, ht⟩
  rw [hskip]
  exact hclose.behindBlanks hb' ⟨_, _, rfl, hc⟩

/-- Only an integer has to be told from a longer token in the place of a primary. -/
theorem settled_primary {t : Tree Rule} {rest : List Char} (h : t.label ≠ .integer) :
    Rule.primary.Settled [t] rest := by
  obtain ⟨label, span, excerpt, children⟩ := t
  cases label <;> first | exact trivial | exact (h rfl).elim

/-- A text between parentheses, with blanks inside them or none. -/
theorem paren {b b' : List Char} (h : ReadsAs follow 0 u e) (hb : b.all isSpace = true)
    (hb' : b'.all isSpace = true) (hfollow : ∀ rest, follow (b' ++ ')' :: rest)) :
    ReadsAs (fun _ => True) 8 ('(' :: (b ++ (u ++ (b' ++ [')'])))) e where
  head := ⟨_, _, rfl, by decide⟩
  derives here mid hmove _ := by
    obtain ⟨first, hopen, hmove⟩ := Cursor.Moves.cons_iff.mp hmove
    obtain ⟨stop, t, hderives, hclose, ht⟩ := h.inside hb hb' (by decide) hfollow hmove
    have hlabel := hderives.span_eq.2
    refine ⟨mid, Rule.primary.node here mid [t], (Derives.rule_iff rfl).mpr ⟨[t], ?_,
      settled_primary (by rw [hlabel]; decide), rfl⟩, rfl, fun _ => rfl, ?_⟩
    · exact Derives.primary_iff.mpr (.inr (.counted (Derives.spaced_iff.mpr
        ⟨first, [], [t], .text hopen, Derives.spaced_iff.mpr
          ⟨stop, [t], [], Derives.call_iff.mpr hderives, .text hclose, rfl⟩, rfl⟩)))
    · rw [Tree.map_node]
      exact .primary ht

/-- A rule that stands for a primary by itself. -/
theorem atom {r : Rule} (hr : r ∈ Derives.primaryRules)
    (hhead : ∃ c v, u = c :: v ∧ isSpace c = false)
    (h : ∀ here mid : Cursor, here.Moves u mid → follow mid.rest → ∃ t,
      Derives (.rule r) here mid [t] ∧ Rule.primary.Settled [t] mid.rest ∧
        (t.map Rule.tag).Builds e) : ReadsAs follow 8 u e where
  head := hhead
  derives here mid hmove hmid := by
    obtain ⟨t, hderives, hsettled, ht⟩ := h here mid hmove hmid
    refine ⟨mid, Rule.primary.node here mid [t], (Derives.rule_iff rfl).mpr ⟨[t],
      Derives.primary_iff.mpr (.inl ⟨r, hr, hderives⟩), hsettled, rfl⟩, rfl, fun _ => rfl, ?_⟩
    rw [Tree.map_node]
    exact .primary ht

end ReadsAs

/-- The tokens of a binary operator. -/
def BinaryOp.Token (op : BinaryOp) (o : List Char) : Prop := o = op.text ∨ op = .concat ∧ o = ['.']

/-- The rule of the operators of a level. -/
def Rule.operatorOf : Nat → Rule
  | 1 => orOp
  | 2 => andOp
  | 3 => compareOp
  | 4 => addOp
  | _ => mulOp

/-- Binary operators stand in the tiers from one to five. -/
theorem BinaryOp.tier_bounds (op : BinaryOp) : 1 ≤ op.tier ∧ op.tier ≤ 5 := by
  cases op <;> exact ⟨by simp [tier], by simp [tier]⟩

namespace BinaryOp.Token

variable {op : BinaryOp} {o : List Char}

/-- A token that names an operator is read as it. -/
theorem ofToken? (h : op.Token o) : BinaryOp.ofToken? o = some op := by
  rcases h with rfl | ⟨rfl, rfl⟩
  · exact BinaryOp.ofToken?_text op
  · decide

/-- Such a token begins with no blank. -/
theorem starts (h : op.Token o) : ∃ c v, o = c :: v ∧ isSpace c = false := by
  rcases h with rfl | ⟨rfl, rfl⟩
  · cases op with
    | compare relation letterCase => cases relation <;> exact ⟨_, _, rfl, by decide⟩
    | _ => exact ⟨_, _, rfl, by decide⟩
  · exact ⟨_, _, rfl, by decide⟩

/-- In front of a blank the token is read as that operator. -/
theorem lexeme (h : op.Token o) {c : Char} {rest : List Char} (hc : isSpace c = true) :
    (Rule.operatorOf op.tier).Lexeme o (c :: rest) := by
  have hc : c = ' ' ∨ c = '\t' := by simpa [isSpace] using hc
  rcases h with rfl | ⟨rfl, rfl⟩
  · cases op with
    | compare relation letterCase =>
      have hfront : ∀ d, (letterCase.text ++ c :: rest).head? = some d →
          d = '#' ∨ d = '?' ∨ d = c := by
        cases letterCase <;> simp [LetterCase.text, eq_comm]
      refine ⟨relation, letterCase, rfl, ?_, fun _ => ?_⟩
      · have front {accepts : Char → Bool} (hsigns : accepts '#' = false ∧ accepts '?' = false)
            (hspaces : accepts ' ' = false ∧ accepts '\t' = false) :
            EndsBefore accepts (letterCase.text ++ c :: rest) := by
          intro d hd
          rcases hfront d hd with rfl | rfl | rfl
          · exact hsigns.1
          · exact hsigns.2
          · rcases hc with rfl | rfl
            · exact hspaces.1
            · exact hspaces.2
        cases relation <;> first | exact trivial | exact front (by decide) (by decide)
      · refine endsBefore_cons.mpr ?_
        rcases hc with rfl | rfl <;> decide
    | or | and => exact rfl
    | add => exact .inr (.inr (.inl rfl))
    | subtract => exact .inr (.inr (.inr rfl))
    | concat => exact .inl rfl
    | multiply => exact .inl rfl
    | divide => exact .inr (.inl rfl)
    | modulo => exact .inr (.inr rfl)
  · refine .inr (.inl ⟨rfl, endsBefore_cons.mpr ?_⟩)
    rcases hc with rfl | rfl <;> decide

end BinaryOp.Token

/-- The operator of a tier is a token, and all tiers but the additive one are folded with no regard
to blanks. -/
theorem Rule.operatorOf_spec {level : Nat} (h : 1 ≤ level ∧ level ≤ 5) :
    (operatorOf level).isToken = true ∧ (operatorOf level).tag = .operator ∧
      linkOf level = call (operatorOf level) ∧
        (level ≠ 4 → Tree.foldsLeft (ofLevel level).tag = true) := by
  obtain rfl | rfl | rfl | rfl | rfl : level = 1 ∨ level = 2 ∨ level = 3 ∨ level = 4 ∨
      level = 5 := by omega
  all_goals exact ⟨rfl, rfl, rfl, by decide⟩

namespace Tree

/-- Blanks are found by the spans alone, which have nothing to do with rules and tags. -/
theorem blankAmong_map (origin : Nat) (text : List Char) (ts : List (Tree Rule)) :
    blankAmong origin text (ts.map (map Rule.tag)) = blankAmong origin text ts := by
  induction ts with
  | nil => rfl
  | cons t rest ih =>
    cases rest with
    | nil => rfl
    | cons t' rest =>
      rw [List.map_cons, List.map_cons, blankAmong, blankAmong, blankBetween, blankBetween,
        text_map, text_map, span_map, span_map, ← List.map_cons, ih]

end Tree

namespace Derives

variable {here stop last : Cursor} {children : List (Tree Rule)} {op operand : Tree Rule}

/-- The blanks between the nodes of a chain are told in one way however far the chain goes. -/
theorem sameGaps {more : List (Tree Rule)}
    (h : Derives (chained .multiplicative (call .addOp)) here stop children)
    (h' : Derives (chained .multiplicative (call .addOp)) here last (children ++ more)) :
    Likeness.SameGaps here.offset here.offset
      (Excerpt.mk here.rest (stop.offset - here.offset)).toList
      (Excerpt.mk here.rest (last.offset - here.offset)).toList
      (children.map (Tree.map Rule.tag)) (children.map (Tree.map Rule.tag)) := by
  intro n
  obtain ⟨u, hu⟩ := h.moves
  obtain ⟨v, hv⟩ := h'.moves
  have hchain := h.chained_isChain
  have hchain' := h'.chained_isChain.left_of_append
  rw [hu.excerpt_toList, hv.excerpt_toList, ← List.map_drop, ← List.map_take, Tree.blankAmong_map,
    Tree.blankAmong_map, Tree.blankAmong_eq ((hchain.drop n).take 3) hu,
    Tree.blankAmong_eq ((hchain'.drop n).take 3) hv]

/-- A blank behind an operator is seen. -/
theorem blankAmong_of_ne {mid : Cursor} {r : Rule} {left : Tree Rule}
    (h : Derives (chained .multiplicative (call .addOp)) here last (children ++ [op, operand]))
    (hleft : children.getLast? = some left) (hop : Derives (.rule r) mid stop [op])
    (hoperand : operand.span.start = stop.skipSpaces.offset) (hne : stop.skipSpaces ≠ stop) :
    Tree.blankAmong here.offset (Excerpt.mk here.rest (last.offset - here.offset)).toList
      ([left, op, operand].map (Tree.map Rule.tag)) = true := by
  obtain ⟨u, hu⟩ := h.moves
  have hsuffix : [left, op, operand] <:+ children ++ [op, operand] := by
    obtain ⟨front, rfl⟩ := List.getLast?_eq_some_iff.mp hleft
    exact ⟨front, by rw [List.append_assoc]; rfl⟩
  have hoffset : (stop.offset != stop.skipSpaces.offset) = true := by
    refine bne_iff_ne.mpr fun heq => hne ?_
    have hmoves := stop.moves_skipSpaces
    have hzero : Text.byteLength (stop.rest.takeWhile isSpace) = 0 := by
      have := hmoves.offset_eq
      omega
    rw [Text.byteLength_eq_zero_iff.mp hzero] at hmoves
    exact ((Cursor.Moves.refl stop).stop_unique hmoves).symm
  rw [hu.excerpt_toList, Tree.blankAmong_map,
    Tree.blankAmong_eq (h.chained_isChain.suffix hsuffix) hu]
  simp only [Tree.anyApart, Tree.apart, hop.span_eq.1, hoperand, hoffset, Bool.or_true,
    Bool.true_or]

end Derives

namespace ReadsAs

variable {follow follow' : List Char → Prop} {level : Nat} {u : List Char} {e : Expr Unit}

/-- Two operands with an operator between them that has a blank on each side. -/
theorem binary {op : BinaryOp} {v o b b' : List Char} {c c' : Char} {e' : Expr Unit}
    (h : ReadsAs Seam op.tier u e) (h' : ReadsAs follow (op.tier + 1) v e') (ho : op.Token o)
    (hb : (c :: b).all isSpace = true) (hb' : (c' :: b').all isSpace = true) :
    ReadsAs follow op.tier (u ++ (c :: b ++ (o ++ (c' :: b' ++ v)))) (.binary () op e e') where
  head := by
    obtain ⟨d, w, rfl, hd⟩ := h.head
    exact ⟨d, _, List.cons_append, hd⟩
  derives here mid hmove hmid := by
    obtain ⟨htoken, htag, hlink, hfolds⟩ := Rule.operatorOf_spec op.tier_bounds
    have hspec := Rule.ofLevel_spec op.tier
    have hbounds := op.tier_bounds
    obtain ⟨place, hu, hmove⟩ := Cursor.Moves.append_iff.mp hmove
    have hspace : isSpace c = true := (Bool.and_eq_true_iff.mp (List.all_cons ▸ hb)).1
    have hseam : Seam place.rest := by
      rw [hmove.rest_eq]
      exact seam_cons_of_isSpace hspace
    obtain ⟨stop, t, hderives, hskip, -, ht⟩ := h.derives _ _ hu hseam
    have hmove := hmove.behindBlanks hb (by
      obtain ⟨d, w, rfl, hd⟩ := ho.starts
      exact ⟨d, _, List.cons_append, hd⟩)
    obtain ⟨behind, hop, hmove⟩ := Cursor.Moves.append_iff.mp hmove
    have hspace' : isSpace c' = true := (Bool.and_eq_true_iff.mp (List.all_cons ▸ hb')).1
    have hlexeme : (Rule.operatorOf op.tier).Lexeme o behind.rest := by
      rw [hmove.rest_eq, List.cons_append, List.cons_append]
      exact ho.lexeme hspace'
    have hne : behind.skipSpaces ≠ behind := by
      intro heq
      have := behind.skipSpaces_endsBefore
      rw [heq, hmove.rest_eq] at this
      exact Bool.noConfusion (hspace'.symm.trans (endsBefore_cons.mp this))
    have hv := hmove.behindBlanks hb' h'.head
    obtain ⟨last, x, hx, hlast, htight, hbuilds⟩ := h'.derives _ _ hv hmid
    -- The node of the left operand is taken apart and goes on with the operator.
    obtain ⟨children, hpattern, -, hnode⟩ := (Derives.rule_iff hspec.1).mp hderives
    obtain rfl := List.singleton_inj.mp hnode
    rw [Rule.pattern_ofLevel hbounds.2] at hpattern
    have hoperator : Derives (.rule (Rule.operatorOf op.tier)) stop.skipSpaces behind
        [(Rule.operatorOf op.tier).node stop.skipSpaces behind []] := by
      rw [hskip]
      exact (Derives.token_iff htoken).mpr ⟨o, hop, hlexeme, rfl⟩
    have hchain := hpattern.chained_snoc
      (show Derives (linkOf op.tier) stop.skipSpaces behind _ from
        hlink ▸ Derives.call_iff.mpr hoperator) hx
    refine ⟨last, _, (Derives.rule_iff hspec.1).mpr ⟨_, by
      rw [Rule.pattern_ofLevel hbounds.2]
      exact hchain, hspec.2.1 (by omega) _ _, rfl⟩, hlast, fun h => absurd (hspec.2.2.1.mp h)
        (by omega), ?_⟩
    rw [Tree.map_node] at ht ⊢
    rw [List.map_append]
    have hoptext : (((Rule.operatorOf op.tier).node stop.skipSpaces behind []).map Rule.tag).text =
        o := by
      rw [Tree.text_map]
      rw [hskip]
      exact hop.node_text
    have hoplabel : (((Rule.operatorOf op.tier).node stop.skipSpaces behind []).map
        Rule.tag).label = .operator := by
      rw [Tree.label_map]
      exact htag
    have hofToken := hoptext ▸ ho.ofToken?
    by_cases hadditive : op.tier = 4
    · rw [hadditive] at ht hchain hpattern hx hoplabel hofToken hoperator ⊢
      refine Tree.Builds.additive ht (hpattern.sameGaps hchain) ?_ hoplabel hofToken hbuilds
      intro left hleft
      rw [List.getLast?_map] at hleft
      obtain ⟨left, hchildren, rfl⟩ := Option.map_eq_some_iff.mp hleft
      exact hchain.blankAmong_of_ne hchildren hoperator (congrArg Span.start hx.span_eq.1) hne
    · exact Tree.Builds.binary (hfolds hadditive) ht hoplabel hofToken hbuilds

/-- An operand and a branch in front of a conditional. -/
theorem conditional {v w m : List Char} {c : Char} {e' e'' : Expr Unit}
    (h : ReadsAs Seam 1 u e) (h' : ReadsAs follow 0 v e') (hc : isSpace c = true)
    (hw : (c :: w).all isSpace = true) (hm : ∃ d n, m = d :: n ∧ isSpace d = false)
    (hmark : ∀ place stop : Cursor, place.Moves (m ++ v) stop → ∃ mid x,
      Derives (linkOf 0) place mid [x] ∧ mid.skipSpaces.Moves v stop ∧
        ∀ span span' excerpt excerpt' operand ts, operand.Builds e →
          (Tree.node .conditional span excerpt ts).Builds e' →
            (Tree.node .conditional span' excerpt' (operand :: x.map Rule.tag :: ts)).Builds e'') :
    ReadsAs follow 0 (u ++ (c :: w ++ (m ++ v))) e'' where
  head := by
    obtain ⟨d, w, rfl, hd⟩ := h.head
    exact ⟨d, _, List.cons_append, hd⟩
  derives here mid hmove hmid := by
    obtain ⟨place, hu, hmove⟩ := Cursor.Moves.append_iff.mp hmove
    have hseam : Seam place.rest := by
      rw [hmove.rest_eq]
      exact seam_cons_of_isSpace hc
    obtain ⟨stop, t, hderives, hskip, -, ht⟩ := h.derives _ _ hu hseam
    have hmove := hmove.behindBlanks hw (by
      obtain ⟨d, n, rfl, hd⟩ := hm
      exact ⟨d, _, List.cons_append, hd⟩)
    rw [← hskip] at hmove
    obtain ⟨behind, x, hlink, hv, hbuilds⟩ := hmark _ _ hmove
    obtain ⟨last, y, hy, hlast, -, hright⟩ := h'.derives _ _ hv hmid
    obtain ⟨children, hpattern, -, hnode⟩ := (Derives.rule_iff rfl).mp hy
    obtain rfl := List.singleton_inj.mp hnode
    obtain ⟨final, hchain, hfinal⟩ := Derives.chained_cons hderives hlink hpattern
    refine ⟨final, _, (Derives.rule_iff rfl).mpr ⟨_, hchain, trivial, rfl⟩, hfinal.trans hlast,
      fun h => (by cases h), ?_⟩
    rw [Tree.map_node] at hright ⊢
    exact hbuilds _ _ _ _ _ _ ht hright

/-- Two operands with `??` between them. -/
theorem falsy {v b b' : List Char} {c c' : Char} {e' : Expr Unit} (h : ReadsAs Seam 1 u e)
    (h' : ReadsAs follow 0 v e') (hb : (c :: b).all isSpace = true)
    (hb' : (c' :: b').all isSpace = true) :
    ReadsAs follow 0 (u ++ (c :: b ++ (['?', '?'] ++ (c' :: b' ++ v)))) (.falsy () e e') := by
  have hspace : isSpace c = true := (Bool.and_eq_true_iff.mp (List.all_cons ▸ hb)).1
  rw [← List.append_assoc ['?', '?']]
  refine conditional h h' hspace hb ⟨_, _, rfl, by decide⟩ fun place stop hmove => ?_
  rw [List.append_assoc] at hmove
  obtain ⟨mid, hmark, hv⟩ := Cursor.Moves.append_iff.mp hmove
  refine ⟨mid, Rule.coalesce.node place mid [], ?_, hv.behindBlanks hb' h'.head, ?_⟩
  · exact .left (Derives.call_iff.mpr ((Derives.token_iff rfl).mpr ⟨_, hmark, rfl, rfl⟩))
  · intro span span' excerpt excerpt' operand ts hoperand hts
    rw [Tree.map_node]
    exact .falsy hoperand hts

/-- A condition and two branches. -/
theorem ternary {v w b₁ b₂ b₃ b₄ : List Char} {c₁ c₃ : Char} {e' e'' : Expr Unit}
    (h : ReadsAs Seam 1 u e) (h' : ReadsAs Seam 0 v e') (h'' : ReadsAs follow 0 w e'')
    (hb₁ : (c₁ :: b₁).all isSpace = true) (hb₂ : b₂.all isSpace = true)
    (hb₃ : (c₃ :: b₃).all isSpace = true) (hb₄ : b₄.all isSpace = true) :
    ReadsAs follow 0
      (u ++ (c₁ :: b₁ ++ (('?' :: b₂ ++ (v ++ (c₃ :: b₃ ++ (':' :: b₄)))) ++ w)))
      (.ternary () e e' e'') := by
  have hspace : isSpace c₁ = true := (Bool.and_eq_true_iff.mp (List.all_cons ▸ hb₁)).1
  refine conditional h h'' hspace hb₁ ⟨_, _, rfl, by decide⟩ fun place stop hmove => ?_
  simp only [List.append_assoc, List.cons_append] at hmove
  obtain ⟨mark, hmark, hmove⟩ := Cursor.Moves.cons_iff.mp hmove
  have hmove := hmove.behindBlanks hb₂ (by
    obtain ⟨d, n, rfl, hd⟩ := h'.head
    exact ⟨d, _, List.cons_append, hd⟩)
  obtain ⟨behind, hv, hmove⟩ := Cursor.Moves.append_iff.mp hmove
  have hseam : Seam behind.rest := by
    rw [hmove.rest_eq]
    exact seam_cons_of_isSpace (Bool.and_eq_true_iff.mp (List.all_cons ▸ hb₃)).1
  obtain ⟨last, t, hderives, hskip, -, ht⟩ := h'.derives _ _ hv hseam
  have hmove := Cursor.Moves.behindBlanks (b := c₃ :: b₃) (u := ':' :: (b₄ ++ w)) hmove hb₃
    ⟨_, _, rfl, by decide⟩
  rw [← hskip] at hmove
  obtain ⟨colon, hcolon, hmove⟩ := Cursor.Moves.cons_iff.mp hmove
  refine ⟨colon, Rule.ternaryThen.node place colon [t], ?_, hmove.behindBlanks hb₄ h''.head, ?_⟩
  · refine .right (Derives.call_iff.mpr ((Derives.rule_iff rfl).mpr ⟨[t], ?_, trivial, rfl⟩))
    exact .counted (Derives.spaced_iff.mpr ⟨mark, [], [t], .text hmark, Derives.spaced_iff.mpr
      ⟨last, [t], [], Derives.call_iff.mpr hderives, .text hcolon, rfl⟩, rfl⟩)
  · intro span span' excerpt excerpt' operand ts hoperand hts
    rw [Tree.map_node]
    exact .ternary hoperand ht hts

/-- A prefix operator in front of an operand, with blanks between them or none. -/
theorem unary {op : UnaryOp} {b : List Char} (h : ReadsAs follow 6 u e)
    (hb : b.all isSpace = true) : ReadsAs follow 6 (op.text ++ (b ++ u)) (.unary () op e) where
  head := by cases op <;> exact ⟨_, _, rfl, by decide⟩
  derives here mid hmove hmid := by
    obtain ⟨place, hop, hmove⟩ := Cursor.Moves.append_iff.mp hmove
    obtain ⟨stop, t, hderives, -, htight, ht⟩ := h.derives _ _ (hmove.behindBlanks hb h.head) hmid
    obtain rfl := htight rfl
    obtain ⟨children, hpattern, -, hnode⟩ := (Derives.rule_iff rfl).mp hderives
    obtain rfl := List.singleton_inj.mp hnode
    have hlexeme : Rule.unaryOp.Lexeme op.text place.rest := by
      cases op
      · exact .inl rfl
      · exact .inr (.inl rfl)
      · exact .inr (.inr rfl)
    have hoperator := (Derives.token_iff (r := .unaryOp) rfl).mpr ⟨_, hop, hlexeme, rfl⟩
    refine ⟨stop, _, (Derives.rule_iff rfl).mpr ⟨_, Derives.unary_cons hoperator hpattern, trivial,
      rfl⟩, rfl, fun _ => rfl, ?_⟩
    rw [Tree.map_node] at ht ⊢
    have htext : ((Rule.unaryOp.node here place []).map Rule.tag).text = op.text := by
      rw [Tree.text_map]
      exact hop.node_text
    refine .unary ?_ (htext ▸ UnaryOp.ofToken?_text op) ht
    rw [Tree.label_map]
    rfl

end ReadsAs

end Vimscript
