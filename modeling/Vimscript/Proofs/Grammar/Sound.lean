import Vimscript.Proofs.Grammar.Derives

/-!
# Matching yields derivations

What a pattern gives at a place is derived from it there. Most of that follows the pattern step by
step. The part that is not local is which of two derivations matching takes: digits before a point
are no integer because the float, which is tried first, would have matched, and a name before
arguments is no variable because the call by name would have.
-/

namespace Vimscript

namespace Pattern

/-- Whether a pattern may add a node of a rule. -/
def adds (label : Rule) : Pattern → Bool
  | rule r => r == label
  | seq first second | choice first second => first.adds label || second.adds label
  | many part | opt part | counted part => part.adds label
  | _ => false

/-- Whether a pattern is made without the parts that only tokens have. -/
def isPlain : Pattern → Bool
  | anyCase _ | finish | not _ => false
  | seq first second | choice first second => first.isPlain && second.isPlain
  | many part | opt part | counted part => part.isPlain
  | _ => true

end Pattern

/-- The patterns of rules that are no tokens enter rules and read texts only. -/
theorem Rule.pattern_isPlain {r : Rule} (hr : r.isToken = false) : r.pattern.isPlain = true := by
  cases r <;> first | rfl | cases hr

namespace Parses

variable {here mid stop : Cursor} {p q : Pattern} {r : Rule} {ts us : List (Tree Rule)}

/-- The nodes that a pattern adds are those of its rules. -/
theorem adds {res : Reading} (h : Parses p here res) :
    ∀ r t, res = some r → t ∈ r.2 → p.adds t.label = true := by
  have leaf {place : Option Cursor} {r : Cursor × List (Tree Rule)} {t : Tree Rule}
      (h : Reading.leaf place = some r) : t ∉ r.2 := by
    rw [(leaf_some_iff.mp h.symm).2]
    exact List.not_mem_nil
  induction h with
  | empty =>
    intro r t hr ht
    cases hr
    cases ht
  | text | anyCase | char => exact fun r t h ht => (leaf h ht).elim
  | finish =>
    intro r t h ht
    split at h
    · cases h
      cases ht
    · cases h
  | @rule _ _ inside h _ =>
    intro r t hr ht
    cases inside with
    | none => cases hr
    | some inside =>
      cases hr
      obtain rfl := List.mem_singleton.mp ht
      exact beq_self_eq_true _
  | seqFail => exact fun r t h => nomatch h
  | @seq _ _ _ _ us after _ _ ih ih' =>
    intro r t hr ht
    cases after with
    | none => cases hr
    | some after =>
      cases hr
      rcases List.mem_append.mp ht with ht | ht
      · exact Bool.or_eq_true_iff.mpr (.inl (ih _ t rfl ht))
      · exact Bool.or_eq_true_iff.mpr (.inr (ih' _ t rfl ht))
  | left _ ih => exact fun r t hr ht => Bool.or_eq_true_iff.mpr (.inl (ih r t hr ht))
  | right _ _ _ ih' => exact fun r t hr ht => Bool.or_eq_true_iff.mpr (.inr (ih' r t hr ht))
  | done =>
    intro r t hr ht
    cases hr
    cases ht
  | again _ _ ih ih' =>
    intro r t hr ht
    cases hr
    rcases List.mem_append.mp ht with ht | ht
    · exact ih _ t rfl ht
    · exact ih' _ t rfl ht
  | @opt _ _ inside _ ih =>
    intro r t hr ht
    cases hr
    cases inside with
    | none => cases ht
    | some inside => exact ih _ t rfl ht
  | @not _ _ inside =>
    intro r t hr ht
    cases inside with
    | none =>
      cases hr
      cases ht
    | some inside => cases hr
  | counted _ ih => exact ih

/-- An alternative that adds no node of a rule is not the one that added such a node. -/
theorem skip (hp : p.adds r = false) {t : Tree Rule} (ht : t ∈ ts) (hr : t.label = r)
    (h : Parses (.choice p q) here (some (stop, ts))) :
    Parses p here none ∧ Parses q here (some (stop, ts)) := by
  rcases choice_some_iff.mp h with h | h
  · have := h.adds _ t rfl ht
    rw [hr, hp] at this
    cases this
  · exact h

/-- A choice that gave a label took the side that can give it. -/
theorem keep (hq : q.adds r = false) {t : Tree Rule} (ht : t ∈ ts) (hr : t.label = r)
    (h : Parses (.choice p q) here (some (stop, ts))) : Parses p here (some (stop, ts)) := by
  rcases choice_some_iff.mp h with h | ⟨-, h⟩
  · exact h
  · have := h.adds _ t rfl ht
    rw [hr, hq] at this
    cases this

/-- Digits, a point and a digit begin a float. -/
theorem float_of_digits {u more : List Char} {d : Char} (hu : Text.IsRun Char.isDigit u)
    (hd : d.isDigit = true) (hrest : here.rest = u ++ '.' :: d :: more) :
    ¬ Parses (.rule .float) here none := by
  intro hnone
  obtain ⟨whole, hwhole⟩ : ∃ w, here.Moves u w ∧ w.rest = '.' :: d :: more :=
    ⟨_, .of_rest_eq hrest, rfl⟩
  obtain ⟨point, hpoint⟩ : ∃ c, whole.Moves ['.'] c ∧ c.rest = d :: more :=
    ⟨_, .of_rest_eq hwhole.2, rfl⟩
  have first : Parses (.plus Pattern.digit) here (some (whole, [])) := by
    refine plus_char_some_iff.mpr ⟨u, hu.1, hu.2, hwhole.1, ?_, rfl⟩
    rw [hwhole.2]
    exact Text.endsBefore_cons.mpr (by decide)
  have second : Parses (.token ".") whole (some (point, [])) :=
    token_some_iff.mpr ⟨hpoint.1, rfl⟩
  have third : Parses (.plus Pattern.digit) point (some (point.skipWhile Char.isDigit, [])) := by
    refine plus_char_some_iff.mpr ⟨_, ?_, List.all_takeWhile, point.moves_skipWhile _,
      Text.endsBefore_dropWhile _ _, rfl⟩
    rw [hpoint.2, List.takeWhile_cons, if_pos hd]
    exact List.cons_ne_nil _ _
  rcases seq_none_iff.mp (counted_iff.mp (counted_iff.mp (rule_none_iff.mp hnone))) with
    h | ⟨_, _, h, hnone⟩
  · exact first.not_none h
  obtain ⟨rfl, rfl⟩ := Prod.mk.inj (Option.some.inj (first.unique h))
  rcases seq_none_iff.mp hnone with h | ⟨_, _, h, hnone⟩
  · exact second.not_none h
  obtain ⟨rfl, rfl⟩ := Prod.mk.inj (Option.some.inj (second.unique h))
  rcases seq_none_iff.mp hnone with h | ⟨_, _, h, hnone⟩
  · exact third.not_none h
  · exact opt_ne_none (counted_iff.mp hnone)

/-- An integer was taken only where no float stood, so no point and digit follow its digits. -/
theorem settled_primary {span : Span} {excerpt : Excerpt}
    (h : Parses Rule.primary.pattern here (some (stop, [.node .integer span excerpt ts])))
    (hdigits : excerpt.toList.all Char.isDigit = true) {d : Char} {more : List Char}
    (hrest : stop.rest = '.' :: d :: more) : d.isDigit = false := by
  have h := (skip rfl (List.mem_singleton.mpr rfl) rfl h).2
  obtain ⟨hfloat, h⟩ := skip rfl (List.mem_singleton.mpr rfl) rfl h
  have h := keep rfl (List.mem_singleton.mpr rfl) rfl h
  obtain ⟨u, hmove, -, hnode⟩ := (token_iff rfl).mp h
  have hne : u ≠ [] := by
    rintro rfl
    have := h.length_lt rfl
    rw [hmove.rest_eq] at this
    exact Nat.lt_irrefl _ this
  have text_eq : excerpt.toList = u := by
    obtain ⟨-, rfl, -⟩ := (by simpa [Rule.node] using hnode : _ ∧ excerpt = _ ∧ _)
    exact hmove.excerpt_toList
  rw [text_eq] at hdigits
  cases hd : d.isDigit with
  | false => rfl
  | true =>
    have hfirst : here.rest = u ++ '.' :: d :: more := by rw [hmove.rest_eq, hrest]
    exact (float_of_digits ⟨hne, hdigits⟩ hd hfirst hfloat).elim

/-- A single letter was taken as a variable only where it was no scope. -/
theorem settled_variableRef {name : Tree Rule}
    (h : Parses Rule.variableRef.pattern here (some (stop, [name]))) {c d : Char}
    {more : List Char} (hname : name.text = [c]) (hc : Text.isScopeLetter c = true)
    (hrest : stop.rest = ':' :: d :: more) : Text.isNameChar d = false := by
  rcases choice_some_iff.mp h with h | ⟨hnone, h⟩
  · obtain ⟨_, _, _, h, h', hts⟩ := seq_some_iff.mp (counted_iff.mp h)
    obtain ⟨_, -, -, rfl⟩ := (token_iff rfl).mp h
    obtain ⟨_, -, -, rfl⟩ := (token_iff rfl).mp h'
    cases hts
  obtain ⟨u, hmove, -, hnode⟩ := (token_iff rfl).mp h
  obtain rfl := List.singleton_inj.mp hnode
  obtain rfl : u = [c] := hmove.excerpt_toList.symm.trans hname
  cases hd : Text.isNameChar d with
  | false => rfl
  | true =>
    have hfirst : here.rest = [c, ':'] ++ (d :: more) := by rw [hmove.rest_eq, hrest]; rfl
    rcases seq_none_iff.mp (counted_iff.mp hnone) with hnone | ⟨mid, us, hscope, hnone⟩
    · exact ((token_iff (r := .scope) rfl).mpr
        ⟨_, .of_rest_eq hfirst, ⟨c, rfl, hc⟩, rfl⟩).not_none hnone |>.elim
    obtain ⟨v, hmove', ⟨e, rfl, -⟩, -⟩ := (token_iff rfl).mp hscope
    have hmid : mid.rest = d :: more := by
      have := hmove'.rest_eq.symm.trans hfirst
      simp only [List.cons_append, List.nil_append, List.cons.injEq] at this
      exact this.2.2
    refine ((token_iff (r := .scopedName) rfl).mpr ⟨_, mid.moves_skipWhile Text.isNameChar,
      ⟨⟨?_, List.all_takeWhile⟩, Text.endsBefore_dropWhile _ _⟩, rfl⟩).not_none hnone |>.elim
    rw [hmid, List.takeWhile_cons, if_pos hd]
    exact List.cons_ne_nil _ _

/-- A single letter was taken as an option only where it was no scope. -/
theorem settled_option {name : Tree Rule}
    (h : Parses Rule.option.pattern here (some (stop, [name])))
    (hname : name.text = ['g'] ∨ name.text = ['l']) : Text.EndsBefore (· == ':') stop.rest := by
  obtain ⟨_, _, _, hamp, h, hts⟩ := seq_some_iff.mp (counted_iff.mp h)
  obtain ⟨_, rfl⟩ := token_some_iff.mp hamp
  obtain ⟨mid, us, vs, hscope, h', rfl⟩ := seq_some_iff.mp h
  obtain ⟨u, hmove, -, rfl⟩ := (token_iff rfl).mp h'
  rcases opt_some_iff.mp (counted_iff.mp hscope) with hscope | ⟨hnone, rfl, rfl⟩
  · obtain ⟨_, -, -, rfl⟩ := (token_iff rfl).mp hscope
    cases hts
  obtain rfl := List.singleton_inj.mp hts
  rw [hmove.node_text] at hname
  rw [Text.endsBefore_beq_iff]
  rintro ⟨rest, hrest⟩
  have hcolon : mid.rest = (u ++ [':']) ++ rest := by rw [hmove.rest_eq, ← hrest, List.append_assoc]
  refine ((token_iff (r := .optionScope) rfl).mpr ⟨_, .of_rest_eq hcolon, ?_, rfl⟩).not_none hnone
  rcases hname with rfl | rfl
  · exact .inl rfl
  · exact .inr rfl

/-- Arguments begin with a parenthesis. -/
theorem callArgs_opens (h : Parses (.rule .callArgs) here (some (stop, ts))) :
    ∃ rest, here.rest = '(' :: rest := by
  obtain ⟨_, h, -⟩ := rule_some_iff.mp h
  obtain ⟨mid, _, _, h, -, -⟩ := seq_some_iff.mp (counted_iff.mp h)
  exact ⟨mid.rest, (token_some_iff.mp h).1.rest_eq⟩

/-- A variable that a name of a function ends is followed by no arguments, since with them it
would have been a call. -/
theorem not_callArgs_of_variableRef {parts : List (Tree Rule)} {name : Tree Rule} {after : Cursor}
    (hcall : Parses (.rule .functionCall) here none)
    (h : Parses Rule.variableRef.pattern here (some (mid, parts)))
    (hlast : parts.getLast? = some name) (hname : name.text.head?.any Text.isNameStart = true) :
    ¬ Parses (.rule .callArgs) mid (some (after, us)) := by
  intro hargs
  have isName {u : List Char} (hu : u.head?.any Text.isNameStart = true)
      (hrun : Text.IsRun Text.isNameChar u) : Text.IsName Text.isNameStart Text.isNameChar u := by
    cases u with
    | nil => cases hu
    | cons c v =>
      exact ⟨c, v, rfl, by simpa using hu, (Bool.and_eq_true_iff.mp (List.all_cons ▸ hrun.2)).2⟩
  have call {inner : Cursor} {vs : List (Tree Rule)} {u : List Char}
      (hscope : Parses (.optional (.call .scope)) here (some (inner, vs)))
      (hmove : inner.Moves u mid) (hu : Rule.functionName.Lexeme u mid.rest) : False := by
    have name := (token_iff (r := .functionName) rfl).mpr ⟨u, hmove, hu, rfl⟩
    have pattern : Parses Rule.functionCall.pattern here (some (after, _)) :=
      .counted (.seq hscope (.seq name (.counted hargs)))
    exact (Parses.rule pattern).not_none hcall
  rcases choice_some_iff.mp h with h | ⟨-, h⟩
  · obtain ⟨inner, _, _, hscope, h', rfl⟩ := seq_some_iff.mp (counted_iff.mp h)
    obtain ⟨u, hmove, ⟨hrun, hend⟩, rfl⟩ := (token_iff rfl).mp h'
    obtain rfl : _ = name := by simpa using hlast
    rw [hmove.node_text] at hname
    exact call (.counted (opt_some_iff.mpr (.inl hscope))) hmove ⟨isName hname hrun, hend⟩
  · obtain ⟨u, hmove, hu, rfl⟩ := (token_iff rfl).mp h
    obtain ⟨res, hscope⟩ := Rule.scope.exists_parses here
    cases res with
    | none => exact call (.counted (.opt hscope)) hmove hu
    | some res =>
      -- The colon of the scope stands where the arguments open.
      obtain ⟨_, hmove', ⟨c, rfl, -⟩, -⟩ := (token_iff rfl).mp hscope
      obtain ⟨rest, hopen⟩ := callArgs_opens hargs
      have same := hmove.rest_eq.symm.trans hmove'.rest_eq
      obtain ⟨⟨d, v, rfl, -, hv⟩, -⟩ := hu
      rw [hopen] at same
      cases v with
      | nil => cases (List.cons.inj (List.cons.inj same).2).1
      | cons e v =>
        obtain rfl := (List.cons.inj (List.cons.inj same).2).1
        cases (Bool.and_eq_true_iff.mp (List.all_cons ▸ hv)).1

/-- Where arguments can follow a primary that takes them, the primary has taken them. -/
theorem settled_postfixed {first : Tree Rule} {after : Cursor}
    (h : Parses (.rule .primary) here (some (mid, [first]))) (hfirst : first.takesCall = true) :
    ¬ Parses (.rule .callArgs) mid (some (after, us)) := by
  obtain ⟨children, inside, hnode⟩ := rule_some_iff.mp h
  obtain rfl := List.singleton_inj.mp hnode
  obtain ⟨inner, rfl, hinner⟩ : ∃ inner, children = [inner] ∧ inner.takesCall = true := by
    unfold Tree.takesCall Rule.node at hfirst
    split at hfirst
    · rename_i heq
      injection heq with _ _ _ hchildren
      exact ⟨_, hchildren, hfirst⟩
    · rename_i heq
      cases heq
    · rename_i heq
      cases heq
    · cases hfirst
  have alone : inner ∈ [inner] := List.mem_singleton.mpr rfl
  unfold Tree.takesCall at hinner
  split at hinner
  · cases inside.adds _ _ rfl alone
  · iterate 12 replace inside := (skip rfl alone rfl inside).2
    obtain ⟨hcall, hvariable⟩ := skip rfl alone rfl inside
    obtain ⟨parts, hparts, hnode⟩ := rule_some_iff.mp (counted_iff.mp hvariable)
    injection List.singleton_inj.mp hnode with _ _ _ same
    subst same
    obtain ⟨name, hlast, hname⟩ := (Option.any_eq_true _ _).mp hinner
    exact not_callArgs_of_variableRef (counted_iff.mp hcall) hparts hlast hname
  · iterate 5 replace inside := (skip rfl alone rfl inside).2
    have hlambdaExpr := keep rfl alone rfl inside
    obtain ⟨parts, hparts, hnode⟩ := rule_some_iff.mp (counted_iff.mp hlambdaExpr)
    injection List.singleton_inj.mp hnode with _ _ _ same
    obtain ⟨_, _, _, hlambda, hargs, hts⟩ := seq_some_iff.mp (counted_iff.mp hparts)
    obtain ⟨_, -, rfl⟩ := rule_some_iff.mp (counted_iff.mp hlambda)
    rcases opt_some_iff.mp (counted_iff.mp hargs) with hargs | ⟨hnone, rfl, rfl⟩
    · obtain ⟨_, -, rfl⟩ := rule_some_iff.mp (counted_iff.mp hargs)
      rw [← same] at hts
      cases hts
    · exact fun hargs => hargs.not_none (counted_iff.mp hnone)
  · cases hinner

/-- Of two derivations matching takes the one that counts. -/
theorem settled (h : Parses r.pattern here (some (stop, ts))) : r.Settled ts stop.rest := by
  unfold Rule.Settled
  split
  · exact fun hdigits d more hrest => settled_primary h hdigits hrest
  · exact fun c hname hc d more hrest => settled_variableRef h hname hc hrest
  · exact settled_option h
  · rename_i first second more
    intro hfirst hsecond
    obtain ⟨mid, _, _, hprimary, h', hts⟩ := seq_some_iff.mp (counted_iff.mp h)
    obtain ⟨children, hp, rfl⟩ := rule_some_iff.mp (counted_iff.mp hprimary)
    obtain ⟨rfl, rfl⟩ := List.cons.inj hts
    rcases many_some_iff.mp (counted_iff.mp h') with ⟨-, -, hnil⟩ | ⟨after, us, vs, hround, -, hus⟩
    · cases hnil
    obtain ⟨r, hround, hr⟩ : ∃ r, Parses (.rule r) mid (some (after, us)) ∧
        (r = .callArgs ∨ r ≠ .callArgs) := by
      rcases choice_some_iff.mp hround with hround | ⟨-, hround⟩
      · exact ⟨_, counted_iff.mp hround, .inr (by decide)⟩
      · rcases choice_some_iff.mp hround with hround | ⟨-, hround⟩
        · exact ⟨_, counted_iff.mp hround, .inr (by decide)⟩
        · exact ⟨_, counted_iff.mp hround, .inl rfl⟩
    obtain ⟨_, -, hus'⟩ := rule_some_iff.mp hround
    rw [hus'] at hus
    obtain ⟨rfl, -⟩ := List.cons.inj hus
    rcases hr with rfl | hr
    · exact settled_postfixed (counted_iff.mp hprimary) hfirst hround
    · exact hr hsecond
  · trivial

/-- What matching yields is a derivation. -/
theorem derives_of_plain {res : Reading} (h : Parses p here res) (hp : p.isPlain = true) :
    ∀ r, res = some r → Derives p here r.1 r.2 := by
  induction h with
  | empty =>
    intro r hr
    cases hr
    exact .empty
  | text =>
    intro r hr
    obtain ⟨hstop, hts⟩ := leaf_some_iff.mp hr.symm
    rw [hts]
    exact .text (Cursor.skipText?_eq_some_iff.mp hstop)
  | char =>
    intro r hr
    obtain ⟨hstop, hts⟩ := leaf_some_iff.mp hr.symm
    obtain ⟨c, hc, hmove⟩ := Cursor.skipChar?_eq_some_iff.mp hstop
    rw [hts]
    exact .char hc hmove
  | anyCase | finish | not => cases hp
  | @rule here rule inside h ih =>
    intro r hr
    cases inside with
    | none => cases hr
    | some inside =>
      cases hr
      cases hrule : rule.isToken with
      | true =>
        obtain ⟨u, hmove, hu, hts⟩ := (token_iff hrule).mp (Parses.rule h)
        simp only at hts ⊢
        rw [hts]
        exact .token hrule hmove hu
      | false => exact .rule hrule (ih (Rule.pattern_isPlain hrule) _ rfl) h.settled
  | seqFail => exact fun r hr => nomatch hr
  | @seq _ _ _ _ us after _ _ ih ih' =>
    intro r hr
    obtain ⟨hfirst, hsecond⟩ := Bool.and_eq_true_iff.mp hp
    cases after with
    | none => cases hr
    | some after =>
      cases hr
      exact .seq (ih hfirst _ rfl) (ih' hsecond _ rfl)
  | left _ ih =>
    intro r hr
    exact .left (ih (Bool.and_eq_true_iff.mp hp).1 r hr)
  | right _ _ _ ih' =>
    intro r hr
    exact .right (ih' (Bool.and_eq_true_iff.mp hp).2 r hr)
  | done h =>
    intro r hr
    cases hr
    refine .done fun accepts hround => ?_
    subst hround
    exact char_none_iff.mp (counted_iff.mp h)
  | again _ _ ih ih' =>
    intro r hr
    cases hr
    exact .again (ih hp _ rfl) (ih' hp _ rfl)
  | @opt _ _ inside _ ih =>
    intro r hr
    cases hr
    cases inside with
    | none => exact .absent
    | some inside => exact .present (ih hp _ rfl)
  | counted _ ih => exact fun r hr => .counted (ih hp r hr)

/-- What matching yields for a rule is a derivation. -/
theorem derives (h : Parses (.rule r) here (some (stop, ts))) : Derives (.rule r) here stop ts :=
  h.derives_of_plain rfl _ rfl

end Parses

end Vimscript
