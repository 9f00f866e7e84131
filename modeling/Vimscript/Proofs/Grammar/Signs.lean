import Vimscript.Proofs.Grammar.Lexeme

/-!
# Signs

The operators of the grammar are ordered choices of fixed texts. Where none of the texts begins a
later one, such a choice takes the longest text that stands at a place, and this settles the prefix
operators, the additive and multiplicative ones and the signs of relations. A relation that is
named by a word ends where the word does, and a case sign may follow any relation.
-/

namespace Vimscript

namespace Parses

variable {here stop : Cursor} {ts : List (Tree Rule)}

open Text Pattern

/-- The first alternative is taken where it matches, and the others only where it fails. -/
theorem firstOf_cons_some_iff {p : Pattern} {others : List Pattern} :
    Parses (firstOf (p :: others)) here (some (stop, ts)) ↔
      Parses p here (some (stop, ts)) ∨
        Parses p here none ∧ Parses (firstOf others) here (some (stop, ts)) := by
  cases others with
  | nil =>
    refine ⟨.inl, ?_⟩
    rintro (h | ⟨-, h⟩)
    · exact h
    · cases (not_some_iff.mp h).1.unique .empty
  | cons q others => exact choice_some_iff

section Texts

variable {texts : List (List Char)} (htexts : texts.Pairwise fun u v => ¬ u <+: v)

include htexts

/-- Of literal texts none of which begins a later one, an ordered choice takes the longest that
stands at the place. -/
theorem firstOf_texts_some_iff {others : List Pattern} :
    Parses (firstOf (texts.map .text ++ others)) here (some (stop, ts)) ↔
      (∃ u ∈ texts, here.Moves u stop ∧ (∀ w, u ++ w ∈ texts → w <+: stop.rest → w = []) ∧
        ts = []) ∨
      (∀ u ∈ texts, ¬ u <+: here.rest) ∧ Parses (firstOf others) here (some (stop, ts)) := by
  induction texts with
  | nil => simp
  | cons first rest ih =>
    obtain ⟨hfirst, hrest⟩ := List.pairwise_cons.mp htexts
    rw [List.map_cons, List.cons_append, firstOf_cons_some_iff, text_some_iff, text_none_iff,
      ih hrest]
    constructor
    · rintro (⟨hmove, rfl⟩ | ⟨hnone, ⟨u, hu, hmove, hlongest, rfl⟩ | ⟨hnone', h⟩⟩)
      · refine .inl ⟨first, List.mem_cons_self, hmove, fun w hw _ => ?_, rfl⟩
        rcases List.mem_cons.mp hw with heq | hw
        · exact List.append_right_eq_self.mp heq
        · exact (hfirst _ hw (List.prefix_append first w)).elim
      · refine .inl ⟨u, List.mem_cons_of_mem _ hu, hmove, fun w hw hstands => ?_, rfl⟩
        rcases List.mem_cons.mp hw with heq | hw
        · refine (hnone ?_).elim
          rw [← heq, hmove.rest_eq]
          exact (List.prefix_append_right_inj u).mpr hstands
        · exact hlongest w hw hstands
      · exact .inr ⟨List.forall_mem_cons.mpr ⟨hnone, hnone'⟩, h⟩
    · rintro (⟨u, hu, hmove, hlongest, rfl⟩ | ⟨hnone, h⟩)
      · rcases List.mem_cons.mp hu with rfl | hlater
        · exact .inl ⟨hmove, rfl⟩
        · refine .inr ⟨fun hstands => ?_, .inl ⟨u, hlater, hmove,
            fun w hw => hlongest w (List.mem_cons_of_mem _ hw), rfl⟩⟩
          rw [hmove.rest_eq] at hstands
          rcases List.prefix_or_prefix_of_prefix hstands (List.prefix_append u stop.rest) with
            hbegins | ⟨w, hw⟩
          · exact hfirst u hlater hbegins
          -- The first text would go on where the one taken ends.
          · rw [← hw] at hstands
            obtain rfl := hlongest w (hw ▸ List.mem_cons_self)
              ((List.prefix_append_right_inj u).mp hstands)
            rw [List.append_nil] at hw
            exact hfirst u hlater (hw ▸ List.prefix_refl u)
      · obtain ⟨hnone, hnone'⟩ := List.forall_mem_cons.mp hnone
        exact .inr ⟨hnone, .inr ⟨hnone', h⟩⟩

/-- Without others such a choice takes the longest of its texts. -/
theorem firstOf_longest_some_iff :
    Parses (firstOf (texts.map .text)) here (some (stop, ts)) ↔
      ∃ u ∈ texts, here.Moves u stop ∧ (∀ w, u ++ w ∈ texts → w <+: stop.rest → w = []) ∧
        ts = [] := by
  have h := @firstOf_texts_some_iff here stop ts texts htexts []
  rw [List.append_nil] at h
  refine h.trans (or_iff_left fun ⟨_, h⟩ => ?_)
  cases (not_some_iff.mp h).1.unique .empty

/-- Of literal texts none of which begins another, the one that stands at the place is taken. -/
theorem firstOf_apart_some_iff (hapart : ∀ u ∈ texts, ∀ v ∈ texts, u <+: v → v = u) :
    Parses (firstOf (texts.map .text)) here (some (stop, ts)) ↔
      ∃ u ∈ texts, here.Moves u stop ∧ ts = [] := by
  refine (firstOf_longest_some_iff htexts).trans (exists_congr fun u => and_congr_right fun hu =>
    and_congr_right fun _ => and_iff_right fun w hw _ => ?_)
  exact List.append_right_eq_self.mp (hapart u hu _ hw (List.prefix_append u w))

end Texts

/-- A prefix operator is one of three signs. -/
theorem unaryOp_some_iff : Parses Rule.unaryOp.pattern here (some (stop, ts)) ↔
    ∃ u, here.Moves u stop ∧ Rule.unaryOp.Lexeme u stop.rest ∧ ts = [] := by
  have apart := @firstOf_apart_some_iff here stop ts [['!'], ['-'], ['+']] (by decide) (by decide)
  refine apart.trans (exists_congr fun u => and_left_comm.trans ?_)
  simp only [List.mem_cons, List.not_mem_nil, or_false, Rule.Lexeme]

/-- A multiplicative operator is one of three signs. -/
theorem mulOp_some_iff : Parses Rule.mulOp.pattern here (some (stop, ts)) ↔
    ∃ u, here.Moves u stop ∧ Rule.mulOp.Lexeme u stop.rest ∧ ts = [] := by
  have apart := @firstOf_apart_some_iff here stop ts [['*'], ['/'], ['%']] (by decide) (by decide)
  refine apart.trans (exists_congr fun u => and_left_comm.trans ?_)
  simp only [List.mem_cons, List.not_mem_nil, or_false, Rule.Lexeme]

/-- An additive operator is the longest of four signs: one point is not taken where two stand. -/
theorem addOp_some_iff : Parses Rule.addOp.pattern here (some (stop, ts)) ↔
    ∃ u, here.Moves u stop ∧ Rule.addOp.Lexeme u stop.rest ∧ ts = [] := by
  have longest := @firstOf_longest_some_iff here stop ts [['.', '.'], ['.'], ['+'], ['-']]
    (by decide)
  refine longest.trans (exists_congr fun u => ?_)
  simp only [List.mem_cons, List.not_mem_nil, or_false, Rule.Lexeme, endsBefore_beq_iff]
  constructor
  · rintro ⟨rfl | rfl | rfl | rfl, h, hlongest, rfl⟩
    · exact ⟨h, .inl rfl, rfl⟩
    · exact ⟨h, .inr (.inl ⟨rfl, fun hdot => by cases hlongest ['.'] (.inl rfl) hdot⟩), rfl⟩
    · exact ⟨h, .inr (.inr (.inl rfl)), rfl⟩
    · exact ⟨h, .inr (.inr (.inr rfl)), rfl⟩
  · rintro ⟨h, rfl | ⟨rfl, hdot⟩ | rfl | rfl, rfl⟩
    · exact ⟨.inl rfl, h, fun w hw _ => by simpa using hw, rfl⟩
    · refine ⟨.inr (.inl rfl), h, fun w hw hstands => ?_, rfl⟩
      rcases (by simpa using hw : w = ['.'] ∨ w = []) with rfl | rfl
      · exact (hdot hstands).elim
      · rfl
    · exact ⟨.inr (.inr (.inl rfl)), h, fun w hw _ => by simpa using hw, rfl⟩
    · exact ⟨.inr (.inr (.inr rfl)), h, fun w hw _ => by simpa using hw, rfl⟩

/-- The case sign of a comparison is taken where there is one. -/
theorem caseSign_some_iff :
    Parses (.optional (firstOf [.token "#", .token "?"])) here (some (stop, ts)) ↔
      ∃ letterCase : LetterCase, here.Moves letterCase.text stop ∧ (letterCase = .followOption →
        EndsBefore (fun c => c == '#' || c == '?') stop.rest) ∧ ts = [] := by
  simp only [Pattern.optional, counted_iff, opt_some_iff, firstOf, choice_some_iff,
    choice_none_iff, token_some_iff, token_none_iff, endsBefore_or_iff, endsBefore_beq_iff]
  constructor
  · rintro ((⟨h, rfl⟩ | ⟨-, h, rfl⟩) | ⟨hnone, rfl, rfl⟩)
    · exact ⟨.sensitive, h, fun hsign => (by cases hsign), rfl⟩
    · exact ⟨.ignored, h, fun hsign => (by cases hsign), rfl⟩
    · exact ⟨.followOption, .refl _, fun _ => hnone, rfl⟩
  · rintro ⟨letterCase, h, hstop, rfl⟩
    cases letterCase with
    | sensitive => exact .inl (.inl ⟨h, rfl⟩)
    | ignored =>
      refine .inl (.inr ⟨?_, h, rfl⟩)
      exact not_prefix_of_moves h (by decide) (by decide)
    | followOption =>
      obtain rfl := (Cursor.Moves.refl here).stop_unique h
      exact .inr ⟨hstop rfl, rfl, rfl⟩

/-- The sign of a relation without its case sign, as the grammar lists them. -/
def relationSign : Pattern :=
  firstOf [.token "==", .token "!=", .token ">=", .token "<=", .token "=~", .token "!~",
    .token ">", .token "<", .tight [firstOf [.token "isnot", .token "is"], .wordEnd]]

/-- A relation that is named by a word ends where the word does. -/
theorem relationWord_some_iff :
    Parses (.tight [firstOf [.token "isnot", .token "is"], .wordEnd]) here (some (stop, ts)) ↔
      ∃ relation : Comparison, (relation = .same ∨ relation = .different) ∧
        here.Moves relation.text stop ∧ relation.EndsBefore stop.rest ∧ ts = [] := by
  simp only [tight, chain, counted_iff, seq_some_iff, firstOf, choice_some_iff, token_some_iff,
    token_none_iff, wordEnd_some_iff]
  constructor
  · rintro ⟨mid, us, vs, ⟨h, rfl⟩ | ⟨-, h, rfl⟩, ⟨hend, rfl, rfl⟩, rfl⟩
    · exact ⟨.different, .inr rfl, h, hend, rfl⟩
    · exact ⟨.same, .inl rfl, h, hend, rfl⟩
  · rintro ⟨relation, rfl | rfl, h, hend, rfl⟩
    · refine ⟨stop, [], [], .inr ⟨?_, h, rfl⟩, ⟨hend, rfl, rfl⟩, rfl⟩
      rw [h.rest_eq]
      rintro ⟨rest, hrest⟩
      have tail : 'n' :: 'o' :: 't' :: rest = stop.rest :=
        List.append_cancel_left (show ['i', 's'] ++ _ = ['i', 's'] ++ _ from hrest)
      have head := hend 'n' (by rw [← tail]; rfl)
      cases head
    · exact ⟨stop, [], [], .inl ⟨h, rfl⟩, ⟨hend, rfl, rfl⟩, rfl⟩

/-- What must follow a relation named by a sign is that no longer sign stands there. -/
theorem sign_endsBefore_iff {relation : Comparison} (h : relation ∈ Comparison.signs)
    {rest : List Char} :
    (∀ w, relation.text ++ w ∈ Comparison.signs.map Comparison.text → w <+: rest → w = []) ↔
      relation.EndsBefore rest := by
  cases relation with
  | greater | less =>
    simp [Comparison.signs, Comparison.text, Comparison.EndsBefore, endsBefore_beq_iff]
  | same | different => simp [Comparison.signs] at h
  | _ => simp [Comparison.signs, Comparison.text, Comparison.EndsBefore]

/-- A relation is named by the longest sign, or by a word where no sign stands. -/
theorem relationSign_some_iff : Parses relationSign here (some (stop, ts)) ↔
    ∃ relation : Comparison, here.Moves relation.text stop ∧ relation.EndsBefore stop.rest ∧
      ts = [] := by
  let word : Pattern := .tight [firstOf [.token "isnot", .token "is"], .wordEnd]
  have longest := @firstOf_texts_some_iff here stop ts (Comparison.signs.map Comparison.text)
    (by decide) [word]
  refine longest.trans ?_
  rw [show firstOf [word] = word from rfl, relationWord_some_iff]
  constructor
  · rintro (⟨u, hu, h, hlongest, rfl⟩ | ⟨-, relation, -, h, hend, rfl⟩)
    · obtain ⟨relation, hsign, rfl⟩ := List.mem_map.mp hu
      exact ⟨relation, h, (sign_endsBefore_iff hsign).mp hlongest, rfl⟩
    · exact ⟨relation, h, hend, rfl⟩
  · rintro ⟨relation, h, hend, rfl⟩
    by_cases hsign : relation ∈ Comparison.signs
    · exact .inl ⟨relation.text, List.mem_map_of_mem hsign, h,
        (sign_endsBefore_iff hsign).mpr hend, rfl⟩
    · have hword : relation = .same ∨ relation = .different := by
        revert hsign
        cases relation <;> decide
      have hparts : ∀ v ∈ Comparison.signs.map Comparison.text,
          ¬ v <+: relation.text ∧ ¬ relation.text <+: v := by
        rcases hword with rfl | rfl <;> decide
      exact .inr ⟨fun v hv => not_prefix_of_moves h (hparts v hv).1 (hparts v hv).2,
        relation, hword, h, hend, rfl⟩

/-- The pattern of a comparison matches a relation and the case sign behind it. -/
theorem compareOp_some_iff : Parses Rule.compareOp.pattern here (some (stop, ts)) ↔
    ∃ u, here.Moves u stop ∧ Rule.compareOp.Lexeme u stop.rest ∧ ts = [] := by
  have shape : Rule.compareOp.pattern =
      tokenBody (tight [relationSign, .optional (firstOf [.token "#", .token "?"])]) := rfl
  rw [shape]
  simp only [tokenBody, tight, chain, counted_iff, seq_some_iff, relationSign_some_iff,
    caseSign_some_iff, Rule.Lexeme]
  constructor
  · rintro ⟨mid, us, vs, ⟨relation, h, hend, rfl⟩, ⟨letterCase, h', hsign, rfl⟩, rfl⟩
    exact ⟨_, h.trans h', ⟨relation, letterCase, rfl, h'.rest_eq ▸ hend, hsign⟩, rfl⟩
  · rintro ⟨u, h, ⟨relation, letterCase, rfl, hend, hsign⟩, rfl⟩
    obtain ⟨mid, h, h'⟩ := Cursor.Moves.append_iff.mp h
    exact ⟨mid, [], [], ⟨relation, h, h'.rest_eq ▸ hend, rfl⟩, ⟨letterCase, h', hsign, rfl⟩, rfl⟩

end Parses

end Vimscript
