import Vimscript.Proofs.Grammar.Starts

/-!
# What may follow

Matching takes all it can, so a derivation is what matching yields only if the text behind it does
not go on with it: no operator of its tier or a tighter one, nothing that attaches to a primary.
-/

namespace Vimscript

namespace Text

/-- Whether something that goes on with an expression of a level begins with a character. The
levels are those of the operators: none for conditionals, five for products, six for what has no
operator. -/
def goesOn (level : Nat) (c : Char) : Bool :=
  "([".toList.contains c || level ≤ 5 && "*/%".toList.contains c ||
    level ≤ 4 && ".+-".toList.contains c || level ≤ 3 && "=!<>i".toList.contains c ||
    level ≤ 2 && c == '&' || level ≤ 1 && c == '|' || level ≤ 0 && c == '?'

/-- Behind blanks this text does not go on with an expression of a level. -/
def Free (level : Nat) (rest : List Char) : Prop :=
  EndsBefore (goesOn level) (rest.dropWhile isSpace) ∧ ¬ ['-', '>'] <+: rest.dropWhile isSpace

variable {level : Nat} {c : Char} {rest : List Char}

/-- What goes on with a tighter level goes on with a looser one. -/
theorem goesOn_mono {level' : Nat} (h : level ≤ level') (hc : goesOn level' c = true) :
    goesOn level c = true := by
  simp only [goesOn, Bool.or_eq_true, Bool.and_eq_true, decide_eq_true_eq] at hc ⊢
  rcases hc with (((((hc | hc) | hc) | hc) | hc) | hc) | hc
  · simp only [hc, true_or]
  all_goals
    have hlevel := Nat.le_trans h hc.1
    simp only [hc.2, hlevel, and_self, true_or, or_true]

/-- What is free to follow at a level is so at tighter levels. -/
theorem Free.mono {level' : Nat} (h : Free level rest) (hle : level ≤ level') :
    Free level' rest :=
  ⟨endsBefore_mono (fun _ => goesOn_mono hle) h.1, h.2⟩

/-- In front of anything but a blank there is no blank to drop. -/
theorem dropWhile_isSpace_cons (hc : isSpace c = false) :
    (c :: rest).dropWhile isSpace = c :: rest := by
  rw [List.dropWhile_cons, hc]
  rfl

/-- A character that goes on with nothing is free to follow, unless an arrow begins there. -/
theorem free_cons (hc : isSpace c = false) (hgo : goesOn level c = false)
    (hdash : ¬ ['-', '>'] <+: c :: rest) : Free level (c :: rest) := by
  rw [Free, dropWhile_isSpace_cons hc]
  exact ⟨endsBefore_cons.mpr hgo, hdash⟩

/-- The end of the source is free to follow. -/
theorem free_nil : Free level [] := ⟨endsBefore_nil _, by decide⟩

/-- A text that goes on with nothing does not begin with a bracket. -/
theorem Free.endsBefore (h : Free level rest) {accepts : Char → Bool}
    (haccepts : ∀ c, accepts c = true → isSpace c = false ∧ goesOn level c = true) :
    EndsBefore accepts rest := by
  intro c hc
  cases haccept : accepts c with
  | false => rfl
  | true =>
    obtain ⟨hspace, hgo⟩ := haccepts c haccept
    cases rest with
    | nil => cases hc
    | cons d rest =>
      obtain rfl : d = c := Option.some.inj hc
      have := h.1
      rw [dropWhile_isSpace_cons hspace, endsBefore_cons, hgo] at this
      cases this

/-- No arrow is free to follow. -/
theorem Free.not_arrow (h : Free level rest) : ¬ ['-', '>'] <+: rest := by
  rintro ⟨more, rfl⟩
  exact h.2 ⟨more, rfl⟩

end Text

namespace Cursor

variable {here : Cursor}

/-- In front of anything but a blank nothing is skipped. -/
theorem skipSpaces_of_endsBefore (h : Text.EndsBefore Text.isSpace here.rest) :
    here.skipSpaces = here := by
  obtain ⟨rest, offset⟩ := here
  cases rest with
  | nil => rfl
  | cons c rest =>
    have hc : Text.isSpace c = false := Text.endsBefore_cons.mp h
    simp only [skipSpaces, skipWhile, List.dropWhile_cons, List.takeWhile_cons, hc,
      Bool.false_eq_true, if_false, Text.byteLength_nil, Nat.add_zero]

/-- At the end nothing is skipped. -/
theorem skipSpaces_of_nil (h : here.rest = []) : here.skipSpaces = here :=
  skipSpaces_of_endsBefore (h ▸ Text.endsBefore_nil _)

/-- Where blanks are skipped one of them comes first. -/
theorem head_of_skipSpaces_ne (h : here.skipSpaces ≠ here) :
    ∃ rest, here.rest = ' ' :: rest ∨ here.rest = '\t' :: rest := by
  cases hrest : here.rest with
  | nil => exact (h (skipSpaces_of_endsBefore (hrest ▸ Text.endsBefore_nil _))).elim
  | cons c rest =>
    cases hc : Text.isSpace c with
    | false => exact (h (skipSpaces_of_endsBefore (hrest ▸ Text.endsBefore_cons.mpr hc))).elim
    | true =>
      rcases (by simpa [Text.isSpace] using hc : c = ' ' ∨ c = '\t') with rfl | rfl
      · exact ⟨rest, .inl rfl⟩
      · exact ⟨rest, .inr rfl⟩

/-- Where blanks are skipped no class without blanks goes on. -/
theorem endsBefore_of_skipSpaces_ne {accepts : Char → Bool} (h : here.skipSpaces ≠ here)
    (haccepts : accepts ' ' = false ∧ accepts '\t' = false) :
    Text.EndsBefore accepts here.rest := by
  obtain ⟨rest, hrest | hrest⟩ := head_of_skipSpaces_ne h
  · exact hrest ▸ Text.endsBefore_cons.mpr haccepts.1
  · exact hrest ▸ Text.endsBefore_cons.mpr haccepts.2

/-- Behind the blanks that are skipped stands no further one. -/
theorem skipSpaces_endsBefore (here : Cursor) :
    Text.EndsBefore Text.isSpace here.skipSpaces.rest := Text.endsBefore_dropWhile _ _

/-- Blanks are skipped at once. -/
@[simp] theorem skipSpaces_skipSpaces (here : Cursor) :
    here.skipSpaces.skipSpaces = here.skipSpaces :=
  skipSpaces_of_endsBefore here.skipSpaces_endsBefore

/-- To skip blanks leaves no more text than there was. -/
theorem skipSpaces_length_le (here : Cursor) :
    here.skipSpaces.rest.length ≤ here.rest.length := (moves_skipSpaces here).length_le

/-- To skip blanks is to stay or to leave less. -/
theorem skipSpaces_eq_or_lt (here : Cursor) :
    here.skipSpaces = here ∨ here.skipSpaces.rest.length < here.rest.length := by
  cases hrest : here.rest.takeWhile Text.isSpace with
  | nil =>
    have h := moves_skipSpaces here
    rw [hrest] at h
    exact .inl ((Moves.refl here).stop_unique h).symm
  | cons c u =>
    refine .inr ((moves_skipSpaces here).length_lt ?_)
    rw [hrest]
    exact List.cons_ne_nil c u

/-- Blanks matter nothing for what is free to follow. -/
theorem free_skipSpaces {level : Nat} :
    Text.Free level here.skipSpaces.rest ↔ Text.Free level here.rest := by
  have same : here.skipSpaces.rest.dropWhile Text.isSpace = here.rest.dropWhile Text.isSpace :=
    congrArg Cursor.rest here.skipSpaces_skipSpaces
  rw [Text.Free, Text.Free, same]

/-- Before a character that goes on with nothing a place is free, blanks or not. -/
theorem free_of_moves {level : Nat} {stop : Cursor} {c : Char} {u : List Char}
    (h : here.skipSpaces.Moves (c :: u) stop) (hgo : Text.goesOn level c = false)
    (hdash : c ≠ '-') : Text.Free level here.rest := by
  rw [← free_skipSpaces, h.rest_eq, List.cons_append]
  have hspace : Text.isSpace c = false := here.skipSpaces_endsBefore c (by rw [h.rest_eq]; rfl)
  refine Text.free_cons hspace hgo ?_
  rintro ⟨rest, hrest⟩
  exact hdash (List.cons.inj hrest).1.symm

end Cursor

/-- What may follow a node of a rule for matching to stop there. -/
def Rule.Follow : Rule → Tree Rule → List Char → Prop
  | expr, _, rest | dictEntry, _, rest | literalDictEntry, _, rest => Text.Free 0 rest
  | logicalOr, _, rest => Text.Free 1 rest
  | logicalAnd, _, rest => Text.Free 2 rest
  | comparison, _, rest => Text.Free 3 rest
  | additive, _, rest => Text.Free 4 rest
  | multiplicative, _, rest => Text.Free 5 rest
  | unary, _, rest | postfixed, _, rest => Text.Free 6 rest
  | primary, node, rest | lambdaExpr, node, rest | variableRef, node, rest =>
    node.takesCall = true → Text.EndsBefore (· == '(') rest
  | callArg, node, rest =>
    Text.Free 0 rest ∧ (node.children = [] → Text.EndsBefore Text.startsOperand rest)
  | lambdaParams, _, rest => ['-', '>'] <+: rest.dropWhile Text.isSpace
  | _, _, _ => True

/-- Whether every derivation of a rule at a place is what matching yields there, if the text
behind it may follow. -/
def Rule.Complete (r : Rule) (here : Cursor) : Prop := ∀ (stop : Cursor) (t : Tree Rule),
  Derives (.rule r) here stop [t] → r.Follow t stop.rest → Parses (.rule r) here (some (stop, [t]))

end Vimscript
