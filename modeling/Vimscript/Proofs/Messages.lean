import Vimscript.Proofs.Expr.Heads
import Vimscript.Proofs.Spans

/-!
# Messages within one line

A message is made of fixed words, of numbers, of names of rules and, where a literal is refused, of
the text of the literal. That text stands in the source, so a source within one line is never
refused with a message of more lines.
-/

namespace Vimscript

open Text

/-- A number is written without a line feed. -/
theorem Text.newline_not_mem_natural (n : Nat) : '\n' ∉ natural n := fun h =>
  absurd (List.all_eq_true.mp (natural_isDigit n) _ h) (by decide)

/-- So is a span. -/
theorem Span.newline_not_mem_text (s : Span) : '\n' ∉ s.text := by
  unfold Span.text
  simp [newline_not_mem_natural]

namespace Error

/-- What a message says besides fixed words and numbers: the rules that were expected, or a text
that stands in the tree. -/
def detail : Error → List Char
  | mismatch _ message => message
  | unknownOperator _ token => token
  | invalidLiteral _ _ text => text
  | _ => []

/-- What a message says of nesting is written without a line feed. -/
theorem newline_not_mem_nestingText (counts : Option (Nat × Nat)) :
    '\n' ∉ nestingText counts := by
  unfold nestingText
  cases counts with
  | none => decide
  | some counts => simp [newline_not_mem_natural]

/-- Only its detail can make a message longer than a line. -/
theorem newline_not_mem_message {error : Error} (h : '\n' ∉ error.detail) :
    '\n' ∉ error.message := by
  unfold message
  cases error with
  | incomplete => decide
  | mismatch span message => simpa [detail, Span.newline_not_mem_text] using h
  | unknownOperator span token => simpa [detail, Span.newline_not_mem_text] using h
  | unsupported span construct =>
    have hwords : '\n' ∉ construct.text := by cases construct <;> decide
    simp [Span.newline_not_mem_text, hwords]
  | invalidLiteral span kind text =>
    have hword : '\n' ∉ kind.text := by cases kind <;> decide
    simpa [detail, Span.newline_not_mem_text, hword] using h
  | nestingDepth span counts => simp [Span.newline_not_mem_text, newline_not_mem_nestingText]
  | callLimit span => simp [Span.newline_not_mem_text]

end Error

namespace Tree

variable {limits : Limits} {source : List Char} {error : Error}

/-- What a message says was expected is written without a line feed. -/
theorem newline_not_mem_expectation (expected : Array Rule) : '\n' ∉ expectation expected := by
  have hname : ∀ rule ∈ Rule.all, '\n' ∉ rule.name.toList := by decide +kernel
  unfold expectation
  cases hrules : Rule.all.filter (expected.contains ·) with
  | nil => decide
  | cons first rest =>
    have hmem {rule : Rule} (h : rule ∈ first :: rest) : '\n' ∉ rule.name.toList :=
      hname rule (List.mem_of_mem_filter (hrules ▸ h))
    simp only [List.map_cons, intercalate_cons_eq, List.mem_append, List.mem_flatMap,
      List.mem_map, not_or, not_exists, not_and]
    refine ⟨by decide, hmem List.mem_cons_self, ?_⟩
    rintro _ ⟨rule, hrule, rfl⟩
    exact ⟨by decide, hmem (.tail _ hrule)⟩

/-- A source without a parse tree is refused with a message of one line. -/
theorem newline_not_mem_detail_of_ofSource (h : ofSource limits source = .error error) :
    '\n' ∉ error.detail := by
  cases hcheck : Nesting.check limits.parseDepth source with
  | error refusal =>
    rw [ofSource_of_check_eq_error hcheck] at h
    cases h
    unfold Nesting.check at hcheck
    split at hcheck <;> cases hcheck
    exact List.not_mem_nil
  | ok =>
    rw [ofSource_eq_ofOutcome hcheck] at h
    unfold ofOutcome at h
    split at h <;> cases h
    · exact List.not_mem_nil
    · unfold mismatch
      split
      · exact List.not_mem_nil
      · split
        · exact List.not_mem_nil
        · exact newline_not_mem_expectation _
    · exact List.not_mem_nil

/-- A tree that is refused quotes at most a literal of the source. -/
theorem newline_not_mem_detail_of_toExpr {tree : Tree Tag} {budget : Nat}
    (htree : parseTree limits source = .ok tree) (hsource : '\n' ∉ source)
    (h : tree.toExpr budget = .error error) : '\n' ∉ error.detail := by
  have hlocated := toExpr_located htree h
  obtain ⟨root, rfl, hformed, hlabel⟩ := exists_formed_of_parseTree htree
  have hreports := toExpr_reports budget hformed hlabel
  rw [h] at hreports
  have hfault := isFault_of_mem_faults hreports.mem_of_error
  cases error with
  | invalidLiteral span kind literal =>
    obtain ⟨text, ⟨x, y, hcut, -, -⟩, hliteral⟩ := hlocated span rfl
    obtain rfl := hliteral kind literal rfl
    rw [hcut] at hsource
    exact fun hmem => hsource (List.mem_append_right x (List.mem_append_left y hmem))
  | incomplete | unsupported | nestingDepth | callLimit => exact List.not_mem_nil
  | mismatch | unknownOperator => cases hfault

end Tree

/-- A source within one line is refused within one line. -/
theorem newline_not_mem_message_of_parseWithin {limits : Limits} {source : List Char}
    {error : Error} (hsource : '\n' ∉ source) (h : parseWithin limits source = .error error) :
    '\n' ∉ error.message := by
  refine Error.newline_not_mem_message ?_
  unfold parseWithin at h
  cases htree : parseTree limits source with
  | error refusal =>
    rw [htree] at h
    cases h
    unfold parseTree at htree
    cases hroot : Tree.ofSource limits source with
    | error refusal =>
      rw [hroot] at htree
      cases htree
      exact Tree.newline_not_mem_detail_of_ofSource hroot
    | ok root =>
      rw [hroot] at htree
      cases htree
  | ok tree =>
    rw [htree] at h
    exact Tree.newline_not_mem_detail_of_toExpr htree hsource h

end Vimscript
