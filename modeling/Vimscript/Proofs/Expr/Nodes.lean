import Vimscript.Proofs.Expr.Refusals

/-!
# The nodes of accepted expressions

Whatever the limits, every node of what a source is read as has the form that its kind asks for:
numbers are not negative and fit, names have the characters of their kind, options have one of the
two scopes that options can have or none, and a call of a lambda is told from a call of a value by
what is called. Fields and calls that the additive tier makes out of other nodes are no exception.
-/

namespace Vimscript.Expr

/-- Every node of what is read is built, and every integer fits a signed word. -/
theorem every_node_of_parseWithin {limits : Limits} {source : List Char} {e : Expr Span}
    (h : parseWithin limits source = .ok e) :
    e.Every fun node => node.Built ∧
      ∀ mark value, node = literal mark (.int value) → 0 ≤ value.toInt ∧ value.toInt < 2 ^ 63 := by
  refine (Tree.every_built_of_parseWithin h).mono fun node hbuilt => ⟨hbuilt, ?_⟩
  rintro mark value rfl
  exact ⟨hbuilt.wellSpelled, value.toInt_lt⟩

/-- A lambda between parentheses is called as a lambda, and the field of a dictionary as a value. -/
theorem every_node_of_parseWithin_calls : ∃ e,
    parseWithin Limits.default "g:1.f(({->1})())".toList = .ok e ∧
      e.sexpr = "(funcref-call (index (var g:1) \"f\") (lambda-call (lambda () 1)))".toList ∧
      e.Every fun node => node.Built ∧ ∀ mark value, node = literal mark (.int value) →
        0 ≤ value.toInt ∧ value.toInt < 2 ^ 63 := by
  have hsexpr : (parseWithin Limits.default "g:1.f(({->1})())".toList).map sexpr =
      .ok "(funcref-call (index (var g:1) \"f\") (lambda-call (lambda () 1)))".toList := by
    decide +kernel
  obtain ⟨e, he, hsexpr⟩ := exists_of_map_eq_ok hsexpr
  exact ⟨e, he, hsexpr, every_node_of_parseWithin he⟩

end Vimscript.Expr
