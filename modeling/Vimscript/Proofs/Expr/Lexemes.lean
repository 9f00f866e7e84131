import Vimscript.Expr.OfTree
import Vimscript.Proofs.Decimal.ReadBack
import Vimscript.Proofs.Expr.Integers

/-!
# What lexemes denote

Every token of the grammar has a meaning: operators and scopes are named by their texts, strings
have a body, and numbers have a value. Only integers and floats can be too large for their type.
-/

namespace Vimscript

open Text

/-- Each operator lexeme names a binary operator. -/
theorem BinaryOp.ofToken?_isSome {r : Rule} {u rest : List Char}
    (hr : r ∈ [Rule.orOp, .andOp, .compareOp, .addOp, .mulOp]) (h : r.Lexeme u rest) :
    ∃ op, BinaryOp.ofToken? u = some op := by
  simp only [List.mem_cons, List.not_mem_nil, or_false] at hr
  rcases hr with rfl | rfl | rfl | rfl | rfl
  · obtain rfl : u = ['|', '|'] := h
    exact ⟨.or, by decide⟩
  · obtain rfl : u = ['&', '&'] := h
    exact ⟨.and, by decide⟩
  · obtain ⟨relation, letterCase, rfl, -⟩ := h
    exact ⟨_, BinaryOp.ofToken?_text (.compare relation letterCase)⟩
  · rcases h with rfl | ⟨rfl, -⟩ | rfl | rfl
    · exact ⟨.concat, by decide⟩
    · exact ⟨.concat, by decide⟩
    · exact ⟨.add, by decide⟩
    · exact ⟨.subtract, by decide⟩
  · rcases h with rfl | rfl | rfl
    · exact ⟨.multiply, by decide⟩
    · exact ⟨.divide, by decide⟩
    · exact ⟨.modulo, by decide⟩

/-- Each prefix lexeme names a prefix operator. -/
theorem UnaryOp.ofToken?_isSome {u rest : List Char} (h : Rule.unaryOp.Lexeme u rest) :
    ∃ op, UnaryOp.ofToken? u = some op := by
  rcases h with rfl | rfl | rfl
  · exact ⟨.not, by decide⟩
  · exact ⟨.negate, by decide⟩
  · exact ⟨.plus, by decide⟩

/-- Each scope lexeme names a scope. -/
theorem Scope.ofText?_isSome {u rest : List Char} (h : Rule.scope.Lexeme u rest) :
    ∃ s, Scope.ofText? u = some s := by
  obtain ⟨c, rfl, hc⟩ := h
  obtain ⟨s, rfl⟩ := Scope.exists_letter hc
  exact ⟨s, s.ofText?_text⟩

namespace Text.Quoted

/-- A body is found between its quotes. -/
theorem body?_eq {quote : Char} (body : List Char) :
    body? quote (quote :: body ++ [quote]) = some body := by
  rw [List.cons_append, body?, if_pos ⟨rfl, by simp⟩, List.dropLast_concat]

/-- Each string lexeme is decoded. -/
theorem decode_isSome {u rest : List Char} (h : Rule.string.Lexeme u rest) :
    ∃ value, decode u = some value := by
  rcases h with ⟨body, -, rfl⟩ | ⟨body, -, rfl, -⟩
  · exact ⟨_, by rw [decode, body?_eq]⟩
  · have hdouble : body? '"' ('\'' :: body ++ ['\'']) = none := rfl
    exact ⟨_, by rw [decode, hdouble, body?_eq]; rfl⟩

end Text.Quoted

/-- Every integer token has a value. -/
theorem Numeral.literalValue?_isSome {u rest : List Char} (h : Rule.integer.Lexeme u rest) :
    ∃ n, literalValue? u = some n :=
  (exists_spells h).imp fun _ => Spells.literalValue?_eq

/-- Every exponent has a value. -/
theorem Decimal.exponentOfText?_isSome {u : List Char} (h : IsExponent u) :
    ∃ x, exponentOfText? u = some x := by
  obtain ⟨mark, sign, digits, rfl, hmark, hsign, hne, hdigits⟩ := h
  have hsplit : ∃ negative, splitSign (sign ++ digits) = (negative, digits) := by
    rcases hsign with rfl | rfl | rfl
    · exact ⟨false, splitSign_of_isRun ⟨hne, hdigits⟩⟩
    · exact ⟨false, rfl⟩
    · exact ⟨true, rfl⟩
  obtain ⟨negative, hsplit⟩ := hsplit
  exact ⟨_, by rw [List.cons_append, exponentOfText?, hsplit, if_pos ⟨hmark, hne, hdigits⟩]⟩

namespace Binary64

/-- Every float token has a value, which is finite or infinite. -/
theorem ofText?_float {u rest : List Char} (h : Rule.float.Lexeme u rest) :
    (∃ rank, ofText? u = some (.finite false rank)) ∨ ofText? u = some (.infinite false) := by
  obtain ⟨whole, fraction, exponent, rfl, hwhole, hfraction, -, hexponent⟩ := h
  have hread : ∃ x, Decimal.exponentOfText? exponent = some x ∧
      EndsBefore Char.isDigit exponent := by
    rcases hexponent with hexponent | ⟨rfl, -⟩
    · refine (Decimal.exponentOfText?_isSome hexponent).imp fun x hx => ⟨hx, ?_⟩
      obtain ⟨mark, _, _, rfl, hmark, -⟩ := hexponent
      refine endsBefore_cons.mpr ?_
      rcases hmark with rfl | rfl <;> decide
    · exact ⟨0, rfl, endsBefore_nil _⟩
  obtain ⟨x, hx, hends⟩ := hread
  have hdecimal := Decimal.ofText?_of_exponent hwhole hfraction.2 hends hx
  obtain ⟨c, more, rfl⟩ := List.exists_cons_of_ne_nil hwhole.1
  have hc := (Bool.and_eq_true_iff.mp (List.all_cons ▸ hwhole.2)).1
  have hvalue := (ofText?_signed false hc).trans
    (congrArg (Option.map (Decimal.toBinary64 false)) hdecimal)
  rw [Option.map_some, Decimal.toBinary64] at hvalue
  split at hvalue
  · exact .inl ⟨_, hvalue⟩
  · exact .inr hvalue

end Binary64

end Vimscript
