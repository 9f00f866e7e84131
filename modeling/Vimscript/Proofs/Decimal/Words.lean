import Vimscript.Proofs.Decimal.ReadBack

/-!
# Numbers as words

In prefix forms and outlines a number is a word without blanks and brackets. A whole number is
digits, perhaps behind a minus sign; a finite float has a point or an exponent besides. Either word
is read back as the number that it was written for.
-/

namespace Vimscript

namespace Text

/-- The characters of whole numbers. -/
def isIntegerChar (c : Char) : Bool := c.isDigit || c == '-'

/-- The characters that floats have and whole numbers have not. -/
def isFloatMark (c : Char) : Bool := c == '.' || c == 'e'

/-- The characters of numbers. -/
def isNumberChar (c : Char) : Bool := isIntegerChar c || isFloatMark c

/-- The whole number that a word stands for, which is read as the exponent of a decimal is. -/
def integerOf? (u : List Char) : Option Int := Decimal.exponentOfText? ('e' :: u)

/-- An integer is read back from the word for it. -/
theorem integerOf?_integer (n : Int) : integerOf? (integer n) = some n :=
  Decimal.exponentOfText?_eq (.inr rfl)

/-- A digit can stand in an integer. -/
theorem isIntegerChar_of_isDigit {c : Char} (h : c.isDigit = true) : isIntegerChar c = true :=
  Bool.or_eq_true_iff.mpr (.inl h)

/-- What can stand in an integer can stand in a number. -/
theorem isNumberChar_of_isIntegerChar {c : Char} (h : isIntegerChar c = true) :
    isNumberChar c = true := Bool.or_eq_true_iff.mpr (.inl h)

/-- No character of a whole number marks a float. -/
theorem isFloatMark_of_isIntegerChar {c : Char} (h : isIntegerChar c = true) :
    isFloatMark c = false := by
  refine Bool.eq_false_iff.mpr fun hmark => ?_
  rcases Bool.or_eq_true_iff.mp hmark with hc | hc <;> obtain rfl := eq_of_beq hc <;>
    exact absurd h (by decide)

/-- The word for an integer is a run of such characters. -/
theorem integer_isRun (n : Int) : IsRun isIntegerChar (integer n) := by
  have hdigits : (natural n.natAbs).all isIntegerChar = true :=
    List.all_eq_true.mpr fun c hc =>
      isIntegerChar_of_isDigit (List.all_eq_true.mp (natural_isDigit _) c hc)
  unfold integer
  split
  · exact ⟨List.cons_ne_nil _ _, hdigits⟩
  · exact ⟨natural_ne_nil _, hdigits⟩

end Text

open Text

namespace Decimal

variable {d : Decimal} {text : List Char}

/-- What the word of a positive float has: characters of numbers, of which one marks a float, and
a value that does not depend on the sign in front of it. -/
structure IsWordOf (text : List Char) (d : Decimal) : Prop where
  chars : IsRun isNumberChar text
  marked : text.any isFloatMark = true
  value : ∃ d', SameValue d d' ∧ ∀ negative,
    Binary64.ofText? (Binary64.signed negative text) = some (d'.toBinary64 negative)

/-- Digits alone can stand in a number. -/
theorem all_isNumberChar {u : List Char} (h : u.all Char.isDigit = true) :
    u.all isNumberChar = true :=
  List.all_eq_true.mpr fun c hc =>
    isNumberChar_of_isIntegerChar (isIntegerChar_of_isDigit (List.all_eq_true.mp h c hc))

/-- A written exponent has characters of numbers only. -/
theorem all_isNumberChar_exponent {u : List Char} {exponent : Int}
    (h : ExponentText u exponent) : u.all isNumberChar = true := by
  rcases h with ⟨rfl, -⟩ | rfl
  · rfl
  · exact List.all_eq_true.mpr (List.forall_mem_cons.mpr ⟨by decide, fun c hc =>
      isNumberChar_of_isIntegerChar (List.all_eq_true.mp (integer_isRun exponent).2 c hc)⟩)

/-- Digits on both sides of a point are such a word. -/
theorem Writes.isWordOf (h : Writes text d) : IsWordOf text d := by
  have hread := Binary64.exists_value_of_writes h
  obtain ⟨whole, fraction, u, exponent, rfl, hwhole, hfraction, hu, -⟩ := h
  refine ⟨⟨by simp [hwhole.1], ?_⟩, by simp [isFloatMark], hread⟩
  have hpoint : isNumberChar '.' = true := by decide
  simp only [List.all_append, List.all_cons, all_isNumberChar hwhole.2,
    all_isNumberChar hfraction.2, all_isNumberChar_exponent hu, hpoint, Bool.and_self]

/-- A digit behind which an exponent stands at once is read as a decimal too. -/
theorem ofText?_scientific {c : Char} (hc : c.isDigit = true) (exponent : Int) :
    ofText? (c :: 'e' :: integer exponent) = some ⟨natOfDigits [c], exponent⟩ := by
  have hexponent : exponentOfText? ('e' :: integer exponent) = some exponent :=
    exponentOfText?_eq (.inr rfl)
  have he : ('e' : Char).isDigit = false := by decide
  simp [ofText?, hc, he, splitFraction, hexponent]

/-- The word of a positive decimal. -/
theorem isWordOf_text (h : d.digits ≠ 0) : IsWordOf (d.text false) d := by
  obtain ⟨zeros, hvalue, hcount, hdigits⟩ := significantDigits_spec h
  have hpoint : d.pointPosition = d.significantDigits.length + zeros + d.exponent := by
    rw [pointPosition, hcount]
    omega
  simp only [Decimal.text]
  split
  · exact (writes_positional hvalue hdigits hpoint).isWordOf
  · obtain ⟨c, rest, hcons⟩ := List.exists_cons_of_ne_nil hdigits.1
    cases rest with
    | cons c' rest =>
      have hsame : scientific false d.significantDigits d.pointPosition =
          scientific true d.significantDigits d.pointPosition := by
        rw [hcons]
        rfl
      rw [hsame]
      exact (writes_scientific hvalue hdigits hpoint).isWordOf
    | nil =>
      rw [hcons] at hvalue hdigits hpoint ⊢
      have hc : c.isDigit = true := (Bool.and_eq_true_iff.mp (List.all_cons ▸ hdigits.2)).1
      have htext : scientific false [c] d.pointPosition =
          c :: 'e' :: integer (d.pointPosition - 1) := rfl
      rw [htext]
      refine ⟨⟨List.cons_ne_nil _ _, ?_⟩, by simp [isFloatMark],
        ⟨⟨natOfDigits [c], d.pointPosition - 1⟩, ?_, fun negative => ?_⟩⟩
      · exact Bool.and_eq_true_iff.mpr ⟨isNumberChar_of_isIntegerChar (isIntegerChar_of_isDigit hc),
          all_isNumberChar_exponent (.inr rfl)⟩
      · rw [← Nat.mul_one (natOfDigits [c]), ← Nat.pow_zero 10]
        refine sameValue_of_shift hvalue ?_
        rw [List.length_singleton] at hpoint
        omega
      · exact (Binary64.ofText?_signed negative hc).trans
          (congrArg (Option.map (toBinary64 negative)) (ofText?_scientific hc _))

end Decimal

namespace Binary64

variable {x : Binary64}

/-- A finite number is a word with a mark of floats, and is read back from it. -/
theorem plainText_spec (h : x.isFinite = true) : IsRun isNumberChar x.plainText ∧
    x.plainText.any isFloatMark = true ∧ ofText? x.plainText = some x := by
  match x, h with
  | .finite negative rank, _ =>
    suffices hword : ∃ text, (finite negative rank).plainText = signed negative text ∧
        IsRun isNumberChar text ∧ text.any isFloatMark = true ∧
          ofText? (signed negative text) = some (finite negative rank) by
      obtain ⟨text, htext, hrun, hmarked, hread⟩ := hword
      rw [htext]
      refine ⟨?_, ?_, hread⟩
      · cases negative
        · exact hrun
        · exact ⟨List.cons_ne_nil _ _, Bool.and_eq_true_iff.mpr ⟨by decide, hrun.2⟩⟩
      · cases negative
        · exact hmarked
        · exact Bool.or_eq_true_iff.mpr (.inr hmarked)
    by_cases hzero : rank.val = 0
    · obtain rfl : rank = ⟨0, by decide⟩ := Fin.ext hzero
      refine ⟨"0.0".toList, rfl, ⟨by simp, by decide⟩, by decide, ?_⟩
      cases negative <;> rfl
    · obtain ⟨hrun, hmarked, hvalue⟩ := Decimal.isWordOf_text (shortest_digits hzero)
      obtain ⟨d', hsame, hread⟩ := hvalue
      refine ⟨_, ?_, hrun, hmarked, (hread negative).trans (congrArg some ?_)⟩
      · simp only [plainText, text, if_neg hzero]
      · exact toBinary64_of_sameValue negative hzero hsame

end Binary64

end Vimscript
