import Vimscript.Decimal.Layout
import Vimscript.Proofs.Decimal.Rank
import Vimscript.Proofs.Grammar.Token
import Vimscript.Proofs.Numeral

/-!
# Written floats read back

The source form of a positive finite number is a run of digits, a point, another run of digits and
perhaps an exponent. Whichever layout is taken, the text has the value of the shortest decimal, so
it is read back as the number that it was written for.
-/

namespace Vimscript.Decimal

open Text

variable {whole fraction : List Char} {digits : List Char}

/-- An exponent behind its letter, or nothing for zero. -/
def ExponentText (u : List Char) (exponent : Int) : Prop :=
  u = [] ∧ exponent = 0 ∨ u = 'e' :: Text.integer exponent

/-- No sign stands in front of a digit. -/
theorem splitSign_of_isDigit {c : Char} (rest : List Char) (hc : c.isDigit = true) :
    splitSign (c :: rest) = (false, c :: rest) := by
  unfold splitSign
  split
  · exact absurd hc (by simp_all)
  · exact absurd hc (by simp_all)
  · rfl

/-- Digits without a sign are not negative. -/
theorem splitSign_of_isRun {u : List Char} (h : IsRun Char.isDigit u) :
    splitSign u = (false, u) := by
  obtain ⟨c, rest, rfl⟩ := List.exists_cons_of_ne_nil h.1
  exact splitSign_of_isDigit _ (Bool.and_eq_true_iff.mp (List.all_cons ▸ h.2)).1

/-- A natural number is written without a sign. -/
theorem natural_splitSign (n : Nat) : splitSign (natural n) = (false, natural n) :=
  splitSign_of_isRun ⟨natural_ne_nil n, natural_isDigit n⟩

/-- A natural number is read back from its digits. -/
theorem natOfDigits_natural (n : Nat) : natOfDigits (natural n) = n :=
  Nat.ofDigitChars_ten_toDigits

/-- A written exponent is read back. -/
theorem exponentOfText?_eq {u : List Char} {exponent : Int} (h : ExponentText u exponent) :
    exponentOfText? u = some exponent := by
  rcases h with ⟨rfl, rfl⟩ | rfl
  · rfl
  · by_cases hneg : exponent < 0
    · simp only [Text.integer, if_pos hneg, exponentOfText?, splitSign, natOfDigits_natural,
        natural_isDigit, natural_ne_nil, ne_eq, not_false_eq_true, true_or, and_self, if_true]
      exact congrArg some (by omega)
    · simp only [Text.integer, if_neg hneg, exponentOfText?, natural_splitSign, natOfDigits_natural,
        natural_isDigit, natural_ne_nil, ne_eq, not_false_eq_true, true_or, and_self, if_true,
        Bool.false_eq_true, if_false]
      exact congrArg some (by omega)

/-- What is written for an exponent is nothing or an exponent as floats have it. -/
theorem isExponent_of_exponentText {u : List Char} {exponent : Int} (h : ExponentText u exponent) :
    u = [] ∨ IsExponent u := by
  rcases h with ⟨rfl, -⟩ | rfl
  · exact .inl rfl
  · refine .inr ?_
    by_cases hneg : exponent < 0
    · exact ⟨'e', ['-'], natural exponent.natAbs, by rw [Text.integer, if_pos hneg]; rfl, .inl rfl,
        .inr (.inr rfl), natural_ne_nil _, natural_isDigit _⟩
    · exact ⟨'e', [], natural exponent.natAbs, by rw [Text.integer, if_neg hneg]; rfl, .inl rfl,
        .inl rfl, natural_ne_nil _, natural_isDigit _⟩

/-- A written exponent begins with no digit. -/
theorem endsBefore_of_exponentText {u : List Char} {exponent : Int}
    (h : ExponentText u exponent) : EndsBefore Char.isDigit u := by
  rcases h with ⟨rfl, -⟩ | rfl
  · exact endsBefore_nil _
  · exact endsBefore_cons.mpr (by decide)

/-- A text of digits with a point among them, and perhaps an exponent, is a decimal. -/
theorem ofText?_of_exponent {u : List Char} {exponent : Int} (hwhole : IsRun Char.isDigit whole)
    (hfraction : fraction.all Char.isDigit = true) (hends : EndsBefore Char.isDigit u)
    (hu : exponentOfText? u = some exponent) :
    ofText? (whole ++ '.' :: fraction ++ u) =
      some ⟨natOfDigits (whole ++ fraction), exponent - fraction.length⟩ := by
  have hpoint : EndsBefore Char.isDigit ('.' :: (fraction ++ u)) := endsBefore_cons.mpr (by decide)
  have htext : whole ++ '.' :: fraction ++ u = whole ++ '.' :: (fraction ++ u) := by simp
  simp only [ofText?, htext, takeWhile_append hwhole.2 hpoint, dropWhile_append hwhole.2 hpoint,
    splitFraction, takeWhile_append hfraction hends, dropWhile_append hfraction hends, hwhole.1,
    false_and, if_false, hu, Option.map_some]

/-- The layout of a float is read as its digits and its exponent, less one for each digit behind the
point. -/
theorem ofText?_eq {u : List Char} {exponent : Int} (hwhole : IsRun Char.isDigit whole)
    (hfraction : fraction.all Char.isDigit = true) (hu : ExponentText u exponent) :
    ofText? (whole ++ '.' :: fraction ++ u) =
      some ⟨natOfDigits (whole ++ fraction), exponent - fraction.length⟩ :=
  ofText?_of_exponent hwhole hfraction (endsBefore_of_exponentText hu) (exponentOfText?_eq hu)

/-- Zeros at the end multiply by ten. -/
theorem natOfDigits_append_zeros (digits : List Char) (k : Nat) :
    natOfDigits (digits ++ List.replicate k '0') = natOfDigits digits * 10 ^ k := by
  rw [natOfDigits, Nat.ofDigitChars_append, Nat.ofDigitChars_replicate_zero, Nat.mul_comm]
  rfl

/-- Zeros in front change nothing. -/
theorem natOfDigits_zeros_append (digits : List Char) (k : Nat) :
    natOfDigits (List.replicate k '0' ++ digits) = natOfDigits digits := by
  rw [natOfDigits, Nat.ofDigitChars_append, Nat.ofDigitChars_replicate_zero, Nat.mul_zero]
  rfl

/-- Zeros are digits. -/
theorem all_replicate_zero (k : Nat) : (List.replicate k '0').all Char.isDigit = true := by
  simp

/-- The digits of a positive decimal are its significant ones and zeros behind them. -/
theorem significantDigits_spec {d : Decimal} (h : d.digits ≠ 0) : ∃ zeros,
    d.digits = natOfDigits d.significantDigits * 10 ^ zeros ∧
      digitCount d.digits = d.significantDigits.length + zeros ∧
        IsRun Char.isDigit d.significantDigits := by
  let all := Nat.toDigits 10 d.digits
  let zeros := (all.reverse.takeWhile (· == '0')).length
  have hzeros : (all.reverse.takeWhile (· == '0')).reverse = List.replicate zeros '0' := by
    refine List.eq_replicate_iff.mpr ⟨List.length_reverse, fun c hc => ?_⟩
    exact eq_of_beq (List.all_eq_true.mp List.all_takeWhile c (List.mem_reverse.mp hc))
  have hall : all = d.significantDigits ++ List.replicate zeros '0' := by
    rw [← hzeros, significantDigits, ← List.reverse_append, List.takeWhile_append_dropWhile,
      List.reverse_reverse]
  have hvalue : d.digits = natOfDigits d.significantDigits * 10 ^ zeros := by
    rw [← natOfDigits_append_zeros, ← hall]
    exact (natOfDigits_natural d.digits).symm
  have hdigits : all.all Char.isDigit = true := natural_isDigit d.digits
  refine ⟨zeros, hvalue, ?_, ?_, ?_⟩
  · rw [digitCount, show Nat.toDigits 10 d.digits = all from rfl, hall, List.length_append,
      List.length_replicate]
  · intro hnil
    rw [hnil] at hvalue
    exact h (by rw [hvalue]; exact Nat.zero_mul _)
  · rw [hall, List.all_append] at hdigits
    exact (Bool.and_eq_true_iff.mp hdigits).1

/-- A text that is read as a decimal with the value of another: digits on both sides of a point
and an exponent. -/
def Writes (text : List Char) (d : Decimal) : Prop :=
  ∃ whole fraction u exponent, text = whole ++ '.' :: fraction ++ u ∧
    IsRun Char.isDigit whole ∧ IsRun Char.isDigit fraction ∧ ExponentText u exponent ∧
      SameValue d ⟨natOfDigits (whole ++ fraction), exponent - fraction.length⟩

/-- Digits followed by zeros have the value that a decimal has if the point stands where it does. -/
theorem sameValue_of_shift {d : Decimal} {digits k zeros : Nat} {exponent : Int}
    (hd : d.digits = digits * 10 ^ zeros) (h : exponent + k = d.exponent + zeros) :
    SameValue d ⟨digits * 10 ^ k, exponent⟩ := by
  have := sameValue_shift digits zeros k (d.exponent + zeros)
  rwa [Int.add_sub_cancel, ← h, Int.add_sub_cancel, ← hd] at this

section

variable {d : Decimal} {zeros : Nat} {point : Int}

/-- The point stands among the digits, or as far from them as zeros reach. -/
theorem writes_positional (hvalue : d.digits = natOfDigits digits * 10 ^ zeros)
    (hdigits : IsRun Char.isDigit digits) (hpoint : point = digits.length + zeros + d.exponent) :
    Writes (positional digits point) d := by
  have hlength : 0 < digits.length := List.length_pos_iff.mpr hdigits.1
  unfold positional
  split
  · refine ⟨['0'], List.replicate (-point).toNat '0' ++ digits, [], 0, by simp, ⟨by simp, by decide⟩,
      ⟨by simp [hdigits.1], ?_⟩, .inl ⟨rfl, rfl⟩, ?_⟩
    · rw [List.all_append, all_replicate_zero, hdigits.2]
      rfl
    · have htext : natOfDigits (['0'] ++ (List.replicate (-point).toNat '0' ++ digits)) =
          natOfDigits digits * 10 ^ 0 := by
        rw [Nat.pow_zero, Nat.mul_one]
        exact natOfDigits_zeros_append digits ((-point).toNat + 1)
      rw [htext]
      refine sameValue_of_shift hvalue ?_
      rw [List.length_append, List.length_replicate]
      omega
  · split
    · refine ⟨digits.take point.toNat, digits.drop point.toNat, [], 0, by simp, ⟨?_, ?_⟩, ⟨?_, ?_⟩,
        .inl ⟨rfl, rfl⟩, ?_⟩
      · refine List.length_pos_iff.mp ?_
        rw [List.length_take]
        omega
      · exact List.all_eq_true.mpr fun c hc =>
          List.all_eq_true.mp hdigits.2 c (List.mem_of_mem_take hc)
      · refine List.length_pos_iff.mp ?_
        rw [List.length_drop]
        omega
      · exact List.all_eq_true.mpr fun c hc =>
          List.all_eq_true.mp hdigits.2 c (List.mem_of_mem_drop hc)
      · rw [List.take_append_drop, ← Nat.mul_one (natOfDigits digits), ← Nat.pow_zero 10]
        refine sameValue_of_shift hvalue ?_
        rw [List.length_drop]
        omega
    · refine ⟨digits ++ List.replicate (point.toNat - digits.length) '0', ['0'], [], 0, by simp,
        ⟨by simp [hdigits.1], ?_⟩, ⟨by simp, by decide⟩, .inl ⟨rfl, rfl⟩, ?_⟩
      · rw [List.all_append, all_replicate_zero, hdigits.2]
        rfl
      · have htext : digits ++ List.replicate (point.toNat - digits.length) '0' ++ ['0'] =
            digits ++ List.replicate (point.toNat - digits.length + 1) '0' := by
          rw [List.append_assoc, List.replicate_succ']
        rw [htext, natOfDigits_append_zeros]
        refine sameValue_of_shift hvalue ?_
        rw [List.length_singleton]
        omega

/-- One digit stands before the point, and the exponent is counted from it. -/
theorem writes_scientific (hvalue : d.digits = natOfDigits digits * 10 ^ zeros)
    (hdigits : IsRun Char.isDigit digits) (hpoint : point = digits.length + zeros + d.exponent) :
    Writes (scientific true digits point) d := by
  obtain ⟨c, rest, rfl⟩ := List.exists_cons_of_ne_nil hdigits.1
  obtain ⟨hc, hrest⟩ := Bool.and_eq_true_iff.mp (List.all_cons ▸ hdigits.2)
  have hone : IsRun Char.isDigit [c] := ⟨by simp, by simp [hc]⟩
  rw [List.length_cons] at hpoint
  cases rest with
  | nil =>
    refine ⟨[c], ['0'], _, point - 1, rfl, hone, ⟨by simp, by decide⟩, .inr rfl, ?_⟩
    rw [show [c] ++ ['0'] = [c] ++ List.replicate 1 '0' from rfl, natOfDigits_append_zeros]
    refine sameValue_of_shift hvalue ?_
    rw [List.length_singleton]
    rw [List.length_nil] at hpoint
    omega
  | cons c' rest =>
    refine ⟨[c], c' :: rest, _, point - 1, rfl, hone, ⟨by simp, hrest⟩, .inr rfl, ?_⟩
    rw [show [c] ++ c' :: rest = c :: c' :: rest from rfl,
      ← Nat.mul_one (natOfDigits (c :: c' :: rest)), ← Nat.pow_zero 10]
    refine sameValue_of_shift hvalue ?_
    omega

/-- The text of a positive decimal has its value. -/
theorem writes_text (h : d.digits ≠ 0) : Writes (d.text true) d := by
  obtain ⟨zeros, hvalue, hcount, hdigits⟩ := significantDigits_spec h
  have hpoint : d.pointPosition = d.significantDigits.length + zeros + d.exponent := by
    rw [pointPosition, hcount]
    omega
  simp only [text]
  split
  · exact writes_positional hvalue hdigits hpoint
  · exact writes_scientific hvalue hdigits hpoint

end

end Vimscript.Decimal

namespace Vimscript.Binary64

open Text

/-- A sign is split off in front of a digit. -/
theorem splitSign_signed {c : Char} (negative : Bool) (rest : List Char) (hc : c.isDigit = true) :
    Decimal.splitSign (signed negative (c :: rest)) = (negative, c :: rest) := by
  cases negative
  · exact Decimal.splitSign_of_isDigit rest hc
  · rfl

/-- A text that begins with a digit is no word, and a sign in front of it is that of the number. -/
theorem ofText?_signed {c : Char} {rest : List Char} (negative : Bool) (hc : c.isDigit = true) :
    ofText? (signed negative (c :: rest)) =
      (Decimal.ofText? (c :: rest)).map (Decimal.toBinary64 negative) := by
  have hsign := splitSign_signed negative rest hc
  have hlower : c.toLower = c := by
    have hle := (isDigit_iff.mp hc).2
    rw [← Char.toNat_inj, Char.toNat_toLower, if_neg (by omega)]
  have hword (d : Char) (more : List Char) (hd : d.isDigit = false) :
      (c :: rest).map Char.toLower ≠ d :: more := by
    intro h
    rw [List.map_cons, hlower] at h
    rw [(List.cons.inj h).1, hd] at hc
    cases hc
  have hinf : ¬((c :: rest).map Char.toLower = "inf".toList ∨
      (c :: rest).map Char.toLower = "infinity".toList) := by
    rintro (h | h) <;> exact hword _ _ (by decide) h
  have hnan : (c :: rest).map Char.toLower ≠ "nan".toList := hword _ _ (by decide)
  simp only [ofText?, hsign, if_neg hinf, if_neg hnan]

/-- A text that writes a decimal is read as a decimal of its value, under either sign. -/
theorem exists_value_of_writes {text : List Char} {d : Decimal} (h : Decimal.Writes text d) :
    ∃ d', Decimal.SameValue d d' ∧
      ∀ negative, ofText? (signed negative text) = some (d'.toBinary64 negative) := by
  obtain ⟨whole, fraction, u, exponent, rfl, hwhole, hfraction, hu, hvalue⟩ := h
  obtain ⟨c, rest, rfl⟩ := List.exists_cons_of_ne_nil hwhole.1
  have hc := (Bool.and_eq_true_iff.mp (List.all_cons ▸ hwhole.2)).1
  have hread := Decimal.ofText?_eq hwhole hfraction.2 hu
  exact ⟨_, hvalue, fun negative => (ofText?_signed negative hc).trans
    (congrArg (Option.map (Decimal.toBinary64 negative)) hread)⟩

section

variable {rank : Fin ranks} {d : Decimal}

/-- The shortest decimal of a positive number has digits. -/
theorem shortest_digits (h : rank.val ≠ 0) : (Decimal.shortest rank).digits ≠ 0 := by
  intro hdigits
  have hrank := Decimal.nearestRank_shortest (Nat.pos_of_ne_zero h)
  rw [Decimal.nearestRank, if_pos hdigits] at hrank
  exact h hrank.symm

/-- A decimal with the value of the shortest one stands for the number. -/
theorem toBinary64_of_sameValue (negative : Bool) (h : rank.val ≠ 0)
    (hvalue : Decimal.SameValue (Decimal.shortest rank) d) :
    d.toBinary64 negative = finite negative rank := by
  have hrank := Decimal.nearestRank_shortest (Nat.pos_of_ne_zero h)
  have hsame := Decimal.nearestRank_congr hvalue (by rw [hrank]; exact Nat.pos_of_ne_zero h)
    (by rw [hrank]; exact rank.isLt)
  rw [hrank] at hsame
  rw [Decimal.toBinary64, dif_pos (by rw [hsame]; exact rank.isLt)]
  simp only [hsame]

end

/-- The source form of a finite number without a sign is a float and is read back. -/
theorem ofText?_sourceText (rank : Fin ranks) : ∃ whole fraction u,
    (finite false rank).sourceText = whole ++ '.' :: fraction ++ u ∧ IsRun Char.isDigit whole ∧
      IsRun Char.isDigit fraction ∧ (u = [] ∨ IsExponent u) ∧
        ofText? (finite false rank).sourceText = some (finite false rank) := by
  by_cases hzero : rank.val = 0
  · obtain rfl : rank = ⟨0, by decide⟩ := Fin.ext hzero
    exact ⟨['0'], ['0'], [], rfl, ⟨by simp, by decide⟩, ⟨by simp, by decide⟩, .inl rfl, rfl⟩
  · have hsource : (finite false rank).sourceText = (Decimal.shortest rank).text true := by
      simp only [sourceText, text, if_neg hzero, signed, Bool.false_eq_true, if_false]
    have hwrites := Decimal.writes_text (shortest_digits hzero)
    obtain ⟨d, hvalue, hread⟩ := exists_value_of_writes hwrites
    have hread := hread false
    rw [signed, if_neg Bool.false_ne_true, ← hsource, toBinary64_of_sameValue false hzero hvalue]
      at hread
    obtain ⟨whole, fraction, u, exponent, htext, hwhole, hfraction, hu, -⟩ := hwrites
    exact ⟨whole, fraction, u, hsource.trans htext, hwhole, hfraction,
      Decimal.isExponent_of_exponentText hu, hread⟩

end Vimscript.Binary64
