import Mathlib.Tactic.Ring
import Vimscript.Decimal.Shortest

/-!
# The rank of a decimal

The rank nearest to a decimal depends on its value alone. The exponents that are settled without a
power of ten lie outside the range in which ranks of positive finite values come from, so two
decimals of one value have one rank there, and the exact expansion of a rank has that rank.
-/

namespace Vimscript.Decimal

variable {num den num' den' : Nat} {d d' : Decimal}

/-- Ten to an exponent that is not negative stands above the bar, with the digits. -/
theorem numerator_eq (d : Decimal) : d.numerator = d.digits * 10 ^ d.exponent.toNat := rfl

/-- Ten to a negative exponent stands below the bar. -/
theorem denominator_eq (d : Decimal) : d.denominator = 10 ^ (-d.exponent).toNat := rfl

/-- One is two to the 1074 of the least positive value. -/
theorem unitsOfOne_eq : Binary64.unitsOfOne = 2 ^ 1074 := Nat.pow_eq

/-- A normal number has a leading bit that its rank does not store. -/
theorem significand_eq (rank : Nat) : Binary64.significand rank =
    if rank / 2 ^ 52 = 0 then rank % 2 ^ 52 else 2 ^ 52 + rank % 2 ^ 52 := rfl

/-- The spacing doubles with each step of the exponent field from its second value on. -/
theorem scale_eq (rank : Nat) : Binary64.scale rank = rank / 2 ^ 52 - 1 := rfl

/-- A finite value is its significand, doubled as often as its scale says. -/
theorem units_eq (rank : Nat) :
    Binary64.units rank = Binary64.significand rank * 2 ^ Binary64.scale rank := rfl

/-- The rank of a fraction: the power of two that leaves 53 bits, and the quotient rounded there. -/
theorem rankOfFraction_eq (num den : Nat) : rankOfFraction num den =
    (Nat.log2 (num * Binary64.unitsOfOne / den) - 52) * 2 ^ 52 +
      roundHalfEven (num * Binary64.unitsOfOne)
        (den * 2 ^ (Nat.log2 (num * Binary64.unitsOfOne / den) - 52)) := rfl

/-- A common factor of numerator and denominator does not change the rounded quotient. -/
theorem roundHalfEven_scale {k : Nat} (hk : 0 < k) :
    roundHalfEven (k * num) (k * den) = roundHalfEven num den := by
  have hless (a b : Nat) : 2 * (k * a) < k * b ↔ 2 * a < b := by
    rw [Nat.mul_left_comm, Nat.mul_lt_mul_left hk]
  have hmore (a b : Nat) : k * b < 2 * (k * a) ↔ b < 2 * a := by
    rw [Nat.mul_left_comm, Nat.mul_lt_mul_left hk]
  simp only [roundHalfEven, Nat.mul_div_mul_left _ _ hk, Nat.mul_mod_mul_left, hless, hmore]

/-- An expanded fraction has the rank of the fraction. -/
theorem rankOfFraction_scale {k : Nat} (hk : 0 < k) :
    rankOfFraction (k * num) (k * den) = rankOfFraction num den := by
  simp only [rankOfFraction_eq, Nat.mul_assoc, Nat.mul_div_mul_left _ _ hk, roundHalfEven_scale hk]

/-- Equal fractions have one rank. -/
theorem rankOfFraction_congr (hden : 0 < den) (hden' : 0 < den')
    (h : num * den' = num' * den) : rankOfFraction num den = rankOfFraction num' den' := by
  calc rankOfFraction num den
      = rankOfFraction (den' * num) (den' * den) := (rankOfFraction_scale hden').symm
    _ = rankOfFraction (den * num') (den * den') := by
      rw [Nat.mul_comm den' num, h, Nat.mul_comm den' den, Nat.mul_comm den num']
    _ = rankOfFraction num' den' := rankOfFraction_scale hden

/-- One is a multiple of the least positive value other than zero. -/
theorem unitsOfOne_pos : 0 < Binary64.unitsOfOne := Nat.pow_pos (by decide)

/-- A fraction with a positive finite rank lies below two to the power of 1025. -/
theorem lt_of_rankOfFraction (hden : 0 < den) (h : rankOfFraction num den < Binary64.ranks)
    {bits : Nat} (hbits : 1025 ≤ bits) : num < den * 2 ^ bits := by
  by_contra hle
  have hscaled : 2 ^ (bits + 1074) ≤ num * Binary64.unitsOfOne / den := by
    rw [Nat.le_div_iff_mul_le hden, Nat.pow_add, Nat.mul_comm, ← Nat.mul_assoc, unitsOfOne_eq]
    exact Nat.mul_le_mul_right _ (Nat.not_lt.mp hle)
  have hlog : bits + 1074 ≤ Nat.log2 (num * Binary64.unitsOfOne / den) := by
    rw [Nat.le_log2 (Nat.ne_of_gt (Nat.lt_of_lt_of_le (Nat.pow_pos (by decide)) hscaled))]
    exact hscaled
  rw [rankOfFraction_eq, Binary64.ranks, Nat.pow_eq] at h
  clear hle hscaled
  omega

/-- A fraction with a positive rank is at least two to the power of minus 1075. -/
theorem le_of_rankOfFraction (h : 0 < rankOfFraction num den) :
    den ≤ 2 * (num * Binary64.unitsOfOne) := by
  by_contra hlt
  have hsmall : num * Binary64.unitsOfOne < den := by omega
  have hzero : rankOfFraction num den = 0 := by
    have hdown : 2 * (num * Binary64.unitsOfOne) < den := by omega
    simp only [rankOfFraction_eq, Nat.div_eq_of_lt hsmall, roundHalfEven, Nat.log2_zero,
      Nat.zero_sub, Nat.pow_zero, Nat.mul_one, Nat.mod_eq_of_lt hsmall, Nat.zero_mul, if_pos hdown,
      Nat.zero_add]
  exact Nat.ne_of_gt h hzero

/-- Two decimals of one value. -/
def SameValue (d d' : Decimal) : Prop :=
  d.numerator * d'.denominator = d'.numerator * d.denominator

/-- Digits may give zeros at their end to the exponent and take them from it. -/
theorem sameValue_shift (digits k l : Nat) (exponent : Int) :
    SameValue ⟨digits * 10 ^ k, exponent - k⟩ ⟨digits * 10 ^ l, exponent - l⟩ := by
  simp only [SameValue, numerator_eq, denominator_eq, Nat.mul_assoc, ← Nat.pow_add]
  refine congrArg (digits * 10 ^ ·) ?_
  omega

/-- A decimal with no exponent to settle it has the rank of its fraction. -/
theorem nearestRank_eq (hdigits : d.digits ≠ 0) (hlarge : ¬ 400 < d.exponent)
    (hsmall : ¬ d.exponent + Nat.log2 d.digits + 400 < 0) :
    d.nearestRank = rankOfFraction d.numerator d.denominator := by
  rw [nearestRank, if_neg hdigits, if_neg hlarge, if_neg hsmall]

/-- A decimal with a positive finite rank has its digits, and that is the rank of its fraction. -/
theorem rank_of_nearestRank (hpos : 0 < d.nearestRank) (hlt : d.nearestRank < Binary64.ranks) :
    d.digits ≠ 0 ∧ d.nearestRank = rankOfFraction d.numerator d.denominator := by
  by_cases hdigits : d.digits = 0
  · rw [nearestRank, if_pos hdigits] at hpos
    omega
  by_cases hlarge : 400 < d.exponent
  · rw [nearestRank, if_neg hdigits, if_pos hlarge] at hlt
    exact (Nat.lt_irrefl _ hlt).elim
  by_cases hsmall : d.exponent + Nat.log2 d.digits + 400 < 0
  · rw [nearestRank, if_neg hdigits, if_neg hlarge, if_pos hsmall] at hpos
    omega
  exact ⟨hdigits, nearestRank_eq hdigits hlarge hsmall⟩

/-- Between the least and the greatest finite value no exponent settles the rank. -/
theorem nearestRank_of_range (hdigits : d.digits ≠ 0)
    (hlt : ∀ bits, 1025 ≤ bits → d.numerator < d.denominator * 2 ^ bits)
    (hle : d.denominator ≤ 2 * (d.numerator * Binary64.unitsOfOne)) :
    d.nearestRank = rankOfFraction d.numerator d.denominator := by
  refine nearestRank_eq hdigits (fun hlarge => ?_) (fun hsmall => ?_)
  · have hden : d.denominator = 1 := by
      rw [denominator_eq, show (-d.exponent).toNat = 0 by omega, Nat.pow_zero]
    have hbound := hlt (3 * d.exponent.toNat) (by omega)
    rw [hden, Nat.one_mul, numerator_eq] at hbound
    refine Nat.not_le.mpr hbound ?_
    calc 2 ^ (3 * d.exponent.toNat) ≤ 10 ^ d.exponent.toNat :=
          (Nat.pow_mul 2 3 _).trans_le (Nat.pow_le_pow_left (by decide) _)
      _ ≤ d.digits * 10 ^ d.exponent.toNat := Nat.le_mul_of_pos_left _ (by omega)
  · have hnum : d.numerator = d.digits := by
      rw [numerator_eq, show d.exponent.toNat = 0 by omega, Nat.pow_zero, Nat.mul_one]
    rw [hnum, denominator_eq] at hle
    obtain ⟨n, hn⟩ : ∃ n, (-d.exponent).toNat = n := ⟨_, rfl⟩
    rw [hn] at hle
    have hlog : d.digits < 2 ^ (d.digits.log2 + 1) := Nat.lt_log2_self
    have hpow : 2 ^ (3 * n) ≤ 2 ^ (d.digits.log2 + 1 + 1074 + 1) := by
      calc 2 ^ (3 * n) ≤ 10 ^ n :=
            (Nat.pow_mul 2 3 n).trans_le (Nat.pow_le_pow_left (by decide) n)
        _ ≤ 2 * (d.digits * Binary64.unitsOfOne) := hle
        _ ≤ 2 * (2 ^ (d.digits.log2 + 1) * Binary64.unitsOfOne) :=
            Nat.mul_le_mul_left 2 (Nat.mul_le_mul_right _ (Nat.le_of_lt hlog))
        _ = 2 ^ (d.digits.log2 + 1 + 1074 + 1) := by
            rw [unitsOfOne_eq, ← Nat.pow_add, Nat.mul_comm, ← Nat.pow_succ]
    have := (Nat.pow_le_pow_iff_right (by decide)).mp hpow
    clear hle hlog hpow
    omega

/-- Decimals of one value have one rank, if it is that of a positive finite number. -/
theorem nearestRank_congr (h : SameValue d d') (hpos : 0 < d.nearestRank)
    (hlt : d.nearestRank < Binary64.ranks) : d'.nearestRank = d.nearestRank := by
  obtain ⟨hdigits, hrank⟩ := rank_of_nearestRank hpos hlt
  rw [hrank] at hpos hlt ⊢
  have hcongr := rankOfFraction_congr d.denominator_pos d'.denominator_pos h
  rw [hcongr] at hpos hlt ⊢
  refine nearestRank_of_range ?_ (fun _ => lt_of_rankOfFraction d'.denominator_pos hlt)
    (le_of_rankOfFraction hpos)
  intro hzero
  rw [numerator_eq, hzero, Nat.zero_mul] at hpos
  simp [rankOfFraction_eq, roundHalfEven] at hpos

/-- The highest bit of a normal number lies 52 places above its scale. -/
theorem units_log2 {rank : Nat} (h : ¬ rank / 2 ^ 52 = 0) :
    Nat.log2 (Binary64.units rank) = 52 + Binary64.scale rank := by
  have hbelow : rank % 2 ^ 52 < 2 ^ 52 := Nat.mod_lt _ (by decide)
  have hscale : 0 < 2 ^ Binary64.scale rank := Nat.pow_pos (by decide)
  rw [units_eq, significand_eq, if_neg h,
    Nat.log2_eq_iff (Nat.ne_of_gt (Nat.mul_pos (by omega) hscale)), Nat.pow_add,
    Nat.add_right_comm 52 _ 1, Nat.pow_add 2 (52 + 1)]
  exact ⟨Nat.mul_le_mul_right _ (by omega), Nat.mul_lt_mul_of_pos_right (by omega) hscale⟩

/-- A number of units is nearest to the rank that it belongs to. -/
theorem rankOfFraction_units (rank : Nat) :
    rankOfFraction (Binary64.units rank) Binary64.unitsOfOne = rank := by
  have hone := unitsOfOne_pos
  simp only [rankOfFraction_eq, Nat.mul_div_cancel _ hone]
  by_cases h : rank / 2 ^ 52 = 0
  · have hrank : rank < 2 ^ 52 := (Nat.div_eq_zero_iff.mp h).resolve_left (by decide)
    have hunits : Binary64.units rank = rank := by
      rw [units_eq, significand_eq, if_pos h, scale_eq, h, Nat.mod_eq_of_lt hrank]
      simp
    have hlog : Nat.log2 rank - 52 = 0 := by
      by_cases hzero : rank = 0
      · rw [hzero]
        simp
      · have := (Nat.log2_lt hzero).mpr hrank
        omega
    rw [hunits, hlog, Nat.pow_zero, Nat.mul_one, roundHalfEven_mul _ _ hone]
    omega
  · rw [units_log2 h, Nat.add_sub_cancel_left, units_eq, Nat.mul_assoc,
      Nat.mul_comm (2 ^ _), roundHalfEven_mul _ _ (Nat.mul_pos hone (Nat.pow_pos (by decide))),
      significand_eq, if_neg h, scale_eq]
    omega

/-- A fraction of a power of two is a decimal. -/
theorem nearestRank_half {n bits : Nat} (h : 0 < n) :
    nearestRank ⟨n * 5 ^ bits, -bits⟩ = rankOfFraction n (2 ^ bits) := by
  have hfive : 0 < 5 ^ bits := Nat.pow_pos (by decide)
  have hdigits : n * 5 ^ bits ≠ 0 := Nat.ne_of_gt (Nat.mul_pos h hfive)
  have hlog : 2 * bits ≤ Nat.log2 (n * 5 ^ bits) := by
    rw [Nat.le_log2 hdigits]
    calc 2 ^ (2 * bits) ≤ 5 ^ bits :=
          (Nat.pow_mul 2 2 bits).trans_le (Nat.pow_le_pow_left (by decide) bits)
      _ ≤ n * 5 ^ bits := Nat.le_mul_of_pos_left _ h
  rw [nearestRank_eq hdigits (by dsimp only; omega) (by dsimp only; omega)]
  refine rankOfFraction_congr (denominator_pos _) (Nat.pow_pos (by decide)) ?_
  simp only [numerator_eq, denominator_eq, Int.neg_neg, Int.toNat_natCast, Int.toNat_neg_natCast,
    Nat.pow_zero, Nat.mul_one, Nat.mul_assoc, ← Nat.mul_pow]

/-- The exact expansion of a positive value reads back. -/
theorem nearestRank_expansion {rank : Nat} (h : 0 < rank) :
    (expansion rank).nearestRank = rank := by
  have hunits : 0 < Binary64.units rank := by
    have hrank := rankOfFraction_units rank
    by_contra hzero
    rw [Nat.eq_zero_of_not_pos hzero] at hrank
    simp [rankOfFraction_eq, roundHalfEven] at hrank
    omega
  exact (nearestRank_half hunits).trans (rankOfFraction_units rank)

/-- The shortest decimal of a positive value reads back. -/
theorem nearestRank_shortest {rank : Nat} (h : 0 < rank) : (shortest rank).nearestRank = rank := by
  unfold shortest
  dsimp only
  generalize (List.range 17).flatMap _ = candidates
  cases hfind : candidates.find? fun d => d.nearestRank == rank with
  | none =>
    rw [Option.getD_none]
    exact nearestRank_expansion h
  | some d =>
    have hrank := List.find?_some hfind
    exact eq_of_beq hrank

end Vimscript.Decimal
