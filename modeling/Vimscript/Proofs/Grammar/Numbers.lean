import Vimscript.Proofs.Grammar.Lexeme

/-!
# Numbers and blobs

Digits of a base stand behind a zero and a letter, plain digits by themselves, and no letter or
digit may follow either. A float has digits on both sides of its point and takes an exponent
wherever one stands. A blob takes all digits and points behind its mark.
-/

namespace Vimscript

/-- Capital letters of ASCII have a lower case, and every other character stays. -/
theorem Char.toNat_toLower (c : Char) :
    c.toLower.toNat = if 65 ≤ c.toNat ∧ c.toNat ≤ 90 then c.toNat + 32 else c.toNat := by
  by_cases h : 65 ≤ c.toNat ∧ c.toNat ≤ 90
  · have hval : c.toLower.val = c.val + 32 := congrArg Char.val (dif_pos h)
    have hshift : (32 : UInt32).toNat = 32 := rfl
    rw [if_pos h, ← Char.toNat_val, hval, UInt32.toNat_add, Char.toNat_val, hshift]
    omega
  · rw [if_neg h]
    exact congrArg Char.toNat (dif_neg h)

/-- A small letter is the lower case of itself and of its capital only. -/
theorem Char.toLower_eq_iff {c : Char} (lower upper : Char) (h : upper.toNat + 32 = lower.toNat)
    (hlow : 97 ≤ lower.toNat) (hhigh : lower.toNat ≤ 122) :
    c.toLower = lower ↔ c = lower ∨ c = upper := by
  simp only [← Char.toNat_inj, Char.toNat_toLower]
  split <;> omega

/-- A zero is the lower case of nothing else. -/
theorem Char.toLower_eq_zero_iff {c : Char} : c.toLower = '0' ↔ c = '0' := by
  have zero : '0'.toNat = 48 := rfl
  simp only [← Char.toNat_inj, Char.toNat_toLower, zero]
  split <;> omega

namespace Parses

variable {here stop : Cursor} {ts : List (Tree Rule)}

open Text Pattern

/-- A zero and a letter in either case in front of the digits of a base. -/
theorem based_some_iff (lower upper : Char) {isDigit : Char → Bool}
    (h : upper.toNat + 32 = lower.toNat) (hlow : 97 ≤ lower.toNat) (hhigh : lower.toNat ≤ 122) :
    Parses (.tight [.anyCase ['0', lower], .char isDigit, .star (.char isDigit)]) here
        (some (stop, ts)) ↔
      ∃ u, here.Moves u stop ∧ IsBased lower upper isDigit u ∧ EndsBefore isDigit stop.rest ∧
        ts = [] := by
  have name := @name_some_iff
  simp only [tight, chain, counted_iff] at name
  simp only [tight, chain, counted_iff, seq_some_iff, anyCase_some_iff]
  constructor
  · rintro ⟨mid, us, vs, ⟨u, hu, hmove, rfl⟩, hrest, rfl⟩
    obtain ⟨c, v, hc, hv, hmove', hstop, rfl⟩ := name.mp (seq_some_iff.mpr hrest)
    obtain ⟨zero, w, rfl, hzero, hw⟩ := List.map_eq_cons_iff.mp hu
    obtain ⟨mark, w, rfl, hmark, hw⟩ := List.map_eq_cons_iff.mp hw
    obtain rfl := List.map_eq_nil_iff.mp hw
    obtain rfl := Char.toLower_eq_zero_iff.mp hzero
    have hmark := (Char.toLower_eq_iff lower upper h hlow hhigh).mp hmark
    exact ⟨_, hmove.trans hmove', ⟨mark, c :: v, rfl, hmark, List.cons_ne_nil c v,
      by rw [List.all_cons, hc, hv]; rfl⟩, hstop, rfl⟩
  · rintro ⟨u, hmove, ⟨mark, digits, rfl, hmark, hne, hdigits⟩, hstop, rfl⟩
    obtain ⟨mid, first, second⟩ := Cursor.Moves.append_iff.mp
      (show here.Moves (['0', mark] ++ digits) stop from hmove)
    cases digits with
    | nil => exact (hne rfl).elim
    | cons c v =>
      obtain ⟨hc, hv⟩ := Bool.and_eq_true_iff.mp (List.all_cons ▸ hdigits)
      refine ⟨mid, [], [], ⟨['0', mark], ?_, first, rfl⟩, ?_, rfl⟩
      · rw [List.map_cons, List.map_cons, List.map_nil, Char.toLower_eq_zero_iff.mpr rfl,
          (Char.toLower_eq_iff lower upper h hlow hhigh).mpr hmark]
      · exact seq_some_iff.mp (name.mpr ⟨c, v, hc, hv, second, hstop, rfl⟩)

/-- A choice between a class and one character more is a class. -/
theorem choice_char_iff {accepts : Char → Bool} {d : Char} {place : Cursor} {res : Reading} :
    Parses (.choice (.char accepts) (.text [d])) place res ↔
      Parses (.char fun c => accepts c || c == d) place res := by
  have total : ∃ res, Parses (.choice (.char accepts) (.text [d])) place res := by
    cases hskip : place.skipChar? accepts with
    | none =>
      have h : Parses (.char accepts) place none := by rw [char_iff, hskip]; rfl
      exact ⟨_, .right h .text⟩
    | some stop =>
      have h : Parses (.char accepts) place (some (stop, [])) := by rw [char_iff, hskip]; rfl
      exact ⟨_, .left h⟩
  have same : ∀ res, Parses (.choice (.char accepts) (.text [d])) place res →
      Parses (.char fun c => accepts c || c == d) place res := by
    rintro (_ | ⟨stop, ts⟩) h
    · obtain ⟨hchar, htext⟩ := choice_none_iff.mp h
      exact char_none_iff.mpr (endsBefore_or_iff.mpr
        ⟨char_none_iff.mp hchar, endsBefore_beq_iff.mpr (text_none_iff.mp htext)⟩)
    · rcases choice_some_iff.mp h with h | ⟨-, h⟩
      · obtain ⟨c, hc, hmove, rfl⟩ := char_some_iff.mp h
        exact char_some_iff.mpr ⟨c, by rw [hc]; rfl, hmove, rfl⟩
      · obtain ⟨hmove, rfl⟩ := text_some_iff.mp h
        exact char_some_iff.mpr ⟨d, by rw [beq_self_eq_true, Bool.or_true], hmove, rfl⟩
  obtain ⟨other, hother⟩ := total
  refine ⟨same res, fun h => ?_⟩
  rwa [h.unique (same other hother)]

/-- The pattern of a blob matches its lexemes. -/
theorem blob_some_iff : Parses Rule.blob.pattern here (some (stop, ts)) ↔
    ∃ u, here.Moves u stop ∧ Rule.blob.Lexeme u stop.rest ∧ ts = [] := by
  have digits (place : Cursor) (res : Reading) :
      Parses (firstOf [hexDigit, .token "."]) place res ↔
        Parses (.char fun c => isHexDigit c || c == '.') place res := choice_char_iff
  simp only [Rule.pattern, tokenBody, tight, chain, Pattern.star, counted_iff, seq_some_iff,
    tokenAnyCase, anyCase_some_iff, many_char_some_iff digits, Rule.Lexeme]
  constructor
  · rintro ⟨mid, us, vs, ⟨u, hu, h, rfl⟩, ⟨v, hv, h', hend, rfl⟩, rfl⟩
    obtain ⟨zero, w, rfl, hzero, hw⟩ := List.map_eq_cons_iff.mp hu
    obtain ⟨mark, w, rfl, hmark, hw⟩ := List.map_eq_cons_iff.mp hw
    obtain rfl := List.map_eq_nil_iff.mp hw
    obtain rfl := Char.toLower_eq_zero_iff.mp hzero
    have hmark : mark = 'z' ∨ mark = 'Z' :=
      (Char.toLower_eq_iff 'z' 'Z' (by decide) (by decide) (by decide)).mp hmark
    exact ⟨_, h.trans h', ⟨mark, v, rfl, hmark, hv, hend⟩, rfl⟩
  · rintro ⟨u, h, ⟨mark, v, rfl, hmark, hv, hend⟩, rfl⟩
    obtain ⟨mid, h, h'⟩ := Cursor.Moves.append_iff.mp
      (show here.Moves (['0', mark] ++ v) stop from h)
    refine ⟨mid, [], [], ⟨['0', mark], ?_, h, rfl⟩, ⟨v, hv, h', hend, rfl⟩, rfl⟩
    have hmark : mark.toLower = 'z' :=
      (Char.toLower_eq_iff 'z' 'Z' (by decide) (by decide) (by decide)).mpr hmark
    rw [List.map_cons, List.map_cons, List.map_nil, Char.toLower_eq_zero_iff.mpr rfl, hmark]
    rfl

/-- A sign is taken where one stands. -/
theorem sign_some_iff :
    Parses (.optional (firstOf [.token "+", .token "-"])) here (some (stop, ts)) ↔
      ∃ sign, here.Moves sign stop ∧ (sign = ['+'] ∨ sign = ['-'] ∨ sign = [] ∧
        EndsBefore (fun c => c == '+' || c == '-') stop.rest) ∧ ts = [] := by
  simp only [Pattern.optional, counted_iff, opt_some_iff, firstOf, choice_some_iff,
    choice_none_iff, token_some_iff, token_none_iff, endsBefore_or_iff, endsBefore_beq_iff]
  constructor
  · rintro ((⟨h, rfl⟩ | ⟨-, h, rfl⟩) | ⟨hnone, rfl, rfl⟩)
    · exact ⟨_, h, .inl rfl, rfl⟩
    · exact ⟨_, h, .inr (.inl rfl), rfl⟩
    · exact ⟨_, .refl _, .inr (.inr ⟨rfl, hnone⟩), rfl⟩
  · rintro ⟨sign, h, rfl | rfl | ⟨rfl, hnone⟩, rfl⟩
    · exact .inl (.inl ⟨h, rfl⟩)
    · exact .inl (.inr ⟨not_prefix_of_moves h (by decide) (by decide), h, rfl⟩)
    · obtain rfl := (Cursor.Moves.refl here).stop_unique h
      exact .inr ⟨hnone, rfl, rfl⟩

/-- The exponent of a float as the grammar writes it. -/
def exponentPart : Pattern :=
  tight [.tokenAnyCase "e", .optional (firstOf [.token "+", .token "-"]), digit, Pattern.star digit]

/-- The pattern of an exponent matches all of its digits. -/
theorem exponentPart_some_iff : Parses exponentPart here (some (stop, ts)) ↔
    ∃ u, here.Moves u stop ∧ IsExponent u ∧ EndsBefore Char.isDigit stop.rest ∧ ts = [] := by
  have name := @name_some_iff
  simp only [tight, chain, counted_iff] at name
  simp only [exponentPart, tight, chain, counted_iff, seq_some_iff, tokenAnyCase,
    anyCase_some_iff, sign_some_iff]
  constructor
  · rintro ⟨mid, us, vs, ⟨u, hu, h, rfl⟩, ⟨mid', us', vs', ⟨sign, h', hsign, rfl⟩, hrest, rfl⟩, rfl⟩
    obtain ⟨c, v, hc, hv, h'', hend, rfl⟩ := name.mp (seq_some_iff.mpr hrest)
    obtain ⟨mark, w, rfl, hmark, hw⟩ := List.map_eq_cons_iff.mp hu
    obtain rfl := List.map_eq_nil_iff.mp hw
    have hmark : mark = 'e' ∨ mark = 'E' :=
      (Char.toLower_eq_iff 'e' 'E' (by decide) (by decide) (by decide)).mp hmark
    refine ⟨_, h.trans (h'.trans h''), ⟨mark, sign, c :: v, rfl, hmark, ?_,
      List.cons_ne_nil c v, by rw [List.all_cons, hc, hv]; rfl⟩, hend, rfl⟩
    rcases hsign with rfl | rfl | ⟨rfl, -⟩
    · exact .inr (.inl rfl)
    · exact .inr (.inr rfl)
    · exact .inl rfl
  · rintro ⟨u, h, ⟨mark, sign, digits, rfl, hmark, hsign, hne, hdigits⟩, hend, rfl⟩
    obtain ⟨mid, hfirst, h⟩ := Cursor.Moves.cons_iff.mp h
    obtain ⟨mid', hsecond, hthird⟩ := Cursor.Moves.append_iff.mp h
    cases digits with
    | nil => exact (hne rfl).elim
    | cons c v =>
      obtain ⟨hc, hv⟩ := Bool.and_eq_true_iff.mp (List.all_cons ▸ hdigits)
      refine ⟨mid, [], [], ⟨[mark], ?_, hfirst, rfl⟩, ⟨mid', [], [], ⟨sign, hsecond, ?_, rfl⟩,
        seq_some_iff.mp (name.mpr ⟨c, v, hc, hv, hthird, hend, rfl⟩), rfl⟩, rfl⟩
      · have hmark : mark.toLower = 'e' :=
          (Char.toLower_eq_iff 'e' 'E' (by decide) (by decide) (by decide)).mpr hmark
        rw [List.map_cons, List.map_nil, hmark]
        rfl
      · rcases hsign with rfl | rfl | rfl
        · refine .inr (.inr ⟨rfl, ?_⟩)
          rw [hthird.rest_eq, List.cons_append, endsBefore_cons, Bool.or_eq_false_iff]
          constructor <;> refine beq_eq_false_iff_ne.mpr ?_ <;> rintro rfl <;> cases hc
        · exact .inl rfl
        · exact .inr (.inl rfl)

/-- It fails exactly where no exponent stands. -/
theorem exponentPart_none_iff : Parses exponentPart here none ↔
    ∀ v, IsExponent v → ¬ v <+: here.rest := by
  constructor
  · rintro h v ⟨mark, sign, digits, rfl, hmark, hsign, hne, hdigits⟩ ⟨rest, hrest⟩
    have hwhole : here.rest = mark :: sign ++ (digits ++ rest.takeWhile Char.isDigit) ++
        rest.dropWhile Char.isDigit := by
      rw [List.append_assoc, List.append_assoc, List.takeWhile_append_dropWhile, ← hrest,
        List.append_assoc]
    refine (exponentPart_some_iff.mpr ⟨_, .of_rest_eq hwhole, ⟨mark, sign, _, rfl, hmark, hsign,
      ?_, ?_⟩, endsBefore_dropWhile _ _, rfl⟩).not_none h
    · exact fun hnil => hne (List.append_eq_nil_iff.mp hnil).1
    · rw [List.all_append, hdigits, List.all_takeWhile]
      rfl
  · intro h
    refine Pattern.parses_none rfl fun stop ts hsome => ?_
    obtain ⟨u, hmove, hu, -, -⟩ := exponentPart_some_iff.mp hsome
    exact h u hu ⟨stop.rest, hmove.rest_eq.symm⟩

/-- The pattern of a float matches its lexemes. -/
theorem float_some_iff : Parses Rule.float.pattern here (some (stop, ts)) ↔
    ∃ u, here.Moves u stop ∧ Rule.float.Lexeme u stop.rest ∧ ts = [] := by
  have shape : Rule.float.pattern = tokenBody (tight [.plus digit, .token ".", .plus digit,
      .optional exponentPart]) := rfl
  rw [shape]
  simp only [tokenBody, tight, chain, counted_iff, seq_some_iff, digit, plus_char_some_iff,
    token_some_iff, Pattern.optional, opt_some_iff, exponentPart_some_iff,
    exponentPart_none_iff, Rule.Lexeme]
  constructor
  · rintro ⟨_, _, _, ⟨whole, hwne, hwhole, h₁, -, rfl⟩, ⟨_, _, _, ⟨h₂, rfl⟩, ⟨_, _, _,
      ⟨fraction, hfne, hfraction, h₃, hend, rfl⟩, hexponent, rfl⟩, rfl⟩, rfl⟩
    rcases hexponent with ⟨exponent, h₄, hexp, hstop, rfl⟩ | ⟨hnone, rfl, rfl⟩
    · refine ⟨_, h₁.trans (h₂.trans (h₃.trans h₄)), ⟨whole, fraction, exponent, ?_,
        ⟨hwne, hwhole⟩, ⟨hfne, hfraction⟩, hstop, .inl hexp⟩, rfl⟩
      simp only [List.append_assoc, List.cons_append]
      rfl
    · refine ⟨_, h₁.trans (h₂.trans h₃), ⟨whole, fraction, [], ?_, ⟨hwne, hwhole⟩,
        ⟨hfne, hfraction⟩, hend, .inr ⟨rfl, hnone⟩⟩, rfl⟩
      simp only [List.append_nil]
      rfl
  · rintro ⟨u, h, ⟨whole, fraction, exponent, rfl, hwhole, hfraction, hstop, hexponent⟩, rfl⟩
    obtain ⟨mid, h, h₄⟩ := Cursor.Moves.append_iff.mp h
    obtain ⟨mid₁, h₁, h⟩ := Cursor.Moves.append_iff.mp h
    obtain ⟨mid₂, h₂, h₃⟩ := Cursor.Moves.cons_iff.mp h
    have wholeEnds : EndsBefore Char.isDigit mid₁.rest := by
      rw [h₂.rest_eq]
      exact endsBefore_cons.mpr (by decide)
    have fractionEnds : EndsBefore Char.isDigit mid.rest := by
      rcases hexponent with ⟨mark, sign, digits, rfl, rfl | rfl, -⟩ | ⟨rfl, -⟩
      · rw [h₄.rest_eq]
        exact endsBefore_cons.mpr (by decide)
      · rw [h₄.rest_eq]
        exact endsBefore_cons.mpr (by decide)
      · rw [h₄.rest_eq]
        exact hstop
    refine ⟨mid₁, [], [], ⟨whole, hwhole.1, hwhole.2, h₁, wholeEnds, rfl⟩, ⟨mid₂, [], [],
      ⟨h₂, rfl⟩, ⟨mid, [], [], ⟨fraction, hfraction.1, hfraction.2, h₃, fractionEnds, rfl⟩, ?_,
      rfl⟩, rfl⟩, rfl⟩
    rcases hexponent with hexp | ⟨rfl, hnone⟩
    · exact .inl ⟨exponent, h₄, hexp, hstop, rfl⟩
    · obtain rfl := (Cursor.Moves.refl mid).stop_unique h₄
      exact .inr ⟨hnone, rfl, rfl⟩

/-- A based literal fails where another letter stands behind the first character. -/
theorem based_none (lower upper : Char) {isDigit : Char → Bool}
    (h : upper.toNat + 32 = lower.toNat) (hlow : 97 ≤ lower.toNat) (hhigh : lower.toNat ≤ 122)
    (hmark : ∀ mark, here.rest[1]? = some mark → mark ≠ lower ∧ mark ≠ upper) :
    Parses (.tight [.anyCase ['0', lower], .char isDigit, .star (.char isDigit)]) here none := by
  refine Pattern.parses_none rfl fun stop ts hsome => ?_
  obtain ⟨u, hmove, ⟨mark, digits, rfl, hletter, -⟩, -⟩ :=
    (based_some_iff lower upper h hlow hhigh).mp hsome
  obtain ⟨hne, hne'⟩ := hmark mark (by rw [hmove.rest_eq]; rfl)
  rcases hletter with rfl | rfl
  · exact hne rfl
  · exact hne' rfl

/-- Behind the first digit of a plain number stands a digit or nothing of a word. -/
theorem second_of_digits {u : List Char} {lower upper : Char} (h : here.Moves u stop)
    (hrun : IsRun Char.isDigit u) (hend : EndsBefore isWordChar stop.rest)
    (hlower : isWordChar lower = true ∧ lower.isDigit = false)
    (hupper : isWordChar upper = true ∧ upper.isDigit = false) :
    ∀ mark, here.rest[1]? = some mark → mark ≠ lower ∧ mark ≠ upper := by
  intro mark hmark
  have other {letter : Char} (hletter : isWordChar letter = true ∧ letter.isDigit = false) :
      mark ≠ letter := by
    rintro rfl
    obtain ⟨hne, hall⟩ := hrun
    match u, hne with
    | [d], _ =>
      rw [h.rest_eq] at hmark
      have := hend mark (by rw [← hmark]; simp [List.head?_eq_getElem?])
      rw [hletter.1] at this
      cases this
    | d :: e :: u, _ =>
      rw [h.rest_eq] at hmark
      obtain rfl : e = mark := by simpa using hmark
      simp [hletter.2] at hall
  exact ⟨other hlower, other hupper⟩

/-- Behind the zero of a number with a base stands the letter of that base and no other. -/
theorem second_of_based {u : List Char} {lower upper lower' upper' : Char}
    {isDigit : Char → Bool} (h : here.Moves u stop) (hu : IsBased lower upper isDigit u)
    (hlower : lower ≠ lower' ∧ lower ≠ upper') (hupper : upper ≠ lower' ∧ upper ≠ upper') :
    ∀ mark, here.rest[1]? = some mark → mark ≠ lower' ∧ mark ≠ upper' := by
  obtain ⟨letter, digits, rfl, hletter, -⟩ := hu
  intro mark hmark
  rw [h.rest_eq] at hmark
  obtain rfl : letter = mark := by simpa using hmark
  rcases hletter with rfl | rfl
  · exact hlower
  · exact hupper

/-- The pattern of an integer matches its lexemes: the letter behind the zero settles which base is
tried. -/
theorem integer_some_iff : Parses Rule.integer.pattern here (some (stop, ts)) ↔
    ∃ u, here.Moves u stop ∧ Rule.integer.Lexeme u stop.rest ∧ ts = [] := by
  have shape : Rule.integer.pattern = .counted (.counted (.seq
      (.choice (.tight [.anyCase ['0', 'x'], .char isHexDigit, .star (.char isHexDigit)])
        (.choice (.tight [.anyCase ['0', 'b'], .char isBinaryDigit, .star (.char isBinaryDigit)])
          (.choice (.tight [.anyCase ['0', 'o'], .char isOctalDigit, .star (.char isOctalDigit)])
            (.plus (.char Char.isDigit)))))
      .wordEnd)) := rfl
  rw [shape, counted_iff, counted_iff, seq_some_iff]
  simp only [wordEnd_some_iff]
  constructor
  · rintro ⟨mid, us, vs, h, ⟨hend, rfl, rfl⟩, rfl⟩
    rcases choice_some_iff.mp h with h | ⟨-, h⟩
    · obtain ⟨u, hmove, hu, -, rfl⟩ := (based_some_iff 'x' 'X' (by decide) (by decide) (by decide)).mp h
      exact ⟨u, hmove, ⟨hend, .inl hu⟩, rfl⟩
    rcases choice_some_iff.mp h with h | ⟨-, h⟩
    · obtain ⟨u, hmove, hu, -, rfl⟩ := (based_some_iff 'b' 'B' (by decide) (by decide) (by decide)).mp h
      exact ⟨u, hmove, ⟨hend, .inr (.inl hu)⟩, rfl⟩
    rcases choice_some_iff.mp h with h | ⟨-, h⟩
    · obtain ⟨u, hmove, hu, -, rfl⟩ := (based_some_iff 'o' 'O' (by decide) (by decide) (by decide)).mp h
      exact ⟨u, hmove, ⟨hend, .inr (.inr (.inl hu))⟩, rfl⟩
    · obtain ⟨u, hne, hu, hmove, -, rfl⟩ := plus_char_some_iff.mp h
      exact ⟨u, hmove, ⟨hend, .inr (.inr (.inr ⟨hne, hu⟩))⟩, rfl⟩
  · rintro ⟨u, hmove, ⟨hend, hu⟩, rfl⟩
    refine ⟨stop, [], [], ?_, ⟨hend, rfl, rfl⟩, rfl⟩
    have ends (isDigit : Char → Bool) (h : ∀ c, isDigit c = true → isWordChar c = true) :
        EndsBefore isDigit stop.rest := endsBefore_mono h hend
    rcases hu with hu | hu | hu | hu
    · exact .left ((based_some_iff 'x' 'X' (by decide) (by decide) (by decide)).mpr
        ⟨u, hmove, hu, ends _ fun _ => isWordChar_of_isHexDigit, rfl⟩)
    · exact .right (based_none 'x' 'X' (by decide) (by decide) (by decide)
        (second_of_based hmove hu (by decide) (by decide)))
        (.left ((based_some_iff 'b' 'B' (by decide) (by decide) (by decide)).mpr
          ⟨u, hmove, hu, ends _ fun _ => isWordChar_of_isBinaryDigit, rfl⟩))
    · exact .right (based_none 'x' 'X' (by decide) (by decide) (by decide)
        (second_of_based hmove hu (by decide) (by decide)))
        (.right (based_none 'b' 'B' (by decide) (by decide) (by decide)
          (second_of_based hmove hu (by decide) (by decide)))
          (.left ((based_some_iff 'o' 'O' (by decide) (by decide) (by decide)).mpr
            ⟨u, hmove, hu, ends _ fun _ => isWordChar_of_isOctalDigit, rfl⟩)))
    · have second (lower upper : Char)
          (hlower : isWordChar lower = true ∧ lower.isDigit = false)
          (hupper : isWordChar upper = true ∧ upper.isDigit = false) :=
        second_of_digits hmove hu hend hlower hupper
      exact .right (based_none 'x' 'X' (by decide) (by decide) (by decide)
        (second 'x' 'X' (by decide) (by decide)))
        (.right (based_none 'b' 'B' (by decide) (by decide) (by decide)
          (second 'b' 'B' (by decide) (by decide)))
          (.right (based_none 'o' 'O' (by decide) (by decide) (by decide)
            (second 'o' 'O' (by decide) (by decide)))
            (plus_char_some_iff.mpr
              ⟨u, hu.1, hu.2, hmove, ends _ fun _ => isWordChar_of_isDigit, rfl⟩)))

end Parses

end Vimscript
