import Mathlib.Data.Nat.Digits.Defs
import Mathlib.Tactic.Ring
import Vimscript.Proofs.Expr.Faults

/-!
# What integer literals stand for

An integer literal stands for a number whether or not the number fits: its digits are hexadecimal,
binary or octal behind the letter of their base, octal behind a bare zero if all of them are octal,
and decimal otherwise. Reading a text as an integer gives that number exactly where there is one
and it fits a signed word, and refuses the text otherwise. A text that the grammar takes for an
integer always stands for a number, so the only thing wrong with it can be its size.
-/

namespace Vimscript

open Text

namespace Numeral

variable {c : Char} {base d high n : Nat} {text digits : List Char}

/-- The digits of base sixteen in the order of their values, and with it those of smaller bases. -/
def allDigits : List Char :=
  ['0', '1', '2', '3', '4', '5', '6', '7', '8', '9', 'a', 'b', 'c', 'd', 'e', 'f']

/-- The value of a digit in either letter case; characters that are no digits have sixteen. -/
def digitOf (c : Char) : Nat := allDigits.idxOf c.toLower

/-- The number that digits stand for in a base, the last digit counting ones. -/
def worth (base : Nat) (digits : List Char) : Nat :=
  Nat.ofDigits base (digits.reverse.map digitOf)

/-- The numbers that integer literals stand for. -/
inductive Spells : List Char → Nat → Prop where
  | hexadecimal {mark : Char} {digits : List Char} (hmark : mark = 'x' ∨ mark = 'X')
    (hdigits : IsRun isHexDigit digits) : Spells ('0' :: mark :: digits) (worth 16 digits)
  | binary {mark : Char} {digits : List Char} (hmark : mark = 'b' ∨ mark = 'B')
    (hdigits : IsRun isBinaryDigit digits) : Spells ('0' :: mark :: digits) (worth 2 digits)
  | octal {mark : Char} {digits : List Char} (hmark : mark = 'o' ∨ mark = 'O')
    (hdigits : IsRun isOctalDigit digits) : Spells ('0' :: mark :: digits) (worth 8 digits)
  /-- Octal digits behind a bare zero. -/
  | bareOctal {digits : List Char} (hdigits : IsRun isOctalDigit digits) :
    Spells ('0' :: digits) (worth 8 digits)
  | decimal {digits : List Char} (hdigits : IsRun Char.isDigit digits)
    (otherwise : ¬ ∃ more, digits = '0' :: more ∧ IsRun isOctalDigit more) :
    Spells digits (worth 10 digits)

/-- What holds of the characters of ASCII one by one, and of all others together. -/
theorem forall_char {p : Char → Prop} (ascii : ∀ n < 128, p (Char.ofNat n))
    (beyond : ∀ c : Char, 128 ≤ c.toNat → p c) (c : Char) : p c := by
  by_cases h : c.toNat < 128
  · have := ascii c.toNat h
    rwa [Char.ofNat_toNat] at this
  · exact beyond c (by omega)

/-- Only ASCII characters are digits. -/
theorem digitOf_of_le (h : 128 ≤ c.toNat) : digitOf c = 16 := by
  refine List.idxOf_eq_length fun hmem => ?_
  have small : allDigits.all (fun d => d.toNat < 128) = true := by decide
  have hlower : c.toLower.toNat = c.toNat := by
    rw [Char.toNat_toLower, if_neg (by omega)]
  have := of_decide_eq_true (List.all_eq_true.mp small _ hmem)
  omega

/-- A character that has a value as a digit is one of ASCII. -/
theorem lt_of_digitValue? (h : digitValue? c = some d) : c.toNat < 128 := by
  unfold digitValue? at h
  split at h
  · have := isDigit_iff.mp ‹_›
    omega
  split at h
  · have := isLower_iff.mp ‹_›
    omega
  split at h
  · have := isUpper_iff.mp ‹_›
    omega
  · cases h

/-- Within ASCII, digits are read by their values, and their classes go by their values. -/
theorem ascii_digits : ∀ n < 128,
    ((digitValue? (Char.ofNat n)).filter (· < 16) =
      if digitOf (Char.ofNat n) < 16 then some (digitOf (Char.ofNat n)) else none) ∧
    isBinaryDigit (Char.ofNat n) = decide (digitOf (Char.ofNat n) < 2) ∧
    isOctalDigit (Char.ofNat n) = decide (digitOf (Char.ofNat n) < 8) ∧
    (Char.ofNat n).isDigit = decide (digitOf (Char.ofNat n) < 10) ∧
    isHexDigit (Char.ofNat n) = decide (digitOf (Char.ofNat n) < 16) := by
  decide +kernel

/-- Up to base sixteen a character has its value as a digit, or none. -/
theorem digitValue?_filter (c : Char) : (digitValue? c).filter (· < 16) =
    if digitOf c < 16 then some (digitOf c) else none := by
  refine forall_char (p := fun c => (digitValue? c).filter (· < 16) =
    if digitOf c < 16 then some (digitOf c) else none) (fun n hn => (ascii_digits n hn).1)
    (fun c h => ?_) c
  rw [digitOf_of_le h, if_neg (by decide), Option.filter_eq_none_iff]
  intro d hd
  have := lt_of_digitValue? hd
  omega

/-- A digit of a base is told by its value alone. -/
theorem digitValue?_iff (hbase : base ≤ 16) :
    digitValue? c = some d ∧ d < base ↔ digitOf c = d ∧ d < base := by
  have key := digitValue?_filter c
  constructor
  · rintro ⟨hvalue, hd⟩
    rw [hvalue, Option.filter_some, if_pos (decide_eq_true (by omega))] at key
    split at key
    · exact ⟨(Option.some.inj key).symm, hd⟩
    · cases key
  · rintro ⟨rfl, hd⟩
    rw [if_pos (by omega)] at key
    exact ⟨(Option.filter_eq_some_iff.mp key).1, hd⟩

/-- A class of characters of ASCII is that of the digits of a base if it is so within ASCII. -/
theorem digits_of_ascii {accepts : Char → Bool} (hbase : base ≤ 16)
    (ascii : ∀ n < 128, accepts (Char.ofNat n) = decide (digitOf (Char.ofNat n) < base))
    (within : ∀ c, accepts c = true → c.toNat < 128) (c : Char) :
    accepts c = decide (digitOf c < base) := by
  refine forall_char (p := fun c => accepts c = decide (digitOf c < base)) ascii
    (fun c h => ?_) c
  rw [digitOf_of_le h, decide_eq_false (by omega)]
  refine Bool.eq_false_iff.mpr fun haccepts => ?_
  have := within c haccepts
  omega

/-- Binary digits are those with a value below two. -/
theorem isBinaryDigit_eq : ∀ c, isBinaryDigit c = decide (digitOf c < 2) := by
  refine digits_of_ascii (by decide) (fun n hn => (ascii_digits n hn).2.1) fun c hc => ?_
  simp only [isBinaryDigit, Bool.or_eq_true, beq_iff_eq] at hc
  rcases hc with rfl | rfl <;> decide

/-- Octal digits are those with a value below eight. -/
theorem isOctalDigit_eq : ∀ c, isOctalDigit c = decide (digitOf c < 8) := by
  refine digits_of_ascii (by decide) (fun n hn => (ascii_digits n hn).2.2.1) fun c hc => ?_
  have := isOctalDigit_iff.mp hc
  omega

/-- Decimal digits are those with a value below ten. -/
theorem isDigit_eq : ∀ c : Char, c.isDigit = decide (digitOf c < 10) := by
  refine digits_of_ascii (by decide) (fun n hn => (ascii_digits n hn).2.2.2.1) fun c hc => ?_
  have := isDigit_iff.mp hc
  omega

/-- Hexadecimal digits are those with a value below sixteen. -/
theorem isHexDigit_eq : ∀ c, isHexDigit c = decide (digitOf c < 16) := by
  refine digits_of_ascii (by decide) (fun n hn => (ascii_digits n hn).2.2.2.2) fun c hc => ?_
  simp only [isHexDigit, Bool.or_eq_true, Bool.and_eq_true, decide_eq_true_eq] at hc
  rcases hc with (hc | ⟨-, hc⟩) | ⟨-, hc⟩
  · have := isDigit_iff.mp hc
    omega
  · exact Nat.lt_of_le_of_lt hc (by decide)
  · exact Nat.lt_of_le_of_lt hc (by decide)

/-- The first digit counts for the power of the base that the length of the rest gives. -/
theorem worth_cons (c : Char) (digits : List Char) :
    worth base (c :: digits) = worth base digits + base ^ digits.length * digitOf c := by
  rw [worth, worth, List.reverse_cons, List.map_append, List.map_singleton, Nat.ofDigits_append,
    Nat.ofDigits_singleton, List.length_map, List.length_reverse]

/-- Behind digits that are worth `high`, a run of digits counts by itself. -/
theorem valueFrom?_eq_some_iff (hbase : base ≤ 16) : valueFrom? base high digits = some n ↔
    (∀ c ∈ digits, digitOf c < base) ∧ n = high * base ^ digits.length + worth base digits := by
  induction digits generalizing high with
  | nil => simp [valueFrom?, worth, eq_comm]
  | cons c rest ih =>
    have step : valueFrom? base high (c :: rest) = some n ↔
        digitOf c < base ∧ valueFrom? base (high * base + digitOf c) rest = some n := by
      constructor
      · intro h
        rw [valueFrom?] at h
        split at h
        · rename_i d hvalue
          split at h
          · rename_i hlt
            obtain ⟨rfl, hlt⟩ := (digitValue?_iff hbase).mp ⟨hvalue, hlt⟩
            exact ⟨hlt, h⟩
          · cases h
        · cases h
      · rintro ⟨hlt, h⟩
        obtain ⟨hvalue, -⟩ := (digitValue?_iff hbase).mpr ⟨rfl, hlt⟩
        rw [valueFrom?, hvalue]
        exact (if_pos hlt).trans h
    have hsum : (high * base + digitOf c) * base ^ rest.length + worth base rest =
        high * base ^ (c :: rest).length + worth base (c :: rest) := by
      rw [worth_cons, List.length_cons, Nat.pow_succ]
      ring
    rw [step, ih, hsum, List.forall_mem_cons, and_assoc]

/-- Digits of a base have a value exactly if there are any, and it is what they are worth. -/
theorem value?_eq_some_iff {accepts : Char → Bool} (hbase : base ≤ 16)
    (haccepts : ∀ c, accepts c = decide (digitOf c < base)) :
    value? base digits = some n ↔ IsRun accepts digits ∧ n = worth base digits := by
  have hall : digits.all accepts = true ↔ ∀ c ∈ digits, digitOf c < base := by
    simp only [List.all_eq_true, haccepts, decide_eq_true_eq]
  rw [value?, IsRun, hall]
  split
  · simp [*]
  · rw [valueFrom?_eq_some_iff hbase, Nat.zero_mul, Nat.zero_add]
    simp [*]

/-- Behind a zero and another digit the base is eight or ten, as all the digits are octal or not. -/
theorem split_of_second {mark : Char} (hmark : mark.isDigit = true) (rest : List Char) :
    split ('0' :: mark :: rest) = if (mark :: rest).all isOctalDigit = true
      then (8, mark :: rest) else (10, '0' :: mark :: rest) := by
  have hletter (c : Char) (hc : c.isDigit = false) : mark ≠ c := by
    rintro rfl
    rw [hmark] at hc
    cases hc
  rw [split, if_neg (not_or.mpr ⟨hletter 'x' rfl, hletter 'X' rfl⟩),
    if_neg (not_or.mpr ⟨hletter 'b' rfl, hletter 'B' rfl⟩),
    if_neg (not_or.mpr ⟨hletter 'o' rfl, hletter 'O' rfl⟩)]

/-- A text that has a value as a literal stands for that number. -/
theorem spells_of_literalValue? (h : literalValue? text = some n) : Spells text n := by
  unfold literalValue? split at h
  split at h
  · rename_i mark rest
    by_cases hx : mark = 'x' ∨ mark = 'X'
    · rw [if_pos hx, value?_eq_some_iff (by decide) isHexDigit_eq] at h
      exact h.2 ▸ .hexadecimal hx h.1
    by_cases hb : mark = 'b' ∨ mark = 'B'
    · rw [if_neg hx, if_pos hb, value?_eq_some_iff (by decide) isBinaryDigit_eq] at h
      exact h.2 ▸ .binary hb h.1
    by_cases ho : mark = 'o' ∨ mark = 'O'
    · rw [if_neg hx, if_neg hb, if_pos ho, value?_eq_some_iff (by decide) isOctalDigit_eq] at h
      exact h.2 ▸ .octal ho h.1
    rw [if_neg hx, if_neg hb, if_neg ho] at h
    split at h
    · rw [value?_eq_some_iff (by decide) isOctalDigit_eq] at h
      exact h.2 ▸ .bareOctal h.1
    · rename_i hoctal
      rw [value?_eq_some_iff (by decide) isDigit_eq] at h
      refine h.2 ▸ .decimal h.1 ?_
      rintro ⟨more, heq, hmore⟩
      cases heq
      exact hoctal hmore.2
  · rename_i hshort
    rw [value?_eq_some_iff (by decide) isDigit_eq] at h
    refine h.2 ▸ .decimal h.1 ?_
    rintro ⟨more, rfl, hmore⟩
    obtain ⟨mark, rest, rfl⟩ := List.exists_cons_of_ne_nil hmore.1
    exact hshort mark rest rfl

/-- A text that stands for a number has it as its value. -/
theorem Spells.literalValue?_eq (h : Spells text n) : literalValue? text = some n := by
  cases h with
  | @hexadecimal mark digits hmark hdigits =>
    have hsplit : split ('0' :: mark :: digits) = (16, digits) := by
      rcases hmark with rfl | rfl <;> rfl
    rw [literalValue?, hsplit]
    exact (value?_eq_some_iff (by decide) isHexDigit_eq).mpr ⟨hdigits, rfl⟩
  | @binary mark digits hmark hdigits =>
    have hsplit : split ('0' :: mark :: digits) = (2, digits) := by
      rcases hmark with rfl | rfl <;> rfl
    rw [literalValue?, hsplit]
    exact (value?_eq_some_iff (by decide) isBinaryDigit_eq).mpr ⟨hdigits, rfl⟩
  | @octal mark digits hmark hdigits =>
    have hsplit : split ('0' :: mark :: digits) = (8, digits) := by
      rcases hmark with rfl | rfl <;> rfl
    rw [literalValue?, hsplit]
    exact (value?_eq_some_iff (by decide) isOctalDigit_eq).mpr ⟨hdigits, rfl⟩
  | bareOctal hdigits =>
    obtain ⟨mark, rest, rfl⟩ := List.exists_cons_of_ne_nil hdigits.1
    have hmark : mark.isDigit = true := by
      have := isOctalDigit_iff.mp (List.all_eq_true.mp hdigits.2 mark List.mem_cons_self)
      exact isDigit_iff.mpr ⟨this.1, by omega⟩
    rw [literalValue?, split_of_second hmark, if_pos hdigits.2]
    exact (value?_eq_some_iff (by decide) isOctalDigit_eq).mpr ⟨hdigits, rfl⟩
  | decimal hdigits otherwise =>
    have hsplit : split text = (10, text) := by
      unfold split
      split
      · rename_i mark rest
        have hmark : mark.isDigit = true :=
          List.all_eq_true.mp hdigits.2 mark (List.mem_cons_of_mem _ List.mem_cons_self)
        have hoctal : ¬ (mark :: rest).all isOctalDigit = true := fun h =>
          otherwise ⟨mark :: rest, rfl, List.cons_ne_nil _ _, h⟩
        exact (split_of_second hmark rest).trans (if_neg hoctal)
      · rfl
    rw [literalValue?, hsplit]
    exact (value?_eq_some_iff (by decide) isDigit_eq).mpr ⟨hdigits, rfl⟩

/-- A text stands for one number at most. -/
theorem Spells.unique {m : Nat} (h : Spells text n) (h' : Spells text m) : n = m :=
  Option.some.inj (h.literalValue?_eq.symm.trans h'.literalValue?_eq)

/-- Every integer token stands for a number. -/
theorem exists_spells {rest : List Char} (h : Rule.integer.Lexeme text rest) :
    ∃ n, Spells text n := by
  obtain ⟨-, h | h | h | hdigits⟩ := h
  · obtain ⟨mark, digits, rfl, hmark, hdigits⟩ := h
    exact ⟨_, .hexadecimal hmark hdigits⟩
  · obtain ⟨mark, digits, rfl, hmark, hdigits⟩ := h
    exact ⟨_, .binary hmark hdigits⟩
  · obtain ⟨mark, digits, rfl, hmark, hdigits⟩ := h
    exact ⟨_, .octal hmark hdigits⟩
  · by_cases hbare : ∃ more, text = '0' :: more ∧ IsRun isOctalDigit more
    · obtain ⟨more, rfl, hmore⟩ := hbare
      exact ⟨_, .bareOctal hmore⟩
    · exact ⟨_, .decimal hdigits hbare⟩

end Numeral

namespace Tree

open Numeral

variable {span : Span} {text : List Char} {n : Nat}

/-- A literal whose number fits is read as the word of that value. -/
theorem integer_of_spells (h : Spells text n) (hn : n < bound) :
    integer span text = .ok (.literal span (.int (Int64.ofNat n))) := by
  have hdecode : decode? text = some (Int64.ofNat n) := by
    rw [decode?_eq, h.literalValue?_eq]
    exact if_pos hn
  rw [integer, hdecode]

/-- A text is refused where it stands for no number that fits. -/
theorem integer_of_not_spells (h : ¬ ∃ n, Spells text n ∧ n < bound) :
    integer span text = .error (.invalidLiteral span .integer text) := by
  have hdecode : decode? text = none := by
    rw [decode?_eq, Option.bind_eq_none_iff]
    intro n hn
    exact if_neg fun hlt => h ⟨n, spells_of_literalValue? hn, hlt⟩
  rw [integer, hdecode]

/-- Reading a text as an integer gives a word exactly if the text stands for the number of that
word, and refuses the text with its span otherwise. What the grammar takes for an integer stands
for a number, so it is refused exactly if the number is too large. -/
theorem integer_exact (span : Span) (text : List Char) :
    (∀ value : Int64, integer span text = .ok (.literal span (.int value)) ↔
      ∃ n : Nat, Spells text n ∧ n ≤ 2 ^ 63 - 1 ∧ value.toInt = n) ∧
    ((¬ ∃ n, Spells text n ∧ n ≤ 2 ^ 63 - 1) →
      integer span text = .error (.invalidLiteral span .integer text)) ∧
    ∀ here stop ts, Parses (.rule .integer) here (some (stop, ts)) → here.Moves text stop →
      ∃ n, Spells text n ∧
        (integer span text = .error (.invalidLiteral span .integer text) ↔ 2 ^ 63 ≤ n) := by
  have hfits (n : Nat) : n ≤ 2 ^ 63 - 1 ↔ n < bound := by
    unfold bound
    omega
  have hrefused (h : ¬ ∃ n, Spells text n ∧ n ≤ 2 ^ 63 - 1) :
      integer span text = .error (.invalidLiteral span .integer text) :=
    integer_of_not_spells (by simpa only [hfits] using h)
  refine ⟨fun value => ⟨fun h => ?_, ?_⟩, hrefused, ?_⟩
  · by_contra hnone
    by_cases hspells : ∃ n, Spells text n ∧ n ≤ 2 ^ 63 - 1
    · obtain ⟨n, hn, hle⟩ := hspells
      rw [integer_of_spells hn ((hfits n).mp hle)] at h
      cases h
      exact hnone ⟨n, hn, hle, Int64.toInt_ofNat_of_lt (by omega)⟩
    · rw [hrefused hspells] at h
      cases h
  · rintro ⟨n, hn, hle, hvalue⟩
    have hword : Int64.ofNat n = value :=
      Int64.toInt_inj.mp ((Int64.toInt_ofNat_of_lt (by omega)).trans hvalue.symm)
    rw [integer_of_spells hn ((hfits n).mp hle), hword]
  · intro here stop ts hparses hmoves
    obtain ⟨u, hu, hlexeme, -⟩ := (Parses.token_iff rfl).mp hparses
    obtain rfl := hmoves.text_unique hu
    obtain ⟨n, hn⟩ := exists_spells hlexeme
    refine ⟨n, hn, ⟨fun h => ?_, fun hle => hrefused ?_⟩⟩
    · by_contra hlt
      rw [integer_of_spells hn ((hfits n).mp (by omega))] at h
      cases h
    · rintro ⟨m, hm, hle'⟩
      have := hm.unique hn
      omega

end Tree

end Vimscript
