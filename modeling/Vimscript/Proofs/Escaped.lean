import Vimscript.Proofs.Expr.Integers
import Vimscript.Text.Escaped

/-!
# Escaped texts read back

What stands for a character between quotes tells the character and where it ends: a letter behind
a backslash, the digits of a code point up to the brace behind them, or the character itself. So a
text and what stands behind it are told apart by the quote that is not part of an escape, and an
escaped text is always within one line.
-/

namespace Vimscript.Text.Escaped

open Numeral

variable {c : Char} {rest text : List Char}

/-- The digits of a number, from which the number is read back. -/
theorem toDigits_spec (n : Nat) :
    worth 16 (Nat.toDigits 16 n) = n ∧ (Nat.toDigits 16 n).all isHexDigit = true := by
  have single : ∀ d < 16, digitOf d.digitChar = d ∧ isHexDigit d.digitChar = true := by decide
  induction n using Nat.strongRecOn with
  | ind n ih =>
    by_cases hsmall : n < 16
    · obtain ⟨hvalue, hdigit⟩ := single n hsmall
      rw [Nat.toDigits_of_lt_base hsmall]
      exact ⟨by simp [worth, hvalue], by simp [hdigit]⟩
    · obtain ⟨hvalue, hdigits⟩ := ih (n / 16) (by omega)
      obtain ⟨hlast, hdigit⟩ := single (n % 16) (Nat.mod_lt _ (by decide))
      rw [Nat.toDigits_of_base_le (by decide) (by omega)]
      refine ⟨?_, by simp [hdigits, hdigit]⟩
      have hsum : worth 16 (Nat.toDigits 16 (n / 16) ++ [(n % 16).digitChar]) =
          n % 16 + 16 * worth 16 (Nat.toDigits 16 (n / 16)) := by
        simp [worth, Nat.ofDigits_cons, hlast]
      rw [hsum, hvalue]
      omega

/-- The character that an escape stands for, and what stands behind the escape. -/
def unescape? : List Char → Option (Char × List Char)
  | '\\' :: '0' :: rest => some ('\x00', rest)
  | '\\' :: 't' :: rest => some ('\t', rest)
  | '\\' :: 'r' :: rest => some ('\r', rest)
  | '\\' :: 'n' :: rest => some ('\n', rest)
  | '\\' :: 'u' :: _ :: rest =>
    some (Char.ofNat (worth 16 (rest.takeWhile isHexDigit)), (rest.dropWhile isHexDigit).tail)
  | '\\' :: c :: rest | c :: rest => some (c, rest)
  | [] => none

/-- A code point is read back from its hexadecimal digits in braces, whatever stands behind it. -/
theorem unescape?_codePoint (c : Char) (rest : List Char) :
    unescape? (codePoint c ++ rest) = some (c, rest) := by
  obtain ⟨hvalue, hdigits⟩ := toDigits_spec c.toNat
  have hends : EndsBefore isHexDigit ('\x7d' :: rest) := endsBefore_cons.mpr (by decide)
  have htext : codePoint c ++ rest =
      '\\' :: 'u' :: '\x7b' :: (Nat.toDigits 16 c.toNat ++ '\x7d' :: rest) := by simp [codePoint]
  rw [htext, unescape?, takeWhile_append hdigits hends, dropWhile_append hdigits hends, hvalue,
    Char.ofNat_toNat, List.tail_cons]

/-- An escape tells its character and where it ends. -/
theorem unescape?_escape (c : Char) (rest : List Char) :
    unescape? (escape c ++ rest) = some (c, rest) := by
  unfold escape
  split <;> try rfl
  rename_i hplain
  split
  · unfold unescape?
    split <;> simp_all
  · exact unescape?_codePoint c rest

/-- An escape is not empty and does not begin with a quote. -/
theorem exists_escape (c : Char) : ∃ d more, escape c = d :: more ∧ d ≠ '"' := by
  unfold escape
  split <;> try exact ⟨_, _, rfl, by decide⟩
  split
  · exact ⟨_, _, rfl, ‹_›⟩
  · exact ⟨'\\', _, rfl, by decide⟩

/-- No escape has a line feed. -/
theorem newline_not_mem_escape (c : Char) : '\n' ∉ escape c := by
  unfold escape
  split <;> try decide
  split
  · rw [List.mem_singleton]
    rintro rfl
    contradiction
  · intro hmem
    simp only [codePoint, List.mem_append] at hmem
    rcases hmem with (hmem | hmem) | hmem
    · exact absurd hmem (by decide)
    · exact absurd (List.all_eq_true.mp (toDigits_spec _).2 _ hmem) (by decide)
    · exact absurd hmem (by decide)

/-- Two escaped texts, each in front of something, are one text only if both parts are. -/
theorem encode_append_inj {text' rest' : List Char}
    (h : encode text ++ rest = encode text' ++ rest') : text = text' ∧ rest = rest' := by
  simp only [encode, List.cons_append, List.append_assoc, List.nil_append] at h
  replace h := List.tail_eq_of_cons_eq h
  have hquote (c : Char) (more rest : List Char) : '"' :: rest ≠ escape c ++ more := by
    obtain ⟨d, tail, hescape, hd⟩ := exists_escape c
    rw [hescape]
    exact fun h => hd (List.cons.inj h).1.symm
  induction text generalizing text' with
  | nil =>
    cases text' with
    | nil => exact ⟨rfl, List.tail_eq_of_cons_eq h⟩
    | cons c' more' =>
      rw [List.flatMap_cons, List.append_assoc] at h
      exact (hquote _ _ _ h).elim
  | cons c more ih =>
    cases text' with
    | nil =>
      rw [List.flatMap_cons, List.append_assoc] at h
      exact (hquote _ _ _ h.symm).elim
    | cons c' more' =>
      rw [List.flatMap_cons, List.flatMap_cons, List.append_assoc, List.append_assoc] at h
      have hread := unescape?_escape c (more.flatMap escape ++ '"' :: rest)
      rw [h, unescape?_escape] at hread
      obtain ⟨rfl, hmore⟩ := Prod.mk.inj (Option.some.inj hread)
      obtain ⟨rfl, rfl⟩ := ih hmore.symm
      exact ⟨rfl, rfl⟩

/-- A text in escaped form has no line feed, since line feeds are escaped. -/
theorem newline_not_mem_encode (text : List Char) : '\n' ∉ encode text := by
  intro hmem
  simp only [encode, List.cons_append, List.mem_cons, List.mem_append, List.mem_flatMap,
    List.not_mem_nil, or_false] at hmem
  rcases hmem with hmem | ⟨c, -, hmem⟩ | hmem
  · exact absurd hmem (by decide)
  · exact newline_not_mem_escape c hmem
  · exact absurd hmem (by decide)

end Vimscript.Text.Escaped
