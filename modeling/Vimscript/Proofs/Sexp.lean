import Vimscript.Proofs.Escaped

/-!
# Prefix forms are uniquely readable

A prefix form is a word, an escaped text between quotes, or a list of prefix forms between
parentheses with one blank between any two. Words have no blank, no line feed and no parenthesis
and do not begin with a quote, so the first character of a form tells which of the three it is, and
its text tells the form and where it ends.
-/

namespace Vimscript

open Text

/-- A prefix form. -/
inductive Sexp where
  | word (text : List Char)
  /-- A text that is written between quotes. -/
  | quoted (text : List Char)
  | nest (parts : List Sexp)

namespace Sexp

mutual

/-- The text of a prefix form. -/
def text : Sexp → List Char
  | word u => u
  | quoted u => Escaped.encode u
  | nest [] => ['(', ')']
  | nest (first :: rest) => '(' :: text first ++ textBehind rest ++ [')']

/-- The text of forms that stand behind another one. -/
def textBehind : List Sexp → List Char
  | [] => []
  | part :: rest => ' ' :: text part ++ textBehind rest

end

/-- A character inside a word. -/
def isPlain (c : Char) : Bool := !(c == ' ' || c == '\n' || c == '(' || c == ')')

/-- A text that can stand as a word. -/
def IsWord (u : List Char) : Prop := IsRun isPlain u ∧ u.head? ≠ some '"'

/-- A form all of whose words can stand as such. -/
inductive Proper : Sexp → Prop where
  | word {u : List Char} (h : IsWord u) : Proper (word u)
  | quoted (u : List Char) : Proper (quoted u)
  | nest {parts : List Sexp} (h : ∀ part ∈ parts, Proper part) : Proper (nest parts)

variable {a b : Sexp} {u v rest rest' : List Char} {parts parts' : List Sexp}

/-- A nest is written between parentheses, with a blank in front of every part but the first. -/
theorem text_nest (first : Sexp) (parts : List Sexp) : (nest (first :: parts)).text ++ rest =
    '(' :: (first.text ++ textBehind parts ++ ')' :: rest) := by
  simp [text]

/-- A word begins with a plain character other than a quote. -/
theorem IsWord.exists_cons (h : IsWord u) : ∃ c v, u = c :: v ∧ isPlain c = true ∧ c ≠ '"' := by
  obtain ⟨c, v, rfl⟩ := List.exists_cons_of_ne_nil h.1.1
  exact ⟨c, v, rfl, (Bool.and_eq_true_iff.mp (List.all_cons ▸ h.1.2)).1,
    fun hc => h.2 (congrArg some hc)⟩

/-- A word is no quoted text and no list. -/
theorem IsWord.append_ne (h : IsWord u) {c : Char} (hc : isPlain c = false ∨ c = '"') :
    u ++ rest ≠ c :: v := by
  obtain ⟨d, w, rfl, hplain, hquote⟩ := h.exists_cons
  intro heq
  obtain rfl : d = c := (List.cons.inj heq).1
  rcases hc with hc | rfl
  · rw [hplain] at hc
    cases hc
  · exact hquote rfl

/-- No form begins with what closes a list. -/
theorem Proper.append_ne (h : a.Proper) : a.text ++ rest ≠ ')' :: v := by
  cases h with
  | word h => exact h.append_ne (.inl (by decide))
  | quoted u => exact fun heq => absurd (List.cons.inj heq).1 (by decide)
  | @nest parts _ =>
    cases parts with
    | nil => exact fun heq => absurd (List.cons.inj heq).1 (by decide)
    | cons first parts =>
      rw [text_nest]
      exact fun heq => absurd (List.cons.inj heq).1 (by decide)

/-- The text of a list begins with what opens it. -/
theorem exists_text_nest (parts : List Sexp) : ∃ v, (nest parts).text = '(' :: v := by
  cases parts <;> exact ⟨_, rfl⟩

/-- Behind a form inside a list stands a blank or the end of the list. -/
theorem endsBefore_textBehind (parts : List Sexp) :
    EndsBefore isPlain (textBehind parts ++ ')' :: rest) := by
  cases parts <;> exact endsBefore_cons.mpr (by decide)

/-- What a form is read as does not depend on what stands behind it. -/
def Readable (a : Sexp) : Prop := ∀ ⦃b rest rest'⦄, b.Proper → EndsBefore isPlain rest →
  EndsBefore isPlain rest' → a.text ++ rest = b.text ++ rest' → a = b ∧ rest = rest'

/-- Forms behind another one are read one by one up to the end of the list. -/
theorem textBehind_unique (h : ∀ part ∈ parts, part.Readable)
    (hparts' : ∀ part ∈ parts', part.Proper)
    (heq : textBehind parts ++ ')' :: rest = textBehind parts' ++ ')' :: rest') :
    parts = parts' ∧ rest = rest' := by
  induction parts generalizing parts' with
  | nil =>
    cases parts' with
    | nil => exact ⟨rfl, (List.cons.inj heq).2⟩
    | cons part' more' => exact absurd (List.cons.inj heq).1 (by decide)
  | cons part more ih =>
    cases parts' with
    | nil => exact absurd (List.cons.inj heq).1 (by decide)
    | cons part' more' =>
      simp only [textBehind, List.cons_append, List.append_assoc, List.cons.injEq, true_and] at heq
      obtain ⟨rfl, htail⟩ := h part List.mem_cons_self (hparts' part' List.mem_cons_self)
        (endsBefore_textBehind more) (endsBefore_textBehind more') heq
      obtain ⟨rfl, rfl⟩ := ih (fun p hp => h p (.tail _ hp)) (fun p hp => hparts' p (.tail _ hp))
        htail
      exact ⟨rfl, rfl⟩

/-- A nest is readable if its parts are. -/
theorem readable_nest (h : ∀ part ∈ parts, part.Readable) (hparts : ∀ part ∈ parts, part.Proper) :
    (nest parts).Readable := by
  intro b rest rest' hb hrest hrest' heq
  cases hb with
  | word hword =>
    obtain ⟨v, hv⟩ := exists_text_nest parts
    rw [hv] at heq
    exact (hword.append_ne (.inl (by decide)) heq.symm).elim
  | quoted u =>
    obtain ⟨v, hv⟩ := exists_text_nest parts
    rw [hv] at heq
    exact absurd (List.cons.inj heq).1 (by decide)
  | @nest parts' hparts' =>
    cases parts with
    | nil =>
      cases parts' with
      | nil => exact ⟨rfl, List.append_cancel_left heq⟩
      | cons first' more' =>
        rw [text_nest, List.append_assoc] at heq
        exact ((hparts' first' List.mem_cons_self).append_ne (List.cons.inj heq).2.symm).elim
    | cons first more =>
      cases parts' with
      | nil =>
        rw [text_nest, List.append_assoc] at heq
        exact ((hparts first List.mem_cons_self).append_ne (List.cons.inj heq).2).elim
      | cons first' more' =>
        -- A blank in front makes the first member one like the others.
        rw [text_nest, text_nest] at heq
        have hbehind : textBehind (first :: more) ++ ')' :: rest =
            textBehind (first' :: more') ++ ')' :: rest' :=
          congrArg (' ' :: ·) (List.cons.inj heq).2
        obtain ⟨hsame, hrest⟩ := textBehind_unique h hparts' hbehind
        exact ⟨congrArg nest hsame, hrest⟩

/-- Proper forms are readable. -/
theorem Proper.readable (h : a.Proper) : a.Readable := by
  induction h with
  | word hword =>
    intro b rest rest' hb hrest hrest' heq
    cases hb with
    | word hword' =>
      obtain ⟨rfl, hrest⟩ := run_append_inj hword.1.2 hrest hword'.1.2 hrest' heq
      exact ⟨rfl, hrest⟩
    | quoted u => exact (hword.append_ne (.inr rfl) heq).elim
    | @nest parts _ =>
      obtain ⟨v, hv⟩ := exists_text_nest parts
      rw [hv] at heq
      exact (hword.append_ne (.inl (by decide)) heq).elim
  | quoted u =>
    intro b rest rest' hb hrest hrest' heq
    cases hb with
    | word hword => exact (hword.append_ne (.inr rfl) heq.symm).elim
    | quoted u' =>
      obtain ⟨rfl, hrest⟩ := Escaped.encode_append_inj heq
      exact ⟨rfl, hrest⟩
    | @nest parts _ =>
      obtain ⟨v, hv⟩ := exists_text_nest parts
      rw [hv] at heq
      exact absurd (List.cons.inj heq).1 (by decide)
  | nest hparts ih => exact readable_nest ih hparts

/-- The text of a form determines the form. -/
theorem Proper.eq_of_text (h : a.Proper) (h' : b.Proper) (heq : a.text = b.text) : a = b :=
  (h.readable h' (endsBefore_nil _) (endsBefore_nil _) (congrArg (· ++ []) heq)).1

end Sexp

end Vimscript
