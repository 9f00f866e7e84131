import Mathlib.Data.List.TakeWhile
import Vimscript.Proofs.Expr.Agreement
import Vimscript.Proofs.Grammar.Gap
import Vimscript.Proofs.Grammar.Ink

/-!
# Two texts that differ in their blanks

Two texts are compared piece by piece: a piece is a character that stands in both, or a run of
spaces and tabs in the one for such a run in the other. What asks only whether a blank stands
somewhere is the same for both texts, since a run is never empty.
-/

namespace Vimscript

open Text

namespace Text

variable {u v w : List Char}

/-- A part of a text that does not end in a blank does not end in one either. -/
theorem ink_of_append (h : w ++ v = [] ∨ EndsInk (w ++ v)) : v = [] ∨ EndsInk v := by
  rcases h with h | ⟨x, c, hx, hc⟩
  · exact .inl (List.append_eq_nil_iff.mp h).2
  · cases hv : v with
    | nil => exact .inl rfl
    | cons d y =>
      refine .inr ⟨(d :: y).dropLast, (d :: y).getLast (List.cons_ne_nil d y),
        (List.dropLast_concat_getLast _).symm, ?_⟩
      have hlast := congrArg List.getLast? hx
      rw [hv, List.getLast?_concat, List.getLast?_append_of_ne_nil _ (List.cons_ne_nil d y),
        List.getLast?_eq_getLast_of_ne_nil (List.cons_ne_nil d y)] at hlast
      rw [Option.some.inj hlast]
      exact hc

/-- What ends in ink is not empty. -/
theorem EndsInk.ne_nil (h : EndsInk u) : u ≠ [] := by
  obtain ⟨v, c, rfl, -⟩ := h
  simp

/-- Blanks at the end are trimmed. -/
theorem trimEnd_append (h : w.all isBlank = true) : trimEnd (u ++ w) = trimEnd u := by
  have hw : w.reverse.all isBlank = true := by rwa [List.all_reverse]
  rw [trimEnd, trimEnd, List.reverse_append,
    List.dropWhile_append_of_pos (List.all_eq_true.mp hw)]

/-- Blanks at the end of a text are trimmed. -/
theorem trim_append (h : w.all isSpace = true) : trim (u ++ w) = trim u := by
  have hw : w.all isBlank = true := all_of_all h fun _ => isBlank_of_isSpace
  rw [trim, trim]
  induction u with
  | nil =>
    have hnone : w.dropWhile isBlank = [] := List.dropWhile_eq_nil_iff.mpr (List.all_eq_true.mp hw)
    rw [List.nil_append, hnone, List.dropWhile_nil]
  | cons c u ih =>
    rw [List.cons_append, List.dropWhile_cons, List.dropWhile_cons]
    split
    · exact ih
    · rw [← List.cons_append]
      exact trimEnd_append hw

end Text

/-- The two texts that are compared. -/
inductive Side where
  | old
  | new

/-- One value for each text. -/
def Side.pick {α : Type} (old new : α) : Side → α
  | .old => old
  | .new => new

/-- A run of blanks in either text. -/
structure Blanks where
  chars : Side → List Char
  run : ∀ side, IsRun isSpace (chars side)

/-- A run of blanks for another. -/
def Blanks.between (old new : List Char) (h : IsRun isSpace old) (h' : IsRun isSpace new) : Blanks :=
  ⟨fun | .old => old | .new => new, fun | .old => h | .new => h'⟩

/-- A part of both texts. -/
inductive Piece where
  | char (c : Char)
  | gap (g : Blanks)

namespace Piece

/-- What a piece is in one of the texts. -/
def chars (side : Side) : Piece → List Char
  | char c => [c]
  | gap g => g.chars side

/-- What pieces one after the other are in one of the texts. -/
def spell (side : Side) (ps : List Piece) : List Char := ps.flatMap (chars side)

/-- Whether a piece belongs to a class of characters that takes spaces and tabs alike. -/
def isIn (accepts : Char → Bool) : Piece → Bool
  | char c => accepts c
  | gap _ => accepts ' '

/-- The piece of the two texts written backwards. -/
def backwards : Piece → Piece
  | char c => char c
  | gap g => gap ⟨fun side => (g.chars side).reverse, fun side =>
      ⟨List.reverse_eq_nil_iff.not.mpr (g.run side).1, by rw [List.all_reverse]; exact (g.run side).2⟩⟩

/-- Whether every gap among pieces from an offset on lies in front of a span or behind it. -/
def sparesFrom (start : Nat) (span : Span) : List Piece → Bool
  | [] => true
  | char c :: ps => sparesFrom (start + c.utf8Size) span ps
  | gap g :: ps =>
    (start + byteLength (g.chars .old) ≤ span.start || span.stop ≤ start) &&
      sparesFrom (start + byteLength (g.chars .old)) span ps

variable {side : Side} {p : Piece} {ps qs : List Piece} {accepts : Char → Bool}

/-- No pieces spell nothing. -/
@[simp] theorem spell_nil : spell side [] = [] := rfl

/-- The first piece is spelt first. -/
@[simp] theorem spell_cons : spell side (p :: ps) = p.chars side ++ spell side ps :=
  List.flatMap_cons

/-- Pieces are spelt one after the other. -/
@[simp] theorem spell_append : spell side (ps ++ qs) = spell side ps ++ spell side qs :=
  List.flatMap_append

/-- Characters that stay are spelt as they are. -/
@[simp] theorem spell_char (u : List Char) : spell side (u.map char) = u := by
  induction u with
  | nil => rfl
  | cons c u ih => rw [List.map_cons, spell_cons, ih]; rfl

/-- No piece is spelt as nothing. -/
theorem chars_ne_nil (p : Piece) (side : Side) : p.chars side ≠ [] := by
  cases p with
  | char c => exact List.cons_ne_nil c []
  | gap g => exact (g.run side).1

/-- Only no pieces spell nothing. -/
theorem spell_eq_nil_iff : spell side ps = [] ↔ ps = [] := by
  cases ps with
  | nil => simp
  | cons p ps => simp [p.chars_ne_nil side]

/-- Pieces take up bytes. -/
theorem byteLength_spell_pos (side : Side) (h : ps ≠ []) : 0 < byteLength (spell side ps) :=
  Nat.pos_of_ne_zero fun hzero => h (spell_eq_nil_iff.mp (byteLength_eq_zero_iff.mp hzero))

/-- A text backwards is spelt by the pieces backwards. -/
theorem spell_reverse : (spell side ps).reverse = spell side (ps.reverse.map backwards) := by
  induction ps with
  | nil => rfl
  | cons p ps ih =>
    rw [spell_cons, List.reverse_append, ih, List.reverse_cons, List.map_append, spell_append]
    congr 1
    cases p <;> simp [chars, backwards]

/-- A span spares pieces if it spares those in front and those behind. -/
theorem sparesFrom_append (start : Nat) (span : Span) (ps qs : List Piece) :
    sparesFrom start span (ps ++ qs) = (sparesFrom start span ps &&
      sparesFrom (start + byteLength (spell .old ps)) span qs) := by
  induction ps generalizing start with
  | nil => rfl
  | cons p ps ih =>
    rw [List.cons_append, spell_cons, byteLength_append, ← Nat.add_assoc]
    cases p with
    | char c => exact ih _
    | gap g => rw [sparesFrom, sparesFrom, ih, Bool.and_assoc]; rfl

/-- Where there are no gaps every span is spared. -/
theorem sparesFrom_char (start : Nat) (span : Span) (u : List Char) :
    sparesFrom start span (u.map char) = true := by
  induction u generalizing start with
  | nil => rfl
  | cons c u ih => exact ih _

/-- A class that takes spaces and tabs alike takes a piece in both texts or in neither. -/
theorem all_chars (haccepts : accepts ' ' = accepts '\t') :
    (p.chars side).all accepts = p.isIn accepts := by
  cases p with
  | char c => simp [chars, isIn]
  | gap g =>
    obtain ⟨hne, hrun⟩ := g.run side
    have hsame : ∀ c ∈ g.chars side, accepts c = accepts ' ' := fun c hc => by
      rcases Bool.or_eq_true_iff.mp (List.all_eq_true.mp hrun c hc) with h | h
      · rw [beq_iff_eq.mp h]
      · rw [beq_iff_eq.mp h, haccepts]
    obtain ⟨c, u, hu⟩ := List.exists_cons_of_ne_nil hne
    rw [chars, isIn, Bool.eq_iff_iff, List.all_eq_true]
    constructor
    · intro h
      exact hsame c (hu ▸ List.mem_cons_self) ▸ h c (hu ▸ List.mem_cons_self)
    · intro h d hd
      rw [hsame d hd, h]

/-- Blanks count alike, so a class that takes all kinds of blanks or none holds on both sides or on
neither. -/
theorem all_spell (haccepts : accepts ' ' = accepts '\t') :
    (spell side ps).all accepts = ps.all (isIn accepts) := by
  rw [spell, List.all_flatMap]
  exact congrArg ps.all (funext fun p => all_chars haccepts)

/-- A class with both blanks takes as many pieces from the front of either text. -/
theorem dropWhile_spell (haccepts : accepts ' ' = true ∧ accepts '\t' = true) :
    (spell side ps).dropWhile accepts = spell side (ps.dropWhile (isIn accepts)) := by
  induction ps with
  | nil => rfl
  | cons p ps ih =>
    have hall : (p.chars side).all accepts = p.isIn accepts :=
      all_chars (haccepts.1.trans haccepts.2.symm)
    rw [spell_cons, List.dropWhile_cons]
    cases hp : p.isIn accepts with
    | true =>
      rw [List.dropWhile_append_of_pos (List.all_eq_true.mp (hall.trans hp)), ih, if_pos rfl]
    | false =>
      cases p with
      | char c => simp [chars, show accepts c = false from hp]
      | gap g => exact absurd (haccepts.1.symm.trans hp) nofun

/-- A piece begins and ends in a class with both blanks where it lies in it. -/
theorem head_chars (haccepts : accepts ' ' = true ∧ accepts '\t' = true) :
    (p.chars side).head?.any accepts = p.isIn accepts := by
  cases p with
  | char c => rfl
  | gap g =>
    obtain ⟨c, u, hu⟩ := List.exists_cons_of_ne_nil (g.run side).1
    have hall : ((gap g).chars side).all accepts = (gap g).isIn accepts :=
      all_chars (haccepts.1.trans haccepts.2.symm)
    have hin : isIn accepts (gap g) = true := haccepts.1
    rw [hin, show (gap g).chars side = c :: u from hu] at hall
    rw [hin, show (gap g).chars side = c :: u from hu]
    exact (Bool.and_eq_true_iff.mp (List.all_cons ▸ hall)).1

/-- Both texts end in a blank or neither does. -/
theorem endsBlank_spell : Tree.endsBlank (spell side ps) = ps.getLast?.any (isIn isBlank) := by
  rw [Tree.endsBlank, ← List.head?_reverse, spell_reverse, ← List.head?_reverse]
  cases ps.reverse with
  | nil => rfl
  | cons p qs =>
    rw [List.map_cons, spell_cons, List.head?_append_of_ne_nil _ (chars_ne_nil _ _),
      head_chars (by decide)]
    cases p <;> rfl

/-- Trimmed texts consist of pieces again. -/
theorem trim_spell : ∃ qs, ∀ side, trim (spell side ps) = spell side qs := by
  refine ⟨((((ps.dropWhile (isIn isBlank)).reverse.map backwards).dropWhile
    (isIn isBlank)).reverse.map backwards), fun side => ?_⟩
  rw [trim, trimEnd, dropWhile_spell (by decide), spell_reverse, dropWhile_spell (by decide),
    spell_reverse]

/-- Pieces of a class without blanks are characters. -/
theorem spell_of_all (haccepts : accepts ' ' = false) (h : ps.all (isIn accepts) = true) :
    spell .old ps = spell .new ps := by
  induction ps with
  | nil => rfl
  | cons p ps ih =>
    obtain ⟨hp, hps⟩ := Bool.and_eq_true_iff.mp (List.all_cons ▸ h)
    rw [spell_cons, spell_cons, ih hps]
    cases p with
    | char c => rfl
    | gap g => exact absurd (haccepts.symm.trans hp) nofun

/-- The two texts are one key or neither of them is a key. -/
theorem key?_spell : key? (spell .old ps) = key? (spell .new ps) := by
  have hkey (side : Side) :
      isLiteralKey (spell side ps) = (!ps.isEmpty && ps.all (isIn isKeyChar)) := by
    rw [isLiteralKey, all_spell (by decide)]
    congr 2
    rw [Bool.eq_iff_iff, List.isEmpty_iff, List.isEmpty_iff, spell_eq_nil_iff]
  rw [key?, key?, hkey, hkey]
  split
  · next h => rw [spell_of_all (by decide) (Bool.and_eq_true_iff.mp h).2]
  · rfl

/-- So it is with the trimmed texts. -/
theorem key?_trim_spell : key? (trim (spell .old ps)) = key? (trim (spell .new ps)) := by
  obtain ⟨qs, hqs⟩ : ∃ qs, ∀ side, trim (spell side ps) = spell side qs := trim_spell
  rw [hqs, hqs, key?_spell]

/-- A text without blanks, or one that no gap meets, has the same characters in both texts. -/
theorem exists_chars {u tail rest : List Char} {start from' : Nat} (hu : u = [] ∨ EndsInk u)
    (htail : tail.all isSpace = true ∨ byteLength u ≤ byteLength (spell .old ps))
    (h : spell .old ps ++ tail = u ++ rest) (hfrom : from' ≤ start)
    (hgap : u.all (fun c => !isSpace c) = true ∨
      sparesFrom start ⟨from', start + byteLength u⟩ ps = true) : ∃ qs, ps = u.map char ++ qs := by
  induction u generalizing ps start with
  | nil => exact ⟨ps, rfl⟩
  | cons c u ih =>
    cases ps with
    | nil =>
      have hpos := c.utf8Size_pos
      rw [spell_nil, byteLength_nil, byteLength_cons] at htail
      have htail := htail.resolve_right (by omega)
      obtain ⟨v, d, hv, hd⟩ := hu.resolve_left nofun
      have hlast : d ∈ tail := by
        rw [show tail = c :: u ++ rest from h, hv]
        simp
      rw [List.all_eq_true.mp htail d hlast] at hd
      cases hd
    | cons p ps =>
      cases p with
      | char d =>
        have hcons : d :: (spell .old ps ++ tail) = c :: (u ++ rest) := h
        obtain ⟨rfl, hrest⟩ := List.cons.inj hcons
        rw [byteLength_cons, ← Nat.add_assoc] at hgap
        have htail : tail.all isSpace = true ∨ byteLength u ≤ byteLength (spell .old ps) :=
          htail.imp_right fun hle => by
            rw [spell_cons, show (char d).chars .old = [d] from rfl, List.singleton_append,
              byteLength_cons, byteLength_cons] at hle
            omega
        obtain ⟨qs, rfl⟩ := ih (ink_of_append (w := [d]) (.inr (hu.resolve_left nofun))) htail hrest
          (hfrom.trans (Nat.le_add_right _ _))
          (hgap.imp_left fun hall => (Bool.and_eq_true_iff.mp (List.all_cons ▸ hall)).2)
        exact ⟨qs, rfl⟩
      | gap g =>
        exfalso
        obtain ⟨d, x, hx⟩ := List.exists_cons_of_ne_nil (g.run .old).1
        rcases hgap with hall | hspares
        · rw [spell_cons, show (gap g).chars .old = d :: x from hx] at h
          obtain ⟨rfl, -⟩ := List.cons.inj h
          have hspace := List.all_eq_true.mp (g.run .old).2 d (hx ▸ List.mem_cons_self)
          have hink := List.all_eq_true.mp hall d List.mem_cons_self
          rw [hspace] at hink
          cases hink
        · have hspares := (Bool.and_eq_true_iff.mp hspares).1
          have hpos := c.utf8Size_pos
          have hpos' := d.utf8Size_pos
          rw [hx, byteLength_cons, byteLength_cons, Bool.or_eq_true, decide_eq_true_iff,
            decide_eq_true_iff] at hspares
          dsimp only at hspares
          omega

/-- In front of the first blank the two texts have the same characters. -/
theorem exists_word (ps : List Piece) : ∃ (u : List Char) (qs : List Piece),
    ps = u.map char ++ qs ∧ ∀ side, qs = [] ∨ ∃ c v, spell side qs = c :: v ∧ isSpace c = true := by
  induction ps with
  | nil => exact ⟨[], [], rfl, fun _ => .inl rfl⟩
  | cons p ps ih =>
    cases p with
    | char c =>
      cases hc : isSpace c with
      | false =>
        obtain ⟨u, qs, rfl, hqs⟩ := ih
        exact ⟨c :: u, qs, rfl, hqs⟩
      | true => exact ⟨[], char c :: ps, rfl, fun _ => .inr ⟨c, _, rfl, hc⟩⟩
    | gap g =>
      refine ⟨[], gap g :: ps, rfl, fun side => .inr ?_⟩
      obtain ⟨c, v, hv⟩ := List.exists_cons_of_ne_nil (g.run side).1
      refine ⟨c, v ++ spell side ps, ?_, ?_⟩
      · rw [spell_cons, show (gap g).chars side = c :: v from hv, List.cons_append]
      · exact List.all_eq_true.mp (g.run side).2 c (hv ▸ List.mem_cons_self)

/-- How much of a text is left tells the place in it. -/
theorem byteLength_spell_inj (side : Side) {whole : List Piece} (hps : ps <:+ whole) (hqs : qs <:+ whole) :
    byteLength (spell side ps) = byteLength (spell side qs) ↔ ps = qs := by
  refine ⟨fun h => ?_, fun h => by rw [h]⟩
  have of_suffix {ps qs : List Piece} (hsuffix : ps <:+ qs)
      (h : byteLength (spell side ps) = byteLength (spell side qs)) : ps = qs := by
    obtain ⟨more, rfl⟩ := hsuffix
    rw [spell_append, byteLength_append] at h
    have hmore : byteLength (spell side more) = 0 := by omega
    rw [spell_eq_nil_iff.mp (byteLength_eq_zero_iff.mp hmore), List.nil_append]
  rcases List.suffix_or_suffix_of_suffix hps hqs with hsuffix | hsuffix
  · exact of_suffix hsuffix h
  · exact (of_suffix hsuffix h.symm).symm

end Piece

end Vimscript
