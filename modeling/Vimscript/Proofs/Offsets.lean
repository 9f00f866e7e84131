import Mathlib.Data.List.Basic
import Vimscript.Proofs.Grammar.Cursor
import Vimscript.Proofs.Grammar.Ink
import Vimscript.Span

/-!
# Offsets in a text

An offset is a boundary of a text if it falls between two characters of it or at one of its ends.
What stands between two offsets is fixed by them. A span is tight if what stands under it neither
begins nor ends in a blank; spans that are joined stay tight.
-/

namespace Vimscript

namespace Text

variable {source x y x' y' u v : List Char} {k m n : Nat}

/-- Two ways to cut a text compare by the bytes in front of the cut. -/
theorem exists_append_of_le (h : x ++ y = x' ++ y') (hle : byteLength x ≤ byteLength x') :
    ∃ z, x' = x ++ z ∧ y = z ++ y' := by
  induction x generalizing x' with
  | nil => exact ⟨x', rfl, h⟩
  | cons c x ih =>
    cases x' with
    | nil =>
      have := c.utf8Size_pos
      rw [byteLength_cons, byteLength_nil] at hle
      omega
    | cons d x' =>
      obtain ⟨rfl, htail⟩ := List.cons.inj h
      rw [byteLength_cons, byteLength_cons] at hle
      obtain ⟨z, rfl, hy⟩ := ih htail (by omega)
      exact ⟨z, rfl, hy⟩

/-- An offset between two characters of a text or at one of its ends. -/
def Boundary (source : List Char) (n : Nat) : Prop := ∃ x y, source = x ++ y ∧ n = byteLength x

/-- A text stands between two offsets of another. -/
def Between (source : List Char) (m n : Nat) (u : List Char) : Prop :=
  ∃ x y, source = x ++ (u ++ y) ∧ m = byteLength x ∧ n = byteLength x + byteLength u

/-- What stands between two offsets does not end before it begins. -/
theorem Between.le (h : Between source m n u) : m ≤ n := by
  obtain ⟨x, y, -, rfl, rfl⟩ := h
  exact Nat.le_add_right _ _

/-- Both of its ends lie between characters. -/
theorem Between.boundary (h : Between source m n u) : Boundary source m ∧ Boundary source n := by
  obtain ⟨x, y, rfl, rfl, rfl⟩ := h
  exact ⟨⟨x, u ++ y, rfl, rfl⟩, x ++ u, y, (List.append_assoc x u y).symm,
    (byteLength_append x u).symm⟩

/-- Texts between offsets follow one another. -/
theorem Between.trans (h : Between source k m u) (h' : Between source m n v) :
    Between source k n (u ++ v) := by
  obtain ⟨x, y, rfl, rfl, rfl⟩ := h
  obtain ⟨x', y', hsource, hm, rfl⟩ := h'
  rw [← byteLength_append] at hm
  rw [← List.append_assoc] at hsource
  obtain ⟨z, rfl, rfl⟩ := exists_append_of_le hsource (by omega)
  obtain rfl : z = [] := byteLength_eq_zero_iff.mp <| by
    simp only [byteLength_append] at hm
    omega
  rw [List.append_nil]
  exact ⟨x, y', by simp only [List.nil_append, List.append_assoc], rfl, by
    simp only [byteLength_append]
    omega⟩

/-- What stands between the two ends of a text is all of it. -/
theorem Between.eq_source (h : Between source 0 (byteLength source) u) : source = u := by
  obtain ⟨x, y, hsource, hstart, hstop⟩ := h
  rw [hsource, byteLength_append, byteLength_append] at hstop
  obtain rfl : x = [] := byteLength_eq_zero_iff.mp hstart.symm
  obtain rfl : y = [] := byteLength_eq_zero_iff.mp (by omega)
  rw [hsource, List.nil_append, List.append_nil]

/-- Of two texts from one offset on, the one that stops first is the beginning of the other. -/
theorem Between.exists_append {n' : Nat} (h : Between source m n u) (h' : Between source m n' v)
    (hle : n ≤ n') : ∃ w, v = u ++ w ∧ Between source n n' w := by
  obtain ⟨x, y, rfl, rfl, rfl⟩ := h
  obtain ⟨x', y', hsource, hm, rfl⟩ := h'
  obtain ⟨z, rfl, hrest⟩ := exists_append_of_le hsource (Nat.le_of_eq hm)
  obtain rfl : z = [] := byteLength_eq_zero_iff.mp <| by
    rw [byteLength_append] at hm
    omega
  rw [List.append_nil] at hle ⊢
  rw [List.nil_append] at hrest
  obtain ⟨w, rfl, rfl⟩ := exists_append_of_le hrest (by omega)
  exact ⟨w, rfl, x ++ u, y', by simp only [List.append_assoc],
    (byteLength_append x u).symm, by simp only [byteLength_append]; omega⟩

/-- What stands between two offsets is one text. -/
theorem Between.text_unique (h : Between source m n u) (h' : Between source m n v) : u = v := by
  obtain ⟨w, rfl, x, y, -, rfl, hw⟩ := h.exists_append h' (Nat.le_refl n)
  rw [byteLength_eq_zero_iff.mp (by omega : byteLength w = 0), List.append_nil]

/-- A text that stops at an offset starts at one offset only. -/
theorem Between.start_unique (h : Between source k n u) (h' : Between source m n u) : k = m := by
  obtain ⟨x, y, -, rfl, rfl⟩ := h
  obtain ⟨x', y', -, rfl, hstop⟩ := h'
  omega

/-- Between two such offsets stands some text. -/
theorem Boundary.between (h : Boundary source m) (h' : Boundary source n) (hle : m ≤ n) :
    ∃ u, Between source m n u := by
  obtain ⟨x, y, rfl, rfl⟩ := h
  obtain ⟨x', y', hsource, rfl⟩ := h'
  obtain ⟨u, rfl, rfl⟩ := exists_append_of_le hsource hle
  exact ⟨u, x, y', rfl, rfl, byteLength_append x u⟩

/-- The start of a source is one of them. -/
theorem boundary_zero (source : List Char) : Boundary source 0 := ⟨[], source, rfl, rfl⟩

/-- So is its end. -/
theorem boundary_byteLength (source : List Char) : Boundary source (byteLength source) :=
  ⟨source, [], (List.append_nil source).symm, rfl⟩

/-- None lies behind the end. -/
theorem Boundary.le_byteLength (h : Boundary source n) : n ≤ byteLength source := by
  obtain ⟨x, y, rfl, rfl⟩ := h
  rw [byteLength_append]
  exact Nat.le_add_right _ _

/-- Nothing but blanks stands between two offsets. -/
def Gap (source : List Char) (m n : Nat) : Prop :=
  ∃ b, Between source m n b ∧ b.all isSpace = true

/-- Nothing stands between such an offset and itself, so no text parts them. -/
theorem Boundary.gap (h : Boundary source n) : Gap source n n := by
  obtain ⟨x, y, rfl, rfl⟩ := h
  exact ⟨[], ⟨x, y, rfl, rfl, rfl⟩, rfl⟩

/-- A gap does not end before it begins. -/
theorem Gap.le (h : Gap source m n) : m ≤ n := by
  obtain ⟨b, hb, -⟩ := h
  exact hb.le

/-- Both ends of a gap lie between characters. -/
theorem Gap.boundary (h : Gap source m n) : Boundary source m ∧ Boundary source n := by
  obtain ⟨b, hb, -⟩ := h
  exact hb.boundary

/-- Gaps follow one another. -/
theorem Gap.trans (h : Gap source k m) (h' : Gap source m n) : Gap source k n := by
  obtain ⟨b, hb, hblank⟩ := h
  obtain ⟨b', hb', hblank'⟩ := h'
  exact ⟨b ++ b', hb.trans hb', by rw [List.all_append, hblank, hblank', Bool.and_self]⟩

/-- A text that begins with no blank. -/
def BeginsInk (u : List Char) : Prop := ∃ c v, u = c :: v ∧ isSpace c = false

/-- A text between offsets that begins and one that ends without a blank make a longer one that
does both. -/
theorem Between.extend {m' n' : Nat} (h : Between source m n u) (hu : BeginsInk u)
    (h' : Between source m' n' v) (hv : EndsInk v) (hlt : m < n') :
    ∃ w, Between source m n' w ∧ BeginsInk w ∧ EndsInk w := by
  obtain ⟨x, y, rfl, rfl, rfl⟩ := h
  obtain ⟨x', y', hsource, rfl, rfl⟩ := h'
  obtain ⟨c, u, rfl, hc⟩ := hu
  obtain ⟨v, d, rfl, hd⟩ := hv
  rw [← List.append_assoc x'] at hsource
  rw [← byteLength_append] at hlt ⊢
  obtain ⟨w, hends, hbegins⟩ := exists_append_of_le hsource (Nat.le_of_lt hlt)
  have hne : w ≠ [] := by
    rintro rfl
    rw [List.append_nil] at hends
    rw [hends] at hlt
    exact Nat.lt_irrefl _ hlt
  refine ⟨w, ⟨x, y', by rw [hbegins], rfl, by rw [hends, byteLength_append]⟩, ?_, ?_⟩
  · obtain ⟨c', w, rfl⟩ := List.exists_cons_of_ne_nil hne
    obtain ⟨rfl, -⟩ := List.cons.inj hbegins
    exact ⟨c, w, rfl, hc⟩
  · have hlast := congrArg List.getLast? hends
    rw [← List.append_assoc, List.getLast?_concat, List.getLast?_append_of_ne_nil x hne] at hlast
    obtain ⟨w, rfl⟩ := List.getLast?_eq_some_iff.mp hlast.symm
    exact ⟨w, d, rfl, hd⟩

end Text

open Text

namespace Span

/-- A span that lies in another. -/
def Inside (inner outer : Span) : Prop := outer.start ≤ inner.start ∧ inner.stop ≤ outer.stop

/-- A span over a text that neither begins nor ends in a blank. -/
def Tight (source : List Char) (span : Span) : Prop :=
  ∃ u, Between source span.start span.stop u ∧ BeginsInk u ∧ EndsInk u

variable {source : List Char} {a b c : Span}

/-- A span lies inside itself. -/
theorem Inside.refl (a : Span) : a.Inside a := ⟨Nat.le_refl _, Nat.le_refl _⟩

/-- What lies inside a span lies inside a wider one. -/
theorem Inside.trans (h : a.Inside b) (h' : b.Inside c) : a.Inside c :=
  ⟨Nat.le_trans h'.1 h.1, Nat.le_trans h.2 h'.2⟩

/-- A span lies inside what it is joined to. -/
theorem inside_merge_left (a b : Span) : a.Inside (a.merge b) :=
  ⟨Nat.min_le_left _ _, Nat.le_max_left _ _⟩

/-- So does the other one. -/
theorem inside_merge_right (a b : Span) : b.Inside (a.merge b) :=
  ⟨Nat.min_le_right _ _, Nat.le_max_right _ _⟩

/-- What is joined to a span is joined to any span around it. -/
theorem inside_merge (h : a.Inside b) : (a.merge c).Inside (b.merge c) := by
  obtain ⟨hstart, hstop⟩ := h
  constructor <;> dsimp only [merge] <;> omega

/-- A tight span is not empty. -/
theorem Tight.lt (h : a.Tight source) : a.start < a.stop := by
  obtain ⟨u, ⟨x, y, -, hstart, hstop⟩, ⟨c, v, rfl, -⟩, -⟩ := h
  have := c.utf8Size_pos
  rw [byteLength_cons] at hstop
  omega

/-- Both ends of a tight span lie between characters. -/
theorem Tight.boundary (h : a.Tight source) :
    Boundary source a.start ∧ Boundary source a.stop := by
  obtain ⟨u, hu, -⟩ := h
  exact hu.boundary

/-- Joined spans stay tight: each end is an end of one of them. -/
theorem Tight.merge (h : a.Tight source) (h' : b.Tight source) : (a.merge b).Tight source := by
  have hlt := h.lt
  have hlt' := h'.lt
  obtain ⟨u, hu, hbegins, hends⟩ := h
  obtain ⟨v, hv, hbegins', hends'⟩ := h'
  unfold Tight Span.merge
  dsimp only
  rcases Nat.le_total a.start b.start with hstart | hstart <;>
    rcases Nat.le_total a.stop b.stop with hstop | hstop <;>
    simp only [Nat.min_eq_left, Nat.min_eq_right, Nat.max_eq_left, Nat.max_eq_right, hstart, hstop]
  · exact hu.extend hbegins hv hends' (by omega)
  · exact ⟨u, hu, hbegins, hends⟩
  · exact ⟨v, hv, hbegins', hends'⟩
  · exact hv.extend hbegins' hu hends (by omega)

end Span

end Vimscript
