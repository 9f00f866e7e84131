import Vimscript.Expr.OfTree
import Vimscript.Proofs.Expr.Spelling
import Vimscript.Proofs.Offsets

/-!
# Places in a source

A tree is placed in a source if each node covers its text, has its children inside it and in their
order, and if the nodes that end by themselves neither begin nor end in a blank. An expression fits
between two offsets if every node of it is over a text without blanks at its ends and has its parts
inside it. Expressions that fit one behind the other fit under an operator, and what a tight point
or a dash makes of them fits as they do.
-/

namespace Vimscript

open Text

/-- A node over a text without blanks at its ends, with its parts inside it. -/
def Expr.Spanned (source : List Char) (e : Expr Span) : Prop :=
  e.mark.Tight source ∧ ∀ part ∈ e.parts, part.mark.Inside e.mark

/-- An expression all of whose nodes are so, between two offsets with only blanks around it. -/
structure Fits (source : List Char) (m n : Nat) (e : Expr Span) : Prop where
  every : e.Every (Expr.Spanned source)
  start : Gap source m e.mark.start
  stop : Gap source e.mark.stop n

/-- An expression all of whose nodes are so, inside a span. -/
def FitsInside (source : List Char) (outer : Span) (e : Expr Span) : Prop :=
  e.Every (Expr.Spanned source) ∧ e.mark.Inside outer

/-- An expression over a span all of whose nodes are so. -/
def FitsOn (source : List Char) (span : Span) (e : Expr Span) : Prop :=
  e.Every (Expr.Spanned source) ∧ e.mark = span

section

variable {source : List Char} {e left right : Expr Span} {k l m n : Nat} {span whole outer : Span}

/-- A node over a tight span is in place if its parts are inside the span. -/
theorem FitsOn.of_parts (htight : e.mark.Tight source)
    (hparts : ∀ part ∈ e.parts, FitsInside source e.mark part) : FitsOn source e.mark e :=
  ⟨.node ⟨htight, fun part hpart => (hparts part hpart).2⟩ fun part hpart => (hparts part hpart).1,
    rfl⟩

/-- A node without parts. -/
theorem FitsOn.leaf (htight : e.mark.Tight source) (hparts : e.parts = []) :
    FitsOn source e.mark e :=
  .of_parts htight fun part hpart => by
    rw [hparts] at hpart
    exact (List.not_mem_nil hpart).elim

/-- What fits on a span has a tight one. -/
theorem FitsOn.tight (h : FitsOn source span e) : span.Tight source := h.2 ▸ h.1.here.1

/-- What fits on a span fits between the blanks around it. -/
theorem FitsOn.fits (h : FitsOn source span e) (hstart : Gap source m span.start)
    (hstop : Gap source span.stop n) : Fits source m n e := by
  obtain ⟨hevery, rfl⟩ := h
  exact ⟨hevery, hstart, hstop⟩

/-- It fits between the ends of the span. -/
theorem FitsOn.fits_self (h : FitsOn source span e) : Fits source span.start span.stop e :=
  h.fits h.tight.boundary.1.gap h.tight.boundary.2.gap

/-- What fits inside a span fits inside a wider one. -/
theorem FitsInside.mono (h : FitsInside source span e) (hspan : span.Inside outer) :
    FitsInside source outer e := ⟨h.1, h.2.trans hspan⟩

/-- What fits between the ends of a span fits inside it. -/
theorem Fits.inside (h : Fits source span.start span.stop e) : FitsInside source span e :=
  ⟨h.every, h.start.le, h.stop.le⟩

/-- An expression is inside its own span and any span around that. -/
theorem Fits.inside_of (h : Fits source m n e) (hspan : e.mark.Inside outer) :
    FitsInside source outer e := ⟨h.every, hspan⟩

/-- The mark of what fits is tight. -/
theorem Fits.tight (h : Fits source m n e) : e.mark.Tight source := h.every.here.1

/-- What fits between two places fits with more blanks on both sides. -/
theorem Fits.widen (h : Fits source l m e) (hstart : Gap source k l) (hstop : Gap source m n) :
    Fits source k n e := ⟨h.every, hstart.trans h.start, h.stop.trans hstop⟩

/-- Spans one behind the other are joined from the start of the first to the stop of the second. -/
theorem merge_of_le {a b : Span} (ha : a.start ≤ a.stop) (hle : a.stop ≤ b.start)
    (hb : b.start ≤ b.stop) : a.merge b = ⟨a.start, b.stop⟩ := by
  unfold Span.merge
  rw [Nat.min_eq_left (by omega), Nat.max_eq_right (by omega)]

/-- What lies over an expression and a span behind it reaches from the first to the second. -/
theorem Fits.extend (h : Fits source k l left) (hle : l ≤ span.start)
    (hspan : span.start ≤ span.stop) (hstop : Gap source span.stop n)
    (hon : FitsOn source (left.mark.merge span) e) : Fits source k n e := by
  have := h.tight.lt
  have := h.stop.le
  rw [merge_of_le (by omega) (by omega) hspan] at hon
  exact hon.fits h.start hstop

/-- What lies over two expressions, one behind the other, reaches from the first to the second. -/
theorem Fits.of_on (h : Fits source k l left) (h' : Fits source m n right) (hle : l ≤ m)
    (hon : FitsOn source (left.mark.merge right.mark) e) : Fits source k n e :=
  h.extend (Nat.le_trans hle h'.start.le) (Nat.le_of_lt h'.tight.lt) h'.stop hon

/-- A node over two expressions one behind the other, with its other parts between them. -/
theorem Fits.join (h : Fits source k l left) (h' : Fits source m n right) (hle : l ≤ m)
    (hmark : e.mark = left.mark.merge right.mark)
    (hparts : ∀ part ∈ e.parts, part = left ∨ part = right ∨ FitsInside source ⟨l, m⟩ part) :
    Fits source k n e := by
  have hl := h.tight.lt
  have hr := h'.tight.lt
  have hbetween : Span.Inside ⟨l, m⟩ (left.mark.merge right.mark) := by
    have := h.stop.le
    have := h'.start.le
    rw [merge_of_le (by omega) (by omega) (by omega)]
    constructor <;> dsimp only <;> omega
  refine h.of_on h' hle (hmark ▸ FitsOn.of_parts (hmark ▸ h.tight.merge h'.tight) fun part hpart => ?_)
  rw [hmark]
  rcases hparts part hpart with rfl | rfl | hpart
  · exact h.inside_of (Span.inside_merge_left _ _)
  · exact h'.inside_of (Span.inside_merge_right _ _)
  · exact hpart.mono hbetween

/-- A node over two expressions one behind the other and nothing else. -/
theorem Fits.pair (h : Fits source k l left) (h' : Fits source m n right) (hle : l ≤ m)
    (hmark : e.mark = left.mark.merge right.mark) (hparts : e.parts = [left, right]) :
    Fits source k n e :=
  h.join h' hle hmark fun part hpart => by
    rw [hparts] at hpart
    exact (by simpa using hpart : part = left ∨ part = right).imp_right .inl

end

namespace Expr

variable {source : List Char} {left right : Expr Span} {k l m n : Nat} {span : Span}

/-- A field of a base, with a key over a tight span. -/
theorem field_fitsOn (key : List Char) (h : left.Every (Spanned source)) (hspan : span.Tight source) :
    FitsOn source (left.mark.merge span) (left.field key span) := by
  refine .of_parts (e := left.field key span) (h.here.1.merge hspan) fun part hpart => ?_
  simp only [field, parts, List.mem_cons, List.not_mem_nil, or_false] at hpart
  rcases hpart with rfl | rfl
  · exact ⟨h, Span.inside_merge_left _ _⟩
  · exact ⟨(FitsOn.leaf (e := literal span (.string key)) hspan rfl).1,
      Span.inside_merge_right _ _⟩

/-- What a tight point makes of the expressions beside it. -/
theorem dot_fits (h : Fits source k l left) (h' : Fits source m n right) (hle : l ≤ m)
    (text : List Char) : Fits source k n (left.dot right text) := by
  unfold dot
  split
  · rename_i span scope name args
    have hcallee := field_fitsOn name h.every h'.tight
    refine h.of_on h' hle (FitsOn.of_parts (e := funcrefCall _ _ args) hcallee.tight
      fun part hpart => ?_)
    rcases List.mem_cons.mp hpart with rfl | hpart
    · exact ⟨hcallee.1, .refl _⟩
    · exact FitsInside.mono ⟨h'.every.part hpart, h'.every.here.2 part hpart⟩
        (Span.inside_merge_right _ _)
  · split
    · exact h.of_on h' hle (field_fitsOn text h.every h'.tight)
    · exact h.pair h' hle rfl rfl

/-- A key that a dash goes on with. -/
theorem extendKey?_fits {suffix : List Char} {e : Expr Span} (h : Fits source k l left)
    (h' : Fits source m n right) (hle : l ≤ m)
    (he : left.extendKey? suffix right.mark = some e) : Fits source k n e := by
  unfold extendKey? at he
  split at he
  · rename_i whole base keySpan key
    cases he
    have hparts := h.every.here.2
    have hkey : (literal keySpan (.string key)).Every (Spanned source) :=
      h.every.part (by simp [parts])
    have htight : (keySpan.merge right.mark).Tight source := hkey.here.1.merge h'.tight
    refine h.of_on h' hle (FitsOn.of_parts (e := index (whole.merge right.mark) base _)
      (h.tight.merge h'.tight) fun part hpart => ?_)
    simp only [parts, List.mem_cons, List.not_mem_nil, or_false] at hpart
    rcases hpart with rfl | rfl
    · exact FitsInside.mono ⟨h.every.part (by simp [parts]), hparts _ (by simp [parts])⟩
        (Span.inside_merge_left _ _)
    · refine ⟨(FitsOn.leaf (e := literal (keySpan.merge right.mark) _) htight rfl).1, ?_⟩
      have hinside := hparts (literal keySpan (.string key)) (by simp [parts])
      exact Span.inside_merge hinside
  · cases he

end Expr

/-- Nodes one after the other between two offsets. -/
def Tree.InOrder (m n : Nat) : List (Tree Tag) → Prop
  | [] => m ≤ n
  | t :: rest => m ≤ t.span.start ∧ InOrder t.span.stop n rest

/-- Nodes one after the other between two offsets, with nothing but blanks around them. -/
def Tree.Gapped (source : List Char) (m n : Nat) : List (Tree Tag) → Prop
  | [] => Gap source m n
  | t :: rest => Gap source m t.span.start ∧ Gapped source t.span.stop n rest

/-- Nodes that begin and end by themselves, so that their spans cover no blanks at their ends. -/
def Tag.isTight : Tag → Bool
  | operator | subscript | methodCall | callArgs | primary | integer | float | blob | string | list
  | dict | literalDict | literalDictKey | lambdaExpr | lambda | functionCall | variableRef
  | optionRef | envVariable | register => true
  | _ => false

/-- Nodes of rules that take nothing but their parts and blanks. -/
def Tag.isBare : Tag → Bool
  | conditional | logicalOr | logicalAnd | comparison | additive | multiplicative | unary
  | postfixed | lambdaExpr => true
  | _ => false

/-- Nodes that hold nothing but their children and blanks: those of such rules, and a primary that
is no expression between parentheses. -/
def Tree.isBare : Tree Tag → Bool
  | node .primary _ _ [inner] => inner.label != .conditional
  | node tag _ _ _ => tag.isBare

/-- A tree below a root whose nodes cover the texts that they have in a source, in their order. -/
inductive Tree.Placed (source : List Char) : Tree Tag → Prop where
  | node {tag : Tag} {span : Span} {excerpt : Excerpt} {children : List (Tree Tag)}
    (below : tag ≠ .root) (covers : Between source span.start span.stop excerpt.toList)
    (tight : tag.isTight = true → span.Tight source) (order : InOrder span.start span.stop children)
    (bare : (Tree.node tag span excerpt children).isBare = true →
      Gapped source span.start span.stop children)
    (parts : ∀ t ∈ children, Placed source t) : Placed source (.node tag span excerpt children)

namespace Tree

variable {source : List Char} {t : Tree Tag}
  {ts us : List (Tree Tag)} {k m n : Nat}

/-- A placed tree has the text between its ends. -/
theorem Placed.between (h : t.Placed source) :
    Between source t.span.start t.span.stop t.text := by
  cases h with
  | node _ covers => exact covers

/-- Its span does not end before it starts. -/
theorem Placed.le (h : t.Placed source) : t.span.start ≤ t.span.stop := h.between.le

/-- Its span is tight unless its tag takes blanks at the end. -/
theorem Placed.tight (h : t.Placed source) (htag : t.label.isTight = true) :
    t.span.Tight source := by
  cases h with
  | node _ _ tight => exact tight htag

/-- Its children stand inside it, one behind the other. -/
theorem Placed.order (h : t.Placed source) : InOrder t.span.start t.span.stop t.children := by
  cases h with
  | node _ _ _ order => exact order

/-- It is no root. -/
theorem Placed.label_ne_root (h : t.Placed source) : t.label ≠ .root := by
  cases h with
  | node below => exact below

/-- A node that adds no text of its own has nothing but blanks between its children. -/
theorem Placed.bare (h : t.Placed source) (hbare : t.isBare = true) :
    Gapped source t.span.start t.span.stop t.children := by
  cases h with
  | node _ _ _ _ bare => exact bare hbare

/-- Its children are placed as well. -/
theorem Placed.parts (h : t.Placed source) : ∀ u ∈ t.children, u.Placed source := by
  cases h with
  | node _ _ _ _ _ parts => exact parts

/-- Trees with nothing but blanks between them stand in order. -/
theorem Gapped.inOrder (h : Gapped source m n ts) : InOrder m n ts := by
  induction ts generalizing m with
  | nil => exact h.le
  | cons t ts ih => exact ⟨h.1.le, ih h.2⟩

/-- A node is no further than the second of the nodes behind it. -/
theorem Gapped.le_second {u : Tree Tag} (h : Gapped source m n (t :: u :: ts))
    (ht : t.Placed source) : m ≤ u.span.start :=
  Nat.le_trans h.1.le (Nat.le_trans ht.le h.2.1.le)

/-- Trees in order may follow one another. -/
theorem InOrder.append (h : InOrder k m ts) (h' : InOrder m n us) : InOrder k n (ts ++ us) := by
  induction ts generalizing k with
  | nil =>
    cases us with
    | nil => exact Nat.le_trans h h'
    | cons u us => exact ⟨Nat.le_trans h h'.1, h'.2⟩
  | cons t ts ih => exact ⟨h.1, ih h.2⟩

/-- So may trees with nothing but blanks between them. -/
theorem Gapped.append (h : Gapped source k m ts) (h' : Gapped source m n us) :
    Gapped source k n (ts ++ us) := by
  induction ts generalizing k with
  | nil =>
    cases us with
    | nil => exact Gap.trans h h'
    | cons u us => exact ⟨Gap.trans h h'.1, h'.2⟩
  | cons t ts ih => exact ⟨h.1, ih h.2⟩

/-- Placed trees in order stand between places in order. -/
theorem InOrder.le (h : InOrder m n ts) (hparts : ∀ t ∈ ts, t.Placed source) : m ≤ n := by
  induction ts generalizing m with
  | nil => exact h
  | cons t ts ih =>
    have := (hparts t List.mem_cons_self).le
    have := ih h.2 fun u hu => hparts u (List.mem_cons_of_mem t hu)
    have := h.1
    omega

/-- Each of the nodes between two offsets lies between them. -/
theorem InOrder.inside (h : InOrder m n ts) (hparts : ∀ t ∈ ts, t.Placed source) :
    ∀ t ∈ ts, t.span.Inside ⟨m, n⟩ := by
  induction ts generalizing m with
  | nil =>
    intro t ht
    exact (List.not_mem_nil ht).elim
  | cons t ts ih =>
    have hrest : ∀ u ∈ ts, u.Placed source := fun u hu => hparts u (List.mem_cons_of_mem t hu)
    have hle := (hparts t List.mem_cons_self).le
    have hlast := InOrder.le h.2 hrest
    intro u hu
    rcases List.mem_cons.mp hu with rfl | hu
    · exact ⟨h.1, hlast⟩
    · exact (ih h.2 hrest u hu).trans ⟨Nat.le_trans h.1 hle, Nat.le_refl n⟩

/-- The children of a placed node lie inside it. -/
theorem Placed.inside (h : t.Placed source) : ∀ u ∈ t.children, u.span.Inside t.span :=
  h.order.inside h.parts

end Tree

end Vimscript
