import Vimscript.Proofs.Expr.Accepted
import Vimscript.Proofs.Expr.Tokens

/-!
# Longer expressions made of accepted texts

Each form of the grammar that encloses expressions makes its node out of the trees of the texts in
it, whatever these texts are: in their order and with nothing lost. The result is accepted again,
so forms can stand inside forms.
-/

namespace Vimscript

open Text

/-- A place for an argument: it holds blanks only, or an accepted text. -/
inductive Slot where
  | blank (text : List Char) (h : text.all isSpace = true)
  | filled (arg : Accepted)

namespace Slot

/-- The text in a place for an argument. -/
def text : Slot → List Char
  | blank text _ => text
  | filled arg => arg.text

/-- The argument in a place, if there is one. -/
def expr? : Slot → Option (Expr Unit)
  | blank _ _ => none
  | filled arg => some arg.expr

/-- Blanks at the ends of a place change nothing about the argument in it. -/
theorem reads (slot : Slot) {b b' : List Char} {c : Char} (hb : b.all isSpace = true)
    (hb' : b'.all isSpace = true) (hc : endsSlot ')' c) :
    ReadsSlot c (b ++ (slot.text ++ b')) slot.expr? := by
  cases slot with
  | blank text h =>
    refine .inl ⟨?_, rfl⟩
    rw [List.all_append, List.all_append, hb, hb', Bool.true_and, Bool.and_true]
    exact h
  | filled arg => exact arg.slot hb hb' (seam_of_endsSlot (by decide) hb' hc)

end Slot

/-- A larger expression with accepted texts in it. -/
inductive Form where
  /-- `(s)`. -/
  | paren (s : Accepted)
  /-- `[s₁, …, sₙ]`. -/
  | list (items : List Accepted)
  /-- `f(a₁, …, aₙ)`, perhaps with a scope in front of the name. -/
  | call (scope : Option Scope) (name : {name // IsName isNameStart isNameChar name})
    (slots : List Slot)
  /-- `(s)[t]`. -/
  | index (s t : Accepted)
  /-- `(s)[t : u]`. -/
  | slice (s t u : Accepted)
  /-- `(s)[t :]`. -/
  | sliceFrom (s t : Accepted)
  /-- `(s)[: u]`. -/
  | sliceTo (s u : Accepted)
  /-- A dictionary with entries `s : t`. -/
  | dict (entries : List (Accepted × Accepted))
  /-- A dictionary with entries `'k' : t`. -/
  | quotedDict (entries : List ({key // IsRun isKeyChar key} × Accepted))
  /-- A literal dictionary with entries `k: t`. -/
  | literalDict (entries : List ({key // IsRun isKeyChar key} × Accepted))
  /-- A lambda with parameters and a body. -/
  | lambda (params : List {name // IsName isNameStart isWordChar name}) (body : Accepted)

namespace Form

/-- The text of a form. -/
def text : Form → List Char
  | paren s => '(' :: s.text ++ ")".toList
  | list items => '[' :: Expr.commaSeparated (items.map (·.text)) ++ "]".toList
  | call scope name slots =>
    Scope.optionalText scope ++ name ++ '(' :: Expr.commaSeparated (slots.map (·.text)) ++ ")".toList
  | index s t => '(' :: s.text ++ ")[".toList ++ t.text ++ "]".toList
  | slice s t u => '(' :: s.text ++ ")[".toList ++ t.text ++ " : ".toList ++ u.text ++ "]".toList
  | sliceFrom s t => '(' :: s.text ++ ")[".toList ++ t.text ++ " :]".toList
  | sliceTo s u => '(' :: s.text ++ ")[: ".toList ++ u.text ++ "]".toList
  | dict entries => '\x7b' :: Expr.commaSeparated
      (entries.map fun entry => entry.1.text ++ " : ".toList ++ entry.2.text) ++ "\x7d".toList
  | quotedDict entries => '\x7b' :: Expr.commaSeparated
      (entries.map fun entry => '\'' :: entry.1 ++ "' : ".toList ++ entry.2.text) ++ "\x7d".toList
  | literalDict entries => "#\x7b".toList ++ Expr.commaSeparated
      (entries.map fun entry => entry.1 ++ ": ".toList ++ entry.2.text) ++ "\x7d".toList
  | lambda params body =>
    '\x7b' :: Expr.commaSeparated (params.map (·.1)) ++ " -> ".toList ++ body.text ++ "\x7d".toList

/-- The expression of a form. -/
def expr : Form → Expr Unit
  | paren s => s.expr
  | list items => .list () (items.map (·.expr))
  | call scope name slots => .call () scope name (slots.filterMap (·.expr?))
  | index s t => .index () s.expr t.expr
  | slice s t u => .slice () s.expr (some t.expr) (some u.expr)
  | sliceFrom s t => .slice () s.expr (some t.expr) none
  | sliceTo s u => .slice () s.expr none (some u.expr)
  | dict entries => .dict () (entries.map fun entry => (entry.1.expr, entry.2.expr))
  | quotedDict entries | literalDict entries =>
    .dict () (entries.map fun entry => (.literal () (.string entry.1), entry.2.expr))
  | lambda params body => .lambda () (params.map (·.1)) body.expr

/-- Accepted texts between commas read as items. -/
theorem readsItems (items : List Accepted) :
    ReadsItems (Expr.commaSeparated (items.map (·.text))) (items.map (·.expr)) := by
  refine .of_commaSeparated ?_
  rw [List.forall₂_map_left_iff, List.forall₂_map_right_iff, List.forall₂_same]
  exact fun s _ b b' hb hb' c hc => s.slot hb hb' (seam_of_endsSlot (by decide) hb' hc)

/-- No place at all is one place with nothing in it. -/
theorem readsArgs (slots : List Slot) : ∃ places,
    ReadsArgs (Expr.commaSeparated (slots.map (·.text))) places ∧
      places.filterMap id = slots.filterMap (·.expr?) := by
  by_cases hne : slots = []
  · subst hne
    exact ⟨[none], .one fun c _ => .inl ⟨rfl, rfl⟩, rfl⟩
  · refine ⟨slots.map (·.expr?), ?_, by rw [List.filterMap_map]; rfl⟩
    refine .of_commaSeparated ?_ (mt List.map_eq_nil_iff.mp hne)
    rw [List.forall₂_map_left_iff, List.forall₂_map_right_iff, List.forall₂_same]
    exact fun slot _ b b' hb hb' c hc => slot.reads hb hb' hc

/-- Accepted texts with a colon between every two read as entries. -/
theorem readsEntries (entries : List (Accepted × Accepted)) :
    ReadsEntries (Expr.commaSeparated
        (entries.map fun entry => entry.1.text ++ " : ".toList ++ entry.2.text))
      (entries.map fun entry => (entry.1.expr, entry.2.expr)) := by
  refine .of_commaSeparated ?_
  rw [List.forall₂_map_left_iff, List.forall₂_map_right_iff, List.forall₂_same]
  intro entry _ b b' hb hb' c hc
  obtain ⟨v, u, v', htext, hv, hv', hreads⟩ := entry.1.denotes.reads
  refine ⟨Seam, b ++ v, u, v' ++ [' '], ' ' :: (entry.2.text ++ b'), ?_, ?_, ?_, fun rest => ?_,
    hreads, ?_⟩
  · rw [htext]
    simp
  · rw [List.all_append, hb, hv, Bool.true_and]
  · rw [List.all_append, hv', Bool.true_and]
    rfl
  · rw [List.append_assoc]
    exact (seam_cons (by decide)).append hv'
  · exact entry.2.slot blank_space hb' (seam_of_endsSlot (by decide) hb' hc)

/-- Nothing is escaped in a key that could stand for itself. -/
theorem escapeSingle_of_isKeyChar {key : List Char} (h : key.all isKeyChar = true) :
    Quoted.escapeSingle key = key := by
  induction key with
  | nil => rfl
  | cons c key ih =>
    obtain ⟨hc, hkey⟩ := Bool.and_eq_true_iff.mp (List.all_cons ▸ h)
    have hne : c ≠ '\'' := by
      rintro rfl
      revert hc
      decide
    have := ih hkey
    rw [Quoted.escapeSingle] at this ⊢
    rw [List.flatMap_cons, if_neg hne, this]
    rfl

/-- A key in single quotes is an accepted text like others. -/
theorem readsQuotedEntries (entries : List ({key // IsRun isKeyChar key} × Accepted)) :
    ReadsEntries (Expr.commaSeparated
        (entries.map fun entry => '\'' :: entry.1 ++ "' : ".toList ++ entry.2.text))
      (entries.map fun entry => (.literal () (.string entry.1), entry.2.expr)) := by
  refine .of_commaSeparated ?_
  rw [List.forall₂_map_left_iff, List.forall₂_map_right_iff, List.forall₂_same]
  intro entry _ b b' hb hb' c hc
  have hkey := (ReadsAs.string entry.1).loosen (Nat.zero_le 8) (Nat.le_refl 8)
  refine ⟨Edge, b, _, [' '], ' ' :: (entry.2.text ++ b'), ?_, hb, rfl, fun rest => ?_, hkey, ?_⟩
  · rw [Quoted.encode, escapeSingle_of_isKeyChar entry.1.2.2]
    simp
  · exact (seam_cons (by decide)).edge
  · exact entry.2.slot blank_space hb' (seam_of_endsSlot (by decide) hb' hc)

/-- Plain keys read as the keys of a literal dictionary. -/
theorem readsLiteralEntries (entries : List ({key // IsRun isKeyChar key} × Accepted)) :
    ReadsLiteralEntries (Expr.commaSeparated
        (entries.map fun entry => entry.1 ++ ": ".toList ++ entry.2.text))
      (entries.map fun entry => (entry.1, entry.2.expr)) := by
  refine .of_commaSeparated ?_
  rw [List.forall₂_map_left_iff, List.forall₂_map_right_iff, List.forall₂_same]
  intro entry _ b b' hb hb' c hc
  refine ⟨b, [], ' ' :: (entry.2.text ++ b'), by simp, hb, rfl, entry.1.2, ?_⟩
  exact entry.2.slot blank_space hb' (seam_of_endsSlot (by decide) hb' hc)

/-- Names between commas read as parameters. -/
theorem readsParams (params : List {name // IsName isNameStart isWordChar name}) :
    ReadsPlaces ReadsParam (Expr.commaSeparated (params.map (·.1)) ++ [' ']) (params.map (·.1)) := by
  by_cases hne : params = []
  · subst hne
    exact .inl ⟨rfl, rfl⟩
  · refine .inr (readsList_params (fun name hname => ?_) (mt List.map_eq_nil_iff.mp hne))
    obtain ⟨param, -, rfl⟩ := List.mem_map.mp hname
    exact param.2

/-- Every form denotes its expression. -/
theorem denotes_expr (form : Form) : Denotes form.text form.expr := by
  cases form with
  | paren s => exact (s.paren (Nat.le_refl 8)).denotes (Nat.le_refl 8)
  | list items =>
    simpa [text, expr] using (readsItems items).list.denotes (Nat.le_refl 8)
  | call scope name slots =>
    obtain ⟨places, hargs, hplaces⟩ := readsArgs slots
    have hcall : Denotes _ (.call () scope name.1 _) :=
      (ReadsAs.call name.2 hargs).denotes (Nat.le_refl 8)
    rw [hplaces] at hcall
    simpa [text, expr] using hcall
  | index s t =>
    have hkey : ReadsSlot ']' ([] ++ (t.text ++ [])) (some t.expr) :=
      t.slot blank_nil blank_nil (seam_cons (by decide))
    simpa [text, expr] using ((s.paren (by decide)).index hkey).denotes (by decide)
  | slice s t u =>
    have hlower : ReadsSlot ':' ([] ++ (t.text ++ [' '])) (some t.expr) :=
      t.slot blank_nil blank_space (seam_cons (by decide))
    have hupper : ReadsSlot ']' ([' '] ++ (u.text ++ [])) (some u.expr) :=
      u.slot blank_space blank_nil (seam_cons (by decide))
    simpa [text, expr] using ((s.paren (by decide)).slice hlower hupper).denotes (by decide)
  | sliceFrom s t =>
    have hlower : ReadsSlot ':' ([] ++ (t.text ++ [' '])) (some t.expr) :=
      t.slot blank_nil blank_space (seam_cons (by decide))
    have hupper : ReadsSlot ']' [] none := .inl ⟨rfl, rfl⟩
    simpa [text, expr] using ((s.paren (by decide)).slice hlower hupper).denotes (by decide)
  | sliceTo s u =>
    have hlower : ReadsSlot ':' [] none := .inl ⟨rfl, rfl⟩
    have hupper : ReadsSlot ']' ([' '] ++ (u.text ++ [])) (some u.expr) :=
      u.slot blank_space blank_nil (seam_cons (by decide))
    simpa [text, expr] using ((s.paren (by decide)).slice hlower hupper).denotes (by decide)
  | dict entries =>
    simpa [text, expr] using (readsEntries entries).dict.denotes (Nat.le_refl 8)
  | quotedDict entries =>
    simpa [text, expr] using (readsQuotedEntries entries).dict.denotes (Nat.le_refl 8)
  | literalDict entries =>
    simpa [text, expr, Function.comp_def] using
      (readsLiteralEntries entries).literalDict.denotes (Nat.le_refl 8)
  | lambda params body =>
    have hbody : ReadsSlot '\x7d' ([' '] ++ (body.text ++ [])) (some body.expr) :=
      body.slot blank_space blank_nil (seam_cons (by decide))
    simpa [text, expr] using (ReadsAs.lambda (readsParams params) hbody).denotes (Nat.le_refl 8)

end Form

end Vimscript
