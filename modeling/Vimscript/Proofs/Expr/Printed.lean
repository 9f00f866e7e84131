import Vimscript.Proofs.Decimal.ReadBack
import Vimscript.Proofs.Expr.Tokens
import Vimscript.Proofs.Expr.Whole

/-!
# Printed expressions read back

The source form of an expression reads as the expression. A part stands between parentheses where
it binds looser than its place allows, and everywhere else behind it stands what ends it: a blank,
a comma, a bracket, or the colon of a dictionary behind a key.
-/

namespace Vimscript

open Text

/-- What may stand behind a printed text: a seam, or a colon that makes no scope of its end. -/
def Text.Behind (u rest : List Char) : Prop := Seam rest ∨ Edge rest ∧ ¬ EndsInScope u

/-- What ends in a scope does so behind another text. -/
theorem Text.EndsInScope.append {u v : List Char} (h : EndsInScope v) : EndsInScope (u ++ v) := by
  rcases h with h | h
  · exact .inl (h.trans (List.suffix_append u v))
  · exact .inr (h.trans (List.suffix_append u v))

/-- What may stand behind a text may stand behind the last part of it. -/
theorem Text.Behind.of_append {u v rest : List Char} (h : Behind (u ++ v) rest) :
    Behind v rest := by
  rcases h with h | ⟨h, hends⟩
  · exact .inl h
  · exact .inr ⟨h, fun h => hends h.append⟩

/-- What may stand behind an expression that is printed is an edge for it. -/
theorem Text.Behind.edge {u rest : List Char} (h : Behind u rest) : Edge rest := by
  rcases h with h | h
  · exact .inl h
  · exact h.1

namespace Expr

variable {Mark : Type} {e : Expr Mark} {level : Nat}

/-- The source form of an expression reads as the expression at the level at which it binds. -/
def ReadsBack (e : Expr Mark) : Prop := ReadsAs (Behind e.source) e.binding e.source e.erase

/-- Nothing binds more tightly than a constant. -/
theorem binding_le (e : Expr Mark) : e.binding ≤ 8 := by
  cases e with
  | binary _ op _ _ => exact Nat.le_trans op.tier_bounds.2 (by decide)
  | _ => simp [binding, conditionalBinding, unaryBinding, suffixBinding, atomBinding]

namespace ReadsBack

variable {b b' : List Char} {c : Char}

/-- An expression reads back if its text reads as its shape where it may stand. -/
theorem of_reads {u : List Char} {shape : Expr Unit} (h : ReadsAs (Behind u) level u shape)
    (hsource : e.source = u) (hbinding : e.binding = level) (hshape : e.erase = shape) :
    e.ReadsBack := by
  subst hsource hbinding hshape
  exact h

/-- It reads back at every level that it binds at. -/
theorem at_level (h : e.ReadsBack) (hlevel : level ≤ e.binding) :
    ReadsAs (Behind e.source) level e.source e.erase := h.loosen hlevel e.binding_le

/-- In front of a seam nothing is asked of the end of its text. -/
theorem seam (h : e.ReadsBack) (hlevel : level ≤ e.binding) :
    ReadsAs Seam level e.source e.erase := (h.at_level hlevel).mono fun _ => .inl

/-- Between parentheses where they are needed an expression reads at any level. -/
theorem enclosed (level : Nat) (h : e.ReadsBack) (hlevel : level ≤ 8) :
    ReadsAs (Behind (enclose (e.binding < level) e.source)) level
      (enclose (e.binding < level) e.source) e.erase := by
  unfold enclose
  split
  · have := (h.at_level (Nat.zero_le _)).paren blank_nil blank_nil fun rest =>
      .inl (seam_cons (by decide))
    exact (this.mono fun _ _ => trivial).loosen hlevel (Nat.le_refl 8)
  · exact h.at_level (by simp_all)

/-- An expression between blanks in front of a character that ends it. -/
theorem slot (h : e.ReadsBack) (hb : b.all isSpace = true) (hb' : b'.all isSpace = true)
    (hseam : Seam (b' ++ [c])) : ReadsSlot c (b ++ (e.source ++ b')) (some e.erase) :=
  .inr ⟨b, _, b', _, rfl, hb, hb', hseam, h.seam (Nat.zero_le _), rfl⟩

end ReadsBack

/-- Items lose their marks one by one. -/
theorem mapItems_eq (items : List (Expr Mark)) :
    mapItems (fun _ => ()) items = items.map erase := by
  induction items with
  | nil => rfl
  | cons item rest ih => rw [mapItems, ih]; rfl

/-- So do the sides of entries. -/
theorem mapEntries_eq (entries : List (Expr Mark × Expr Mark)) :
    mapEntries (fun _ => ()) entries = entries.map fun entry => (entry.1.erase, entry.2.erase) := by
  induction entries with
  | nil => rfl
  | cons entry rest ih => rw [mapEntries, ih]; rfl

/-- So do bounds that are there. -/
theorem mapBound_eq (bound : Option (Expr Mark)) :
    mapBound (fun _ => ()) bound = bound.map erase := by
  cases bound <;> rfl

section

variable (mark : Mark) (scope : Option Scope) (name : List Char) (items : List (Expr Mark))
  (a b c : Expr Mark)

@[simp] theorem erase_literal (value : Literal) :
    (literal mark value).erase = .literal () value := rfl

@[simp] theorem erase_list : (list mark items).erase = .list () (items.map erase) := by
  rw [← mapItems_eq]
  rfl

@[simp] theorem erase_dict (entries : List (Expr Mark × Expr Mark)) : (dict mark entries).erase =
    .dict () (entries.map fun entry => (entry.1.erase, entry.2.erase)) := by
  rw [← mapEntries_eq]
  rfl

@[simp] theorem erase_var : (var mark scope name).erase = .var () scope name := rfl

@[simp] theorem erase_option : (option mark scope name).erase = .option () scope name := rfl

@[simp] theorem erase_env : (env mark name).erase = .env () name := rfl

@[simp] theorem erase_register (c : Char) : (register mark c).erase = .register () c := rfl

@[simp] theorem erase_unary (op : UnaryOp) : (unary mark op a).erase = .unary () op a.erase := rfl

@[simp] theorem erase_binary (op : BinaryOp) :
    (binary mark op a b).erase = .binary () op a.erase b.erase := rfl

@[simp] theorem erase_ternary :
    (ternary mark a b c).erase = .ternary () a.erase b.erase c.erase := rfl

@[simp] theorem erase_falsy : (falsy mark a b).erase = .falsy () a.erase b.erase := rfl

@[simp] theorem erase_call :
    (call mark scope name items).erase = .call () scope name (items.map erase) := by
  rw [← mapItems_eq]
  rfl

@[simp] theorem erase_lambda (params : List (List Char)) :
    (lambda mark params a).erase = .lambda () params a.erase := rfl

@[simp] theorem erase_lambdaCall :
    (lambdaCall mark a items).erase = .lambdaCall () a.erase (items.map erase) := by
  rw [← mapItems_eq]
  rfl

@[simp] theorem erase_funcrefCall :
    (funcrefCall mark a items).erase = .funcrefCall () a.erase (items.map erase) := by
  rw [← mapItems_eq]
  rfl

@[simp] theorem erase_slice (lower upper : Option (Expr Mark)) :
    (slice mark a lower upper).erase =
      .slice () a.erase (lower.map erase) (upper.map erase) := by
  rw [← mapBound_eq, ← mapBound_eq]
  rfl

@[simp] theorem erase_index : (index mark a b).erase = .index () a.erase b.erase := rfl

end

/-- Items are printed with commas between them. -/
theorem sourceItems_eq (items : List (Expr Mark)) :
    sourceItems items = commaSeparated (items.map source) := by
  induction items with
  | nil => rfl
  | cons item rest ih =>
    cases rest with
    | nil => simp [sourceItems, commaSeparated]
    | cons next rest =>
      rw [sourceItems, ih]
      · simp only [List.map_cons, commaSeparated_cons_cons]
        simp
      · simp

/-- The source form of an entry. -/
def sourceEntry (entry : Expr Mark × Expr Mark) : List Char :=
  entry.1.source ++ ':' :: ' ' :: entry.2.source

/-- Entries are printed with commas between them. -/
theorem sourceEntries_eq (entries : List (Expr Mark × Expr Mark)) :
    sourceEntries entries = commaSeparated (entries.map sourceEntry) := by
  induction entries with
  | nil => rfl
  | cons entry rest ih =>
    cases rest with
    | nil => simp [sourceEntries, commaSeparated, sourceEntry]
    | cons next rest =>
      rw [sourceEntries, ih]
      · simp only [List.map_cons, commaSeparated_cons_cons]
        simp [sourceEntry]
      · simp

end Expr

namespace Expr

variable {Mark : Type}

/-- Items that read back are read back as the places they are printed in. -/
theorem readsBack_items {items : List (Expr Mark)} {close : Char} (hclose : isSeam close = true)
    (h : ∀ item ∈ items, item.ReadsBack) :
    List.Forall₂ (fun u e => ∀ b b' : List Char, b.all isSpace = true → b'.all isSpace = true →
      ∀ c, endsSlot close c → ReadsSlot c (b ++ (u ++ b')) (some e))
      (items.map source) (items.map erase) := by
  rw [List.forall₂_map_left_iff, List.forall₂_map_right_iff, List.forall₂_same]
  exact fun item hitem b b' hb hb' c hc =>
    (h item hitem).slot hb hb' (seam_of_endsSlot hclose hb' hc)

/-- Items that read back do so between commas. -/
theorem readsBack_list {items : List (Expr Mark)} (h : ∀ item ∈ items, item.ReadsBack) :
    ReadsItems (sourceItems items) (items.map erase) := by
  rw [sourceItems_eq]
  exact .of_commaSeparated (readsBack_items (by decide) h)

/-- Arguments that read back are read back as places none of which is empty; no argument at all
leaves one place, and that empty. -/
theorem readsBack_args {args : List (Expr Mark)} (h : ∀ arg ∈ args, arg.ReadsBack) :
    ∃ places, ReadsArgs (sourceItems args) places ∧ places.filterMap id = args.map erase := by
  by_cases hne : args = []
  · subst hne
    exact ⟨[none], .one fun c _ => .inl ⟨rfl, rfl⟩, rfl⟩
  · refine ⟨(args.map erase).map some, ?_, by simp⟩
    rw [sourceItems_eq]
    exact .of_commaSeparated
      (List.forall₂_map_right_iff.mpr (readsBack_items (by decide) h)) (by simpa using hne)

/-- Entries that read back do so, unless a key ends in what the colon would make a scope. -/
theorem readsBack_entries {entries : List (Expr Mark × Expr Mark)}
    (h : ∀ entry ∈ entries, entry.1.ReadsBack ∧ entry.2.ReadsBack)
    (hkey : ∀ entry ∈ entries, ¬ EndsInScope entry.1.source) :
    ReadsEntries (sourceEntries entries)
      (entries.map fun entry => (entry.1.erase, entry.2.erase)) := by
  rw [sourceEntries_eq]
  refine .of_commaSeparated ?_
  rw [List.forall₂_map_left_iff, List.forall₂_map_right_iff, List.forall₂_same]
  intro entry hentry b b' hb hb' c hc
  refine ⟨Behind entry.1.source, b, entry.1.source, [], ' ' :: (entry.2.source ++ b'),
    by simp [sourceEntry], hb, rfl, fun rest => ?_, (h entry hentry).1.at_level (Nat.zero_le _), ?_⟩
  · exact .inr ⟨.inr (.inl ⟨_, rfl, endsBefore_cons.mpr (by decide)⟩), hkey entry hentry⟩
  · exact (h entry hentry).2.slot blank_space hb'
      (seam_of_endsSlot (by decide) hb' hc)

/-- Parameters are printed with a blank behind the last, if there are any. -/
theorem readsBack_params {params : List (List Char)}
    (h : ∀ name ∈ params, IsName isNameStart isWordChar name) :
    ReadsPlaces ReadsParam (if params = [] then [] else commaSeparated params ++ [' ']) params := by
  split
  · subst params
    exact .inl ⟨rfl, rfl⟩
  · rename_i hne
    exact .inr (readsList_params h hne)

/-- What is asked of each node of an expression that reads back. -/
def Printable (e : Expr Mark) : Prop := e.WellSpelled ∧ e.Unambiguous

/-- Constants read back: numbers that are not negative, finite floats, and strings in their
quotes. -/
theorem readsBack_literal {mark : Mark} {value : Literal} (h : (literal mark value).WellSpelled) :
    (literal mark value).ReadsBack := by
  suffices h : ReadsAs Edge 8 (literal mark value).source (literal mark value).erase from
    h.mono fun _ => Behind.edge
  cases value with
  | int value =>
    obtain ⟨htext, hvalue⟩ := Numeral.decode?_integer h
    refine .integer (.inr (.inr (.inr ?_))) hvalue
    simp only [source, Literal.source, htext]
    exact ⟨natural_ne_nil _, natural_isDigit _⟩
  | float value =>
    obtain ⟨rank, rfl⟩ := h
    obtain ⟨whole, fraction, u, htext, hwhole, hfraction, hu, hvalue⟩ :=
      Binary64.ofText?_sourceText rank
    simp only [source, Literal.source]
    rw [htext] at hvalue ⊢
    exact .float hwhole hfraction hu hvalue rfl
  | string value => exact .string value

/-- Whether arguments make a call by name shows no mark. -/
theorem takesCall_erase (e : Expr Mark) : e.erase.takesCall = e.takesCall := by
  cases e <;> simp [takesCall]

/-- A lower bound reads back in front of the colon, and so does none. -/
theorem readsBack_lower (lower : Option (Expr Mark)) (h : ∀ e ∈ lower.toList, e.ReadsBack) :
    ReadsSlot ':' (sourceLower lower) (lower.map erase) := by
  cases lower with
  | none => exact .inl ⟨rfl, rfl⟩
  | some e =>
    exact (h e (by simp)).slot blank_nil blank_space (seam_cons (by decide))

/-- An upper bound reads back in front of the bracket, and so does none. -/
theorem readsBack_upper (upper : Option (Expr Mark)) (h : ∀ e ∈ upper.toList, e.ReadsBack) :
    ReadsSlot ']' (sourceUpper upper) (upper.map erase) := by
  cases upper with
  | none => exact .inl ⟨rfl, rfl⟩
  | some e =>
    have := (h e (by simp)).slot (c := ']') blank_space blank_nil (seam_cons (by decide))
    rwa [List.append_nil] at this

/-- The body of a lambda reads back in front of the brace. -/
theorem readsBack_lambdaBody {body : Expr Mark} (h : body.ReadsBack) :
    ReadsSlot '\x7d' (' ' :: body.source) (some body.erase) := by
  have := h.slot (c := '\x7d') blank_space blank_nil (seam_cons (by decide))
  rwa [List.append_nil] at this

/-- A printable node reads back if its parts do, and the body of a lambda that is called. -/
theorem readsBack_node {e : Expr Mark} (h : e.Every Printable)
    (ih : ∀ e' ∈ e.parts, e'.ReadsBack) (ih' : ∀ e' ∈ e.parts, ∀ e'' ∈ e'.parts, e''.ReadsBack) :
    e.ReadsBack := by
  obtain ⟨hspelled, hclear⟩ := h.here
  cases e with
  | literal => exact readsBack_literal hspelled
  | list mark items =>
    have hitems : ∀ item ∈ items, item.ReadsBack := ih
    exact .of_reads (readsBack_list hitems).list (by simp [source]) rfl (erase_list _ _)
  | dict mark entries =>
    refine .of_reads (readsBack_entries (fun entry hentry => ⟨ih _ ?_, ih _ ?_⟩) hclear).dict
      (by simp [source]) rfl (erase_dict _ _) <;>
      exact List.mem_flatMap.mpr ⟨entry, hentry, by simp⟩
  | var mark scope name =>
    cases scope with
    | none =>
      exact .of_reads ((ReadsAs.var hspelled).mono fun _ => Behind.edge) (by simp [source]; rfl) rfl
        rfl
    | some s =>
      exact .of_reads ((ReadsAs.scopedVar hspelled).mono fun _ => Behind.edge) (by simp [source]; rfl)
        rfl rfl
  | option mark scope name =>
    obtain ⟨hname, rfl | rfl | rfl⟩ := hspelled
    · refine .of_reads ((ReadsAs.option hname).mono fun rest h => ⟨h.edge, fun hscope => ?_⟩)
        (by simp [source]; rfl) rfl rfl
      refine (h.resolve_right fun h => h.2 ?_).endsBefore (by decide)
      rcases hscope with rfl | rfl
      · exact .inl (List.suffix_refl _)
      · exact .inr (List.suffix_refl _)
    · exact .of_reads ((ReadsAs.scopedOption (.inl rfl) hname).mono fun _ => Behind.edge)
        (by simp [source]; rfl) rfl rfl
    · exact .of_reads ((ReadsAs.scopedOption (.inr rfl) hname).mono fun _ => Behind.edge)
        (by simp [source]; rfl) rfl rfl
  | env mark name =>
    exact .of_reads ((ReadsAs.env hspelled).mono fun _ => Behind.edge) (by simp [source]) rfl rfl
  | register mark name =>
    exact .of_reads ((ReadsAs.register hspelled).mono fun _ => Behind.edge) (by simp [source]) rfl
      rfl
  | unary mark op operand =>
    have hoperand := (ih operand (by simp [parts])).enclosed unaryBinding (by decide)
    exact .of_reads ((hoperand.unary (b := []) rfl).mono fun _ => Behind.of_append)
      (by simp [source]) rfl rfl
  | binary mark op left right =>
    have hbounds := op.tier_bounds
    have hleft := (ih left (by simp [parts])).enclosed op.tier (by omega)
    have hright := (ih right (by simp [parts])).enclosed (op.tier + 1) (by omega)
    have hwhole := (hleft.mono fun _ => .inl).binary hright (.inl rfl) blank_space blank_space
    exact .of_reads (hwhole.mono fun _ h => h.of_append.of_append.of_append.of_append)
      (by simp [source]) rfl rfl
  | ternary mark condition ifTrue ifFalse =>
    have hcondition := (ih condition (by simp [parts])).enclosed looseBinding (by decide)
    have hfalse := (ih ifFalse (by simp [parts])).at_level (Nat.zero_le _)
    have hwhole := (hcondition.mono fun _ => .inl).ternary
      ((ih ifTrue (by simp [parts])).seam (Nat.zero_le _)) hfalse blank_space blank_space
      blank_space blank_space
    exact .of_reads (hwhole.mono fun _ h => h.of_append.of_append.of_append)
      (by simp [source]) rfl rfl
  | falsy mark left right =>
    have hleft := (ih left (by simp [parts])).enclosed looseBinding (by decide)
    have hright := (ih right (by simp [parts])).at_level (Nat.zero_le _)
    have hwhole := (hleft.mono fun _ => .inl).falsy hright blank_space blank_space
    exact .of_reads (hwhole.mono fun _ h => h.of_append.of_append.of_append.of_append)
      (by simp [source]) rfl rfl
  | call mark scope name args =>
    obtain ⟨places, hargs, hplaces⟩ := readsBack_args ih
    exact .of_reads (ReadsAs.call hspelled hargs) (by simp [source]; rfl) rfl
      (by rw [hplaces, erase_call]; rfl)
  | lambda mark params body =>
    exact .of_reads (ReadsAs.lambda (readsBack_params hspelled)
      (readsBack_lambdaBody (ih body (by simp [parts])))) (by simp [source]) rfl rfl
  | lambdaCall mark callee args =>
    obtain ⟨mark', params, body, rfl⟩ := hspelled
    have hlambda := (h.part (List.mem_cons_self (l := args))).here.1
    obtain ⟨places, hargs, hplaces⟩ := readsBack_args fun arg harg =>
      ih arg (List.mem_cons_of_mem _ harg)
    have hbody := ih' _ List.mem_cons_self body (by simp [parts])
    refine .of_reads ((ReadsAs.lambdaCall (readsBack_params hlambda) (readsBack_lambdaBody hbody)
      hargs).loosen (show 7 ≤ 8 by decide) (Nat.le_refl 8)) ?_ rfl (by rw [hplaces, erase_lambdaCall]; rfl)
    simp [source, enclose, binding, atomBinding, suffixBinding]
  | funcrefCall mark callee args =>
    have hcallee := (ih callee (by simp [parts])).enclosed suffixBinding (by decide)
    obtain ⟨places, hargs, hplaces⟩ := readsBack_args fun arg harg =>
      ih arg (List.mem_cons_of_mem callee harg)
    exact .of_reads ((hcallee.mono fun _ => .inl).funcrefCall ((takesCall_erase _).trans hclear)
      hargs) (by simp [source]) rfl (by rw [hplaces, erase_funcrefCall])
  | slice mark base lower upper =>
    have hbase := (ih base (by simp [parts])).enclosed suffixBinding (by decide)
    have hlower := readsBack_lower lower fun e he => ih e (by simp_all [parts])
    have hupper := readsBack_upper upper fun e he => ih e (by simp_all [parts])
    exact .of_reads ((hbase.mono fun _ => .inl).slice hlower hupper) (by simp [source]) rfl
      (erase_slice ..)
  | index mark base key =>
    have hbase := (ih base (by simp [parts])).enclosed suffixBinding (by decide)
    have hkey := (ih key (by simp [parts])).slot (c := ']') blank_nil blank_nil
      (seam_cons (by decide))
    exact .of_reads ((hbase.mono fun _ => .inl).index hkey) (by simp [source]) rfl
      rfl

/-- An expression all of whose nodes are printable reads back. -/
theorem readsBack {e : Expr Mark} (h : e.Every Printable) : e.ReadsBack := by
  have hboth : e.ReadsBack ∧ ∀ e' ∈ e.parts, e'.ReadsBack := by
    induction h with
    | node here parts ih =>
      exact ⟨readsBack_node (.node here parts) (fun e' he => (ih e' he).1)
        (fun e' he => (ih e' he).2), fun e' he => (ih e' he).1⟩
  exact hboth.1

/-- What reads back is denoted by its source form. -/
theorem ReadsBack.denotes {e : Expr Mark} (h : e.ReadsBack) : Denotes e.source e.erase := by
  have := Denotes.of_reads (h.seam (Nat.zero_le _)) blank_nil blank_nil
    fun c hc => by cases hc
  rwa [List.append_nil] at this

/-- The source form of a printable expression denotes the expression. -/
theorem denotes_source {e : Expr Mark} (h : e.Every Printable) : Denotes e.source e.erase :=
  (readsBack h).denotes

/-- Between a name that is the letter of a scope and the colon of a slice a blank is printed. -/
theorem denotes_source_slice : Denotes "l[a : -b]".toList (.slice () (.var () none ['l'])
    (some (.var () none ['a'])) (some (.unary () .negate (.var () none ['b'])))) := by
  have name (c : Char) (h : isNameStart c = true) : (Expr.var () none [c]).Every Printable :=
    .node ⟨⟨c, [], rfl, h, rfl⟩, trivial⟩ fun _ h => nomatch h
  refine denotes_source (e := .slice () (.var () none ['l']) (some (.var () none ['a']))
    (some (.unary () .negate (.var () none ['b'])))) (.node ⟨trivial, trivial⟩ fun e he => ?_)
  simp only [parts, Option.toList, List.mem_cons, List.mem_append, List.not_mem_nil, or_false] at he
  rcases he with rfl | rfl | rfl
  · exact name 'l' rfl
  · exact name 'a' rfl
  · refine .node ⟨trivial, trivial⟩ fun e he => ?_
    obtain rfl := List.mem_singleton.mp he
    exact name 'b' rfl

end Expr

end Vimscript
