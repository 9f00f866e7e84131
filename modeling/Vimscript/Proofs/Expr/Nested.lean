import Vimscript.Proofs.Expr.Heads
import Vimscript.Proofs.Sexp

/-!
# S-expressions determine expressions

The s-expression of an expression is the text of a prefix form, whose words are keywords, operators,
names and numbers. Each layer of the prefix form tells the head of a node: a list begins with a
keyword or with an operator, which takes one operand or two, and an open bound is a word that no
number has. So trees with names of the grammar and finite numbers have one s-expression only if
they are one tree.
-/

namespace Vimscript

open Text

namespace Kind

/-- The word in front of the parts of a node; constants and operators have none. -/
def keyword : Kind → String
  | list => "list"
  | dict => "dict"
  | var => "var"
  | option => "option"
  | env => "env"
  | register => "register"
  | ternary => "?:"
  | falsy => "??"
  | call => "call"
  | lambda => "lambda"
  | lambdaCall => "lambda-call"
  | funcrefCall => "funcref-call"
  | slice => "slice"
  | index => "index"
  | int | float | string | unary | binary => ""

/-- The kinds that have a keyword. -/
def keyworded : List Kind :=
  [list, dict, var, option, env, register, ternary, falsy, call, lambda, lambdaCall, funcrefCall,
    slice, index]

/-- The kinds that have a name behind their keyword. -/
def isNamed : Kind → Bool
  | var | option | env | register | call => true
  | _ => false

/-- The kinds that have a word other than a keyword. -/
def showsWord : Kind → Bool
  | int | float | unary | binary => true
  | kind => kind.isNamed

/-- The kind that a keyword stands for. -/
def ofKeyword? (u : List Char) : Option Kind := keyworded.find? fun kind => u == kind.keyword.toList

/-- A keyword names its kind. -/
theorem ofKeyword?_keyword :
    ∀ kind ∈ keyworded, ofKeyword? kind.keyword.toList = some kind := by decide

/-- Keywords are words. -/
theorem isWord_keyword : ∀ kind ∈ keyworded, Sexp.IsWord kind.keyword.toList := by
  unfold Sexp.IsWord IsRun
  decide

end Kind

/-- No operator is a keyword. -/
theorem BinaryOp.ofKeyword?_text (op : BinaryOp) : Kind.ofKeyword? op.text = none := by
  cases op with
  | compare relation letterCase => cases relation <;> cases letterCase <;> decide
  | _ => decide

/-- No prefix operator is a keyword. -/
theorem UnaryOp.ofKeyword?_text (op : UnaryOp) : Kind.ofKeyword? op.text = none := by
  cases op <;> decide

/-- Binary operators are words. -/
theorem BinaryOp.isWord_text (op : BinaryOp) : Sexp.IsWord op.text := by
  unfold Sexp.IsWord IsRun
  cases op with
  | compare relation letterCase => cases relation <;> cases letterCase <;> decide
  | _ => decide

/-- So are prefix operators. -/
theorem UnaryOp.isWord_text (op : UnaryOp) : Sexp.IsWord op.text := by
  unfold Sexp.IsWord IsRun
  cases op <;> decide

namespace Sexp

/-- An open bound. -/
def openBound : Sexp := .word ['_']

/-- Whether a form is an open bound. -/
def isOpen : Sexp → Bool
  | word ['_'] => true
  | _ => false

/-- The text of a word. -/
def wordText : Sexp → List Char
  | word u => u
  | _ => []

/-- The members of a list. -/
def members : Sexp → List Sexp
  | nest parts => parts
  | _ => []

/-- The head of a kind and the forms of its parts, out of what stands behind the keyword. -/
def keywordLayer (kind : Kind) (rest : List Sexp) : Head × List Sexp :=
  match kind with
  | .var | .option | .env | .register | .call =>
    ({ kind := kind, word := rest.head?.elim [] wordText }, rest.tail)
  | .lambda =>
    ({ kind := kind, params := (rest.head?.elim [] members).map wordText }, rest.tail)
  | .dict => ({ kind := kind }, rest.flatMap members)
  | .slice =>
    ({ kind := kind, lower := !(rest.getD 1 openBound).isOpen,
       upper := !(rest.getD 2 openBound).isOpen }, rest.filter fun part => !part.isOpen)
  | _ => ({ kind := kind }, rest)

/-- The head that a prefix form shows, and the forms of the parts. -/
def layer? : Sexp → Option (Head × List Sexp)
  | word u => some ({ kind := if u.any isFloatMark then .float else .int, word := u }, [])
  | quoted u => some ({ kind := .string, word := u }, [])
  | nest (word u :: rest) =>
    match Kind.ofKeyword? u with
    | some kind => some (keywordLayer kind rest)
    | none => some ({ kind := if rest.length = 1 then .unary else .binary, word := u }, rest)
  | _ => none

/-- A keyword in front is read off with the layer that belongs to it. -/
theorem layer?_keyword {kind : Kind} (h : kind ∈ Kind.keyworded) (rest : List Sexp) :
    (nest (word kind.keyword.toList :: rest)).layer? = some (keywordLayer kind rest) := by
  rw [layer?, Kind.ofKeyword?_keyword kind h]

end Sexp

/-- The prefix form of a head and the forms of its parts. -/
def Head.sexp (h : Head) (parts : List Sexp) : Sexp :=
  let first := Sexp.word h.kind.keyword.toList
  match h.kind with
  | .int | .float => .word h.word
  | .string => .quoted h.word
  | .unary | .binary => .nest (.word h.word :: parts)
  | .dict => .nest (first :: (pairs parts).map fun entry => .nest [entry.1, entry.2])
  | .var | .option | .env | .register | .call => .nest (first :: .word h.word :: parts)
  | .lambda => .nest (first :: .nest (h.params.map .word) :: parts)
  | .slice => .nest (first :: (parts.take 1 ++
      [(h.bounds parts.tail).1.getD .openBound, (h.bounds parts.tail).2.getD .openBound]))
  | .list | .ternary | .falsy | .lambdaCall | .funcrefCall | .index => .nest (first :: parts)

/-- A prefix form is made of words as they should be if the node shows such and its parts are. -/
theorem Head.proper_sexp {h : Head} {parts : List Sexp}
    (hword : h.kind.showsWord = true → Sexp.IsWord h.word)
    (hparams : ∀ name ∈ h.params, Sexp.IsWord name) (hparts : ∀ part ∈ parts, part.Proper) :
    (h.sexp parts).Proper := by
  have hkeyword (kind : Kind) (hkind : kind ∈ Kind.keyworded) :
      (Sexp.word kind.keyword.toList).Proper := .word (Kind.isWord_keyword kind hkind)
  obtain ⟨kind, word, params, lower, upper⟩ := h
  cases kind with
  | int | float => exact .word (hword rfl)
  | string => exact .quoted word
  | unary | binary => exact .nest (List.forall_mem_cons.mpr ⟨.word (hword rfl), hparts⟩)
  | var | option | env | register | call =>
    exact .nest (List.forall_mem_cons.mpr ⟨hkeyword _ (by simp [Kind.keyworded]),
      List.forall_mem_cons.mpr ⟨.word (hword rfl), hparts⟩⟩)
  | list | ternary | falsy | lambdaCall | funcrefCall | index =>
    exact .nest (List.forall_mem_cons.mpr ⟨hkeyword _ (by simp [Kind.keyworded]), hparts⟩)
  | lambda =>
    refine .nest (List.forall_mem_cons.mpr ⟨hkeyword .lambda (by decide),
      List.forall_mem_cons.mpr ⟨.nest (List.forall_mem_map.mpr fun name hname => ?_), hparts⟩⟩)
    exact .word (hparams name hname)
  | dict =>
    refine .nest (List.forall_mem_cons.mpr ⟨hkeyword .dict (by decide),
      List.forall_mem_map.mpr fun entry hentry => .nest ?_⟩)
    obtain ⟨hkey, hvalue⟩ := mem_of_mem_pairs hentry
    simp [hparts _ hkey, hparts _ hvalue]
  | slice =>
    have hbound (bound : Option Sexp) (h : ∀ part ∈ bound, part ∈ parts.tail) :
        (bound.getD .openBound).Proper := by
      cases bound with
      | none => exact .word (by unfold Sexp.IsWord IsRun; decide)
      | some part => exact hparts part (List.mem_of_mem_tail (h part rfl))
    refine .nest (List.forall_mem_cons.mpr ⟨hkeyword .slice (by decide),
      List.forall_mem_append.mpr ⟨fun part hpart => hparts part (List.mem_of_mem_take hpart), ?_⟩⟩)
    simp [hbound _ fun part hpart => mem_of_mem_bounds (.inl hpart),
      hbound _ fun part hpart => mem_of_mem_bounds (.inr hpart)]

namespace Expr

variable {Mark : Type}

/-- The prefix form of an expression. -/
def sexp (e : Expr Mark) : Sexp := e.fold Head.sexp

/-- The prefix form of a node is made of its head and the prefix forms of its parts. -/
theorem sexp_eq (e : Expr Mark) : e.sexp = e.head.sexp (e.parts.map sexp) := fold_eq _ e

/-- A dictionary has a pair for each entry. -/
theorem sexp_dict (mark : Mark) (entries : List (Expr Mark × Expr Mark)) :
    (dict mark entries).sexp = .nest (.word "dict".toList ::
      entries.map fun entry => .nest [entry.1.sexp, entry.2.sexp]) := by
  rw [sexp_eq]
  simp [head, parts, Head.sexp, Kind.keyword, pairs_map_flatMap, Function.comp_def]

/-- A slice has a mark in the place of a bound that is left out. -/
theorem sexp_slice (mark : Mark) (base : Expr Mark) (lower upper : Option (Expr Mark)) :
    (slice mark base lower upper).sexp = .nest [.word "slice".toList, base.sexp,
      (lower.map sexp).getD .openBound, (upper.map sexp).getD .openBound] := by
  rw [sexp_eq]
  simp only [head, parts, Head.sexp, List.map_cons, List.tail_cons, Head.bounds_map]
  rfl

/-- The text behind a keyword is that of the items, each with a blank in front. -/
theorem textBehind_items {items : List (Expr Mark)}
    (h : ∀ item ∈ items, item.sexp.text = item.sexpr) :
    Sexp.textBehind (items.map sexp) = sexprItems items := by
  induction items with
  | nil => rfl
  | cons item rest ih =>
    rw [List.map_cons, Sexp.textBehind, sexprItems, h item List.mem_cons_self,
      ih fun e he => h e (.tail _ he)]

/-- So it is for entries, each in parentheses. -/
theorem textBehind_entries {entries : List (Expr Mark × Expr Mark)}
    (h : ∀ entry ∈ entries, ∀ part ∈ [entry.1, entry.2], part.sexp.text = part.sexpr) :
    Sexp.textBehind (entries.map fun entry => .nest [entry.1.sexp, entry.2.sexp]) =
      sexprEntries entries := by
  induction entries with
  | nil => rfl
  | cons entry rest ih =>
    have hkey := h entry List.mem_cons_self entry.1 (by simp)
    have hvalue := h entry List.mem_cons_self entry.2 (by simp)
    rw [List.map_cons, Sexp.textBehind, sexprEntries, ih fun e he => h e (.tail _ he)]
    simp [Sexp.text, Sexp.textBehind, form, hkey, hvalue]

/-- Names with a blank between any two stand between parentheses as words do. -/
theorem text_names (names : List (List Char)) :
    (Sexp.nest (names.map .word)).text = form (spacedNames names) [] := by
  have hbehind (names : List (List Char)) :
      Sexp.textBehind (names.map .word) = names.flatMap (' ' :: ·) := by
    induction names with
    | nil => rfl
    | cons name rest ih => simp [Sexp.textBehind, Sexp.text, ih]
  cases names with
  | nil => rfl
  | cons name rest =>
    have hspaced : spacedNames (name :: rest) = name ++ rest.flatMap (' ' :: ·) :=
      intercalate_cons_eq [' '] name rest
    rw [hspaced, List.map_cons, Sexp.text, hbehind]
    simp [form, Sexp.text]

/-- The s-expression is the text of the prefix form. -/
theorem text_sexp (e : Expr Mark) : e.sexp.text = e.sexpr := by
  induction e using parts_induction with
  | node e ih =>
    have hparts : Sexp.textBehind (e.parts.map sexp) = sexprItems e.parts := textBehind_items ih
    cases e with
    | literal _ value =>
      rw [sexp_eq]
      cases value <;> simp [head, Head.sexp, Sexp.text, sexpr, Literal.plainText]
    | dict _ entries =>
      have hentries := textBehind_entries fun entry (hentry : entry ∈ entries) part hpart =>
        ih part (List.mem_flatMap.mpr ⟨entry, hentry, hpart⟩)
      rw [sexp_dict, Sexp.text, hentries]
      simp [Sexp.text, sexpr, form]
    | slice _ base lower upper =>
      have hbound (bound : Option (Expr Mark)) (h : ∀ e ∈ bound, e.sexp.text = e.sexpr) :
          ((bound.map sexp).getD .openBound).text = sexprBound bound := by
        cases bound with
        | none => rfl
        | some e => exact h e rfl
      have hbase := ih base (by simp [parts])
      have hlower := hbound lower fun e he => ih e (by simp_all [parts])
      have hupper := hbound upper fun e he => ih e (by simp_all [parts])
      rw [sexp_slice]
      simp [Sexp.text, Sexp.textBehind, sexpr, form, hbase, hlower, hupper]
    | lambda =>
      rw [sexp_eq]
      simp only [head, Head.sexp, Sexp.text, Sexp.textBehind, hparts, text_names]
      simp [parts, sexprItems, sexpr, form, Kind.keyword]
    | _ =>
      rw [sexp_eq]
      simp only [head, Head.sexp, Sexp.text, Sexp.textBehind, hparts]
      simp [parts, sexprItems, sexpr, form, Kind.keyword]

/-- The characters of names and of what stands in front of them. -/
def isNamePart (c : Char) : Bool := isNameChar c || ":&$".toList.contains c

/-- A run of a class stands inside a word if the class has no blank and no parenthesis. -/
theorem isPlain_of_isRun {accepts : Char → Bool} {u : List Char} (h : IsRun accepts u)
    (hclass : " \n()".toList.any accepts = false) : IsRun Sexp.isPlain u := by
  refine ⟨h.1, List.all_eq_true.mpr fun c hc => ?_⟩
  have hne {d : Char} (hd : d ∈ " \n()".toList) : c ≠ d := by
    rintro rfl
    exact List.any_eq_false.mp hclass c hd (List.all_eq_true.mp h.2 c hc)
  simp [Sexp.isPlain, hne]

/-- It is a word if the class has no quote either. -/
theorem isWord_of_isRun {accepts : Char → Bool} {u : List Char} (h : IsRun accepts u)
    (hclass : " \n()".toList.any accepts = false) (hquote : accepts '"' = false) :
    Sexp.IsWord u := by
  refine ⟨isPlain_of_isRun h hclass, fun hhead => ?_⟩
  have := List.all_eq_true.mp h.2 _ (List.mem_of_mem_head? hhead)
  rw [hquote] at this
  cases this

/-- A name is a word, with a sign or a scope in front of it or without. -/
theorem isWord_name (front : List Char) {name : List Char} (h : IsRun isNameChar name)
    (hfront : front.all isNamePart = true) : Sexp.IsWord (front ++ name) := by
  have hname : name.all isNamePart = true := List.all_eq_true.mpr fun c hc =>
    Bool.or_eq_true_iff.mpr (.inl (List.all_eq_true.mp h.2 c hc))
  have hrun : IsRun isNamePart (front ++ name) :=
    ⟨by simp [h.1], by rw [List.all_append, hfront, hname, Bool.and_self]⟩
  exact isWord_of_isRun hrun (by decide) (by decide)

/-- A scope is made of characters that can stand in front of a name. -/
theorem optionalText_all (scope : Option Scope) :
    (Scope.optionalText scope).all isNamePart = true := by
  cases scope with
  | none => rfl
  | some scope => cases scope <;> decide

/-- A node that shows a word shows one that is a word. -/
theorem isWord_head {e : Expr Mark} (h : e.Lexical) (hkind : e.head.kind.showsWord = true) :
    Sexp.IsWord e.head.word := by
  cases e with
  | literal _ value =>
    cases value with
    | int value => exact isWord_of_isRun (integer_isRun _) (by decide) (by decide)
    | float value => exact isWord_of_isRun (Binary64.plainText_spec h).1 (by decide) (by decide)
    | string value => cases hkind
  | var _ scope name | call _ scope name _ =>
    exact isWord_name _ h (optionalText_all scope)
  | option _ scope name =>
    exact isWord_name ('&' :: Scope.optionalText scope) h
      (Bool.and_eq_true_iff.mpr ⟨by decide, optionalText_all scope⟩)
  | env _ name => exact isWord_name ['$'] h (by decide)
  | register _ name =>
    have hall : ['@', name].all isRegisterName = true :=
      Bool.and_eq_true_iff.mpr ⟨by decide, Bool.and_eq_true_iff.mpr ⟨h, rfl⟩⟩
    exact ⟨isPlain_of_isRun ⟨List.cons_ne_nil _ _, hall⟩ (by decide), by simp [head]⟩
  | unary _ op => exact op.isWord_text
  | binary _ op => exact op.isWord_text
  | _ => cases hkind

/-- The prefix form of an expression with names of the grammar and finite numbers has words as
they should be. -/
theorem proper_sexp {e : Expr Mark} (h : e.Every Lexical) : e.sexp.Proper := by
  induction h with
  | @node e here _ ih =>
    rw [sexp_eq]
    have hparams : ∀ name ∈ e.head.params, Sexp.IsWord name := fun name hname =>
      isWord_name [] (params_lexical here name hname) rfl
    exact Head.proper_sexp (isWord_head here) hparams (List.forall_mem_map.mpr ih)

/-- No expression has the form of an open bound. -/
theorem isOpen_sexp {e : Expr Mark} (h : e.Lexical) : e.sexp.isOpen = false := by
  have hnumber {u : List Char} (h : IsRun isNumberChar u) : (Sexp.word u).isOpen = false := by
    unfold Sexp.isOpen
    split
    · rename_i heq
      cases heq
      exact absurd h.2 (by decide)
    · rfl
  rw [sexp_eq]
  cases e with
  | literal _ value =>
    cases value with
    | int value =>
      obtain ⟨hne, hall⟩ := integer_isRun value.toInt
      exact hnumber ⟨hne, List.all_eq_true.mpr fun c hc =>
        isNumberChar_of_isIntegerChar (List.all_eq_true.mp hall c hc)⟩
    | float value => exact hnumber (Binary64.plainText_spec h).1
    | string value => rfl
  | _ => rfl

/-- A layer of the prefix form gives the head and the forms of the parts back. -/
theorem layer?_sexp {e : Expr Mark} (h : e.Every Lexical) :
    e.sexp.layer? = some (e.head, e.parts.map sexp) := by
  have hpart {part : Expr Mark} (hpart : part ∈ e.parts) : part.sexp.isOpen = false :=
    isOpen_sexp (h.part hpart).here
  cases e with
  | literal _ value =>
    rw [sexp_eq]
    cases value with
    | int value =>
      have hmark : (Text.integer value.toInt).any isFloatMark = false := by
        refine List.any_eq_false.mpr fun c hc => Bool.eq_false_iff.mp ?_
        exact isFloatMark_of_isIntegerChar (List.all_eq_true.mp (integer_isRun _).2 c hc)
      simp [head, parts, Head.sexp, Sexp.layer?, hmark]
    | float value =>
      simp [head, parts, Head.sexp, Sexp.layer?, (Binary64.plainText_spec h.here).2.1]
    | string value => rfl
  | unary _ op operand =>
    rw [sexp_eq]
    simp [head, parts, Head.sexp, Sexp.layer?, op.ofKeyword?_text]
  | binary _ op left right =>
    rw [sexp_eq]
    simp [head, parts, Head.sexp, Sexp.layer?, op.ofKeyword?_text]
  | dict _ entries =>
    rw [sexp_dict]
    refine (Sexp.layer?_keyword (show Kind.dict ∈ Kind.keyworded by decide) _).trans ?_
    simp [head, parts, Sexp.keywordLayer, List.flatMap_map, List.map_flatMap, Sexp.members]
  | slice _ base lower upper =>
    rw [sexp_slice]
    refine (Sexp.layer?_keyword (show Kind.slice ∈ Kind.keyworded by decide) _).trans ?_
    cases lower <;> cases upper <;>
      simp_all [head, parts, Sexp.keywordLayer, Sexp.openBound, Sexp.isOpen]
  | lambda _ params body =>
    rw [sexp_eq]
    refine (Sexp.layer?_keyword (show Kind.lambda ∈ Kind.keyworded by decide) _).trans ?_
    simp [head, parts, Sexp.keywordLayer, Sexp.members, Sexp.wordText, Function.comp_def]
  | list | ternary | falsy | lambdaCall | funcrefCall | index | var | option | env | register
  | call =>
    rw [sexp_eq]
    exact Sexp.layer?_keyword (by simp [head, Kind.keyworded]) _

/-- What has one s-expression is one tree, but for the marks. -/
theorem erase_eq_of_sexpr {Other : Type} {e : Expr Mark} {e' : Expr Other} (h : e.Every Lexical)
    (h' : e'.Every Lexical) (heq : e.sexpr = e'.sexpr) : e.erase = e'.erase := by
  have hshape := h.erase (q := Lexical) fun _ => Lexical.erase
  have hshape' := h'.erase (q := Lexical) fun _ => Lexical.erase
  have hsexp : e.erase.sexp = e'.erase.sexp :=
    (proper_sexp hshape).eq_of_text (proper_sexp hshape')
      (by rw [text_sexp, text_sexp, sexpr_erase, sexpr_erase, heq])
  refine eq_of_layers (fun a b ha hb hform => ?_) hshape hshape' hsexp
  have hlayer := layer?_sexp ha
  rw [hform, layer?_sexp hb] at hlayer
  obtain ⟨hhead, hparts⟩ := Prod.mk.inj (Option.some.inj hlayer)
  exact ⟨hhead.symm, hparts.symm⟩

/-- The s-expressions of two trees with names of the grammar and finite numbers are one text
exactly if the trees are equal but for their marks. -/
theorem sexpr_eq_iff {Other : Type} {e : Expr Mark} {e' : Expr Other} (h : e.Every Lexical)
    (h' : e'.Every Lexical) : e.sexpr = e'.sexpr ↔ e.erase = e'.erase := by
  refine ⟨erase_eq_of_sexpr h h', fun heq => ?_⟩
  rw [← sexpr_erase e, heq, sexpr_erase]

/-- A slice with its one bound above is not one with the same bound below. -/
theorem sexpr_eq_iff_slice :
    (slice (⟨0, 5⟩ : Span) (var ⟨0, 1⟩ none ['l']) none (some (literal ⟨3, 4⟩ (.int 1)))).sexpr ≠
      (slice () (var () none ['l']) (some (literal () (.int 1))) none).sexpr := by
  have name {Mark : Type} (mark : Mark) : (var mark none ['l']).Every Lexical :=
    .node ⟨by simp, by decide⟩ nofun
  have one {Mark : Type} (mark : Mark) : (literal mark (.int 1)).Every Lexical :=
    .node trivial nofun
  refine fun heq => absurd ((sexpr_eq_iff ?_ ?_).mp heq) (by simp)
  · exact .node trivial (by simp [parts, name, one])
  · exact .node trivial (by simp [parts, name, one])

end Expr

end Vimscript
