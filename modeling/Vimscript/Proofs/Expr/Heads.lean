import Vimscript.Proofs.Decimal.Words
import Vimscript.Proofs.Expr.Printed
import Vimscript.Proofs.Expr.Refusals

/-!
# Heads and parts

An expression is a head over its parts. The head has the kind of the node and the word that the
node shows, be it a constant, a name or an operator, and says which bounds of a slice there are. A
form of an expression that is made layer by layer, out of the head of a node and the forms of its
parts, determines the expression if each layer gives the head and the parts back.
-/

namespace Vimscript

open Text

/-- The kinds of nodes, among which constants have three. -/
inductive Kind where
  | int | float | string | list | dict | var | option | env | register | unary | binary | ternary
  | falsy | call | lambda | lambdaCall | funcrefCall | slice | index
deriving DecidableEq

/-- A node of an expression without its parts. -/
structure Head where
  kind : Kind
  /-- The constant, the name or the operator, if the node has one. -/
  word : List Char := []
  /-- The parameters of a lambda. -/
  params : List (List Char) := []
  /-- Whether a slice has a lower bound. -/
  lower : Bool := false
  /-- Whether a slice has an upper bound. -/
  upper : Bool := false
deriving DecidableEq

namespace Scope

/-- A scope in front of a name, if there is one, and the name. -/
def split : List Char → Option Scope × List Char
  | letter :: ':' :: name =>
    match ofText? [letter] with
    | some scope => (some scope, name)
    | none => (none, letter :: ':' :: name)
  | name => (none, name)

/-- A name without colons is told from the scope in front of it. -/
theorem split_optionalText (scope : Option Scope) {name : List Char} (h : ':' ∉ name) :
    split (optionalText scope ++ name) = (scope, name) := by
  cases scope with
  | some scope => cases scope <;> rfl
  | none =>
    rw [optionalText, List.nil_append]
    unfold split
    split
    · exact (h (by simp)).elim
    · rfl

end Scope

/-- The members of a list two by two. -/
def pairs {α : Type} : List α → List (α × α)
  | first :: second :: rest => (first, second) :: pairs rest
  | _ => []

/-- Pairs written one behind the other are paired up again. -/
theorem pairs_flatMap {α : Type} (entries : List (α × α)) :
    pairs (entries.flatMap fun entry => [entry.1, entry.2]) = entries := by
  induction entries with
  | nil => rfl
  | cons entry rest ih => exact congrArg (entry :: ·) ih

/-- Both sides of a pair are among the members. -/
theorem mem_of_mem_pairs {α : Type} {entry : α × α} :
    ∀ {members : List α}, entry ∈ pairs members → entry.1 ∈ members ∧ entry.2 ∈ members
  | first :: second :: rest, h => by
    rcases List.mem_cons.mp h with rfl | h
    · simp
    · have := mem_of_mem_pairs h
      simp [this]

/-- They are paired up again after a function is applied to each. -/
theorem pairs_map_flatMap {α β : Type} (f : α → β) (entries : List (α × α)) :
    pairs ((entries.flatMap fun entry => [entry.1, entry.2]).map f) =
      entries.map fun entry => (f entry.1, f entry.2) := by
  rw [← pairs_flatMap (entries.map _), List.map_flatMap, List.flatMap_map]
  rfl

/-- Behind the first of several texts each other one stands behind the separator. -/
theorem intercalate_cons_eq (separator u : List Char) (us : List (List Char)) :
    separator.intercalate (u :: us) = u ++ us.flatMap (separator ++ ·) := by
  induction us generalizing u with
  | nil => simp
  | cons v us ih =>
    rw [List.intercalate_cons_cons, ih, List.flatMap_cons]
    simp only [List.append_assoc]

/-- Lists are equal if their images are and images of members tell the members apart. -/
theorem eq_of_map_eq {α β : Type} {f : α → β} {xs ys : List α} (h : xs.map f = ys.map f)
    (hf : ∀ x ∈ xs, ∀ y ∈ ys, f x = f y → x = y) : xs = ys := by
  induction xs generalizing ys with
  | nil => exact (List.map_eq_nil_iff.mp h.symm).symm
  | cons x xs ih =>
    obtain ⟨y, ys, rfl, hhead, htail⟩ := List.map_eq_cons_iff.mp h.symm
    rw [hf x List.mem_cons_self y List.mem_cons_self hhead.symm,
      ih htail.symm fun x hx y hy => hf x (.tail _ hx) y (.tail _ hy)]

/-- The lower and the upper bound out of those that a slice has. -/
def Head.bounds {α : Type} (h : Head) (rest : List α) : Option α × Option α :=
  (if h.lower then rest.head? else none, if h.upper then rest.getLast? else none)

/-- The bounds of a slice are told from whether they are there, whatever is made of them. -/
theorem Head.bounds_map {α β : Type} (f : α → β) {h : Head} {lower upper : Option α}
    (hlower : h.lower = lower.isSome) (hupper : h.upper = upper.isSome) :
    h.bounds ((lower.toList ++ upper.toList).map f) = (lower.map f, upper.map f) := by
  rw [bounds, hlower, hupper]
  cases lower <;> cases upper <;> rfl

/-- The bounds are among the parts. -/
theorem Head.mem_of_mem_bounds {α : Type} {h : Head} {rest : List α} {bound : α}
    (hbound : bound ∈ (h.bounds rest).1 ∨ bound ∈ (h.bounds rest).2) : bound ∈ rest := by
  simp only [bounds, Option.mem_def, Option.ite_none_right_eq_some] at hbound
  rcases hbound with ⟨-, h⟩ | ⟨-, h⟩
  · exact List.mem_of_mem_head? h
  · exact List.mem_of_getLast? h

/-- The expression of a head and its parts. -/
def Head.build? (h : Head) (parts : List (Expr Unit)) : Option (Expr Unit) :=
  let name := Scope.split (if h.kind = .option then h.word.tail else h.word)
  match h.kind, parts with
  | .int, [] => (integerOf? h.word).map fun n => .literal () (.int (Int64.ofInt n))
  | .float, [] => (Binary64.ofText? h.word).map fun x => .literal () (.float x)
  | .string, [] => some (.literal () (.string h.word))
  | .list, items => some (.list () items)
  | .dict, parts => some (.dict () (pairs parts))
  | .var, [] => some (.var () name.1 name.2)
  | .option, [] => some (.option () name.1 name.2)
  | .env, [] => some (.env () h.word.tail)
  | .register, [] => h.word.getLast?.map (.register ())
  | .unary, [operand] => (UnaryOp.ofToken? h.word).map fun op => .unary () op operand
  | .binary, [left, right] => (BinaryOp.ofToken? h.word).map fun op => .binary () op left right
  | .ternary, [condition, ifTrue, ifFalse] => some (.ternary () condition ifTrue ifFalse)
  | .falsy, [left, right] => some (.falsy () left right)
  | .call, args => some (.call () name.1 name.2 args)
  | .lambda, [body] => some (.lambda () h.params body)
  | .lambdaCall, callee :: args => some (.lambdaCall () callee args)
  | .funcrefCall, callee :: args => some (.funcrefCall () callee args)
  | .slice, base :: rest => some (.slice () base (h.bounds rest).1 (h.bounds rest).2)
  | .index, [base, key] => some (.index () base key)
  | _, _ => none

namespace Expr

variable {Mark : Type}

/-- The names of a node have the characters that names have in the grammar, its register is one,
and its number is finite. -/
def Lexical : Expr Mark → Prop
  | literal _ (.float value) => value.isFinite = true
  | var _ _ name | option _ _ name | env _ name | call _ _ name _ => IsRun isNameChar name
  | register _ name => isRegisterName name = true
  | lambda _ params _ => ∀ name ∈ params, IsRun isNameChar name
  | _ => True

/-- What can be written can be told apart. -/
theorem WellSpelled.lexical {e : Expr Mark} (h : e.WellSpelled) : e.Lexical := by
  have hword (c : Char) (h : isWordChar c = true) : isNameChar c = true :=
    Bool.or_eq_true_iff.mpr (.inl h)
  have hrun {accepts : Char → Bool} {name : List Char} (hname : IsRun accepts name)
      (haccepts : ∀ c, accepts c = true → isNameChar c = true) : IsRun isNameChar name :=
    ⟨hname.1, List.all_eq_true.mpr fun c hc => haccepts c (List.all_eq_true.mp hname.2 c hc)⟩
  have hname {starts accepts : Char → Bool} {name : List Char} (h : IsName starts accepts name)
      (hstarts : ∀ c, starts c = true → accepts c = true) : IsRun accepts name :=
    ⟨by obtain ⟨c, v, rfl, -⟩ := h; exact List.cons_ne_nil _ _, all_of_isName hstarts h⟩
  cases e with
  | literal _ value =>
    cases value with
    | float value =>
      obtain ⟨rank, rfl⟩ := h
      rfl
    | _ => trivial
  | var _ scope name =>
    cases scope with
    | none => exact hname h fun _ => isNameChar_of_isNameStart
    | some _ => exact h
  | option => exact hrun (hname h.1 fun c hc => by simp [isWordChar, Char.isAlphanum, hc]) hword
  | env => exact hrun h hword
  | call => exact hname h fun _ => isNameChar_of_isNameStart
  | lambda =>
    refine fun name hmem => hrun (hname (h name hmem) fun c hc => ?_) hword
    rcases Bool.or_eq_true_iff.mp hc with hc | hc <;> simp [isWordChar, Char.isAlphanum, hc]
  | register => exact h
  | _ => trivial

/-- What a source is read as has names of the grammar and finite numbers in it. -/
theorem lexical_of_parseWithin {limits : Limits} {source : List Char} {e : Expr Span}
    (h : parseWithin limits source = .ok e) : e.Every Lexical :=
  (Tree.every_built_of_parseWithin h).mono fun _ hbuilt => hbuilt.wellSpelled.lexical

/-- Names, registers and numbers do not hang on marks. -/
theorem Lexical.erase {e : Expr Mark} (h : e.Lexical) : e.erase.Lexical := by
  cases e with
  | literal _ value => cases value <;> exact h
  | list | dict | lambdaCall | funcrefCall | slice => simp [Lexical]
  | call => simpa [Lexical] using h
  | _ => exact h

/-- The parts of a node without marks are its parts without marks. -/
theorem parts_erase (e : Expr Mark) : e.erase.parts = e.parts.map Expr.erase := by
  cases e <;> simp [parts, List.map_flatMap, List.flatMap_map]
  rename_i lower upper
  cases lower <;> cases upper <;> rfl

/-- A property of all nodes holds of them without marks if marks do not matter to it. -/
theorem Every.erase {p : Expr Mark → Prop} {q : Expr Unit → Prop} {e : Expr Mark}
    (h : e.Every p) (hpq : ∀ e, p e → q e.erase) : e.erase.Every q := by
  induction h with
  | node here _ ih =>
    refine .node (hpq _ here) fun e' he' => ?_
    rw [parts_erase] at he'
    obtain ⟨part, hpart, rfl⟩ := List.mem_map.mp he'
    exact ih part hpart

/-- A property of all nodes without marks holds of them with marks if marks do not matter to it. -/
theorem Every.of_erase {p : Expr Mark → Prop} {q : Expr Unit → Prop} {e : Expr Mark}
    (h : e.erase.Every q) (hpq : ∀ e : Expr Mark, q e.erase → p e) : e.Every p := by
  generalize herase : e.erase = e' at h
  induction h generalizing e with
  | node here _ ih =>
    subst herase
    refine .node (hpq e here) fun part hpart => ih part.erase ?_ rfl
    rw [parts_erase]
    exact List.mem_map_of_mem hpart

/-- The head of an expression. -/
def head : Expr Mark → Head
  | literal _ (.int value) => { kind := .int, word := Text.integer value.toInt }
  | literal _ (.float value) => { kind := .float, word := value.plainText }
  | literal _ (.string value) => { kind := .string, word := value }
  | list _ _ => { kind := .list }
  | dict _ _ => { kind := .dict }
  | var _ scope name => { kind := .var, word := Scope.optionalText scope ++ name }
  | option _ scope name => { kind := .option, word := '&' :: (Scope.optionalText scope ++ name) }
  | env _ name => { kind := .env, word := '$' :: name }
  | register _ name => { kind := .register, word := ['@', name] }
  | unary _ op _ => { kind := .unary, word := op.text }
  | binary _ op _ _ => { kind := .binary, word := op.text }
  | ternary _ _ _ _ => { kind := .ternary }
  | falsy _ _ _ => { kind := .falsy }
  | call _ scope name _ => { kind := .call, word := Scope.optionalText scope ++ name }
  | lambda _ params _ => { kind := .lambda, params := params }
  | lambdaCall _ _ _ => { kind := .lambdaCall }
  | funcrefCall _ _ _ => { kind := .funcrefCall }
  | slice _ _ lower upper => { kind := .slice, lower := lower.isSome, upper := upper.isSome }
  | index _ _ _ => { kind := .index }

/-- The parameters of a lexical lambda are names. -/
theorem params_lexical {e : Expr Mark} (h : e.Lexical) :
    ∀ name ∈ e.head.params, IsRun isNameChar name := by
  cases e with
  | literal _ value => cases value <;> exact List.forall_mem_nil _
  | lambda => exact h
  | _ => exact List.forall_mem_nil _

/-- No name has a colon in it. -/
theorem colon_not_mem {name : List Char} (h : IsRun isNameChar name) : ':' ∉ name :=
  fun hmem => absurd (List.all_eq_true.mp h.2 _ hmem) (by decide)

/-- An expression is built again from its head and its parts. -/
theorem build?_head {e : Expr Unit} (h : e.Lexical) : e.head.build? e.parts = some e := by
  cases e with
  | literal _ value =>
    cases value with
    | int value => simp [head, parts, Head.build?, integerOf?_integer]
    | float value => simp [head, parts, Head.build?, (Binary64.plainText_spec h).2.2]
    | string value => rfl
  | dict _ entries => simp [head, parts, Head.build?, pairs_flatMap]
  | var _ scope name | option _ scope name | call _ scope name args =>
    simp [head, parts, Head.build?, Scope.split_optionalText scope (colon_not_mem h)]
  | unary _ op operand => simp [head, parts, Head.build?, op.ofToken?_text]
  | binary _ op left right => simp [head, parts, Head.build?, op.ofToken?_text]
  | slice _ base lower upper => cases lower <;> cases upper <;> rfl
  | _ => rfl

/-- Expressions with one head and the same parts are equal. -/
theorem eq_of_head {e e' : Expr Unit} (h : e.Lexical) (h' : e'.Lexical) (hhead : e.head = e'.head)
    (hparts : e.parts = e'.parts) : e = e' := by
  have hbuild := build?_head h
  rw [hhead, hparts, build?_head h'] at hbuild
  exact (Option.some.inj hbuild).symm

/-- Parts are smaller than their node. -/
theorem sizeOf_lt_of_mem_parts {e part : Expr Mark} (h : part ∈ e.parts) :
    sizeOf part < sizeOf e := by
  cases e with
  | literal | var | option | env | register => cases h
  | list _ items | call _ _ _ items =>
    have := List.sizeOf_lt_of_mem (show part ∈ items from h)
    simp
    omega
  | dict _ entries =>
    obtain ⟨entry, hentry, hpart⟩ := List.mem_flatMap.mp h
    have := List.sizeOf_lt_of_mem hentry
    obtain ⟨key, value⟩ := entry
    simp at hpart this ⊢
    rcases hpart with rfl | rfl <;> omega
  | lambdaCall _ callee args | funcrefCall _ callee args =>
    rcases List.mem_cons.mp h with rfl | h
    · simp
      omega
    · have := List.sizeOf_lt_of_mem h
      simp
      omega
  | slice _ base lower upper =>
    simp [parts] at h
    rcases h with rfl | rfl | rfl <;> simp <;> omega
  | unary | binary | ternary | falsy | lambda | index =>
    simp [parts] at h ⊢
    grind

/-- What holds of a node if it holds of its parts holds of every expression. -/
theorem parts_induction {motive : Expr Mark → Prop}
    (node : ∀ e, (∀ part ∈ e.parts, motive part) → motive e) (e : Expr Mark) : motive e :=
  node e fun part _ => parts_induction node part
termination_by sizeOf e
decreasing_by exact sizeOf_lt_of_mem_parts ‹_›

/-- A form of an expression made of its head and the forms of its parts. -/
def fold {Form : Type} (layer : Head → List Form → Form) (e : Expr Mark) : Form :=
  layer e.head (e.parts.attach.map fun part => part.1.fold layer)
termination_by sizeOf e
decreasing_by exact sizeOf_lt_of_mem_parts part.2

/-- A fold is a layer over the folds of the parts. -/
theorem fold_eq {Form : Type} (layer : Head → List Form → Form) (e : Expr Mark) :
    e.fold layer = layer e.head (e.parts.map (fold layer)) := by
  rw [fold]
  simp

/-- The head of a node shows no mark. -/
theorem head_erase (e : Expr Mark) : e.erase.head = e.head := by
  cases e with
  | literal _ value => cases value <;> rfl
  | slice => simp [head]
  | list | dict | call | lambdaCall | funcrefCall => simp [head]
  | _ => rfl

/-- Marks are no part of such a form. -/
theorem fold_erase {Form : Type} (layer : Head → List Form → Form) (e : Expr Mark) :
    e.erase.fold layer = e.fold layer := by
  induction e using parts_induction with
  | node e ih =>
    rw [fold_eq, fold_eq, head_erase, parts_erase, List.map_map]
    exact congrArg (layer e.head) (List.map_congr_left ih)

/-- A form determines the expression if it tells the head and the forms of the parts. -/
theorem eq_of_layers {Form : Type} {form : Expr Unit → Form}
    (hlayer : ∀ e e' : Expr Unit, e.Every Lexical → e'.Every Lexical → form e = form e' →
      e.head = e'.head ∧ e.parts.map form = e'.parts.map form)
    {e e' : Expr Unit} (h : e.Every Lexical) (h' : e'.Every Lexical) (hform : form e = form e') :
    e = e' := by
  induction h generalizing e' with
  | node here parts ih =>
    obtain ⟨hhead, hparts⟩ := hlayer _ _ (.node here parts) h' hform
    exact eq_of_head here h'.here hhead (eq_of_map_eq hparts fun part hpart part' hpart' =>
      ih part hpart (h'.part hpart'))

end Expr

end Vimscript
