import Vimscript.Proofs.Expr.Heads

/-!
# The layout of printed expressions

A printed node is a row of stretches: texts of its own, and parts, each at a level below which it
may not bind without parentheses. `Expr.source_eq` says that the layout is what is printed. It shows
each pair of parentheses that printing adds, however deep inside: `Expr.Encloses` names what stands
in front of the pair, in it and behind it.
-/

namespace Vimscript

open Text

/-- A stretch of a printed node: a text, or a part at the level at which it has to bind. -/
inductive Stretch (Mark : Type) where
  | text (chars : List Char)
  | part (level : Nat) (e : Expr Mark)

/-- Without parentheses a text stays as it is. -/
@[simp] theorem Expr.enclose_false (u : List Char) : enclose false u = u := rfl

namespace Stretch

variable {Mark : Type}

/-- What is printed for a stretch. -/
def source : Stretch Mark → List Char
  | text chars => chars
  | part level e => Expr.enclose (e.binding < level) e.source

/-- What is printed for stretches one after the other. -/
def print (stretches : List (Stretch Mark)) : List Char := stretches.flatMap source

/-- The part that a stretch is, if it is none of the texts. -/
def part? : Stretch Mark → Option (Expr Mark)
  | text _ => none
  | part _ e => some e

/-- The stretch without any marks. -/
def erase : Stretch Mark → Stretch Unit
  | text chars => text chars
  | part level e => part level e.erase

/-- Groups of stretches with a comma and a blank between any two. -/
def row : List (List (Stretch Mark)) → List (Stretch Mark)
  | [] => []
  | [group] => group
  | group :: rest => group ++ text ", ".toList :: row rest

/-- The stretches of items in a row. -/
def items (es : List (Expr Mark)) : List (Stretch Mark) := row (es.map fun e => [part 0 e])

/-- The stretches of entries in a row. -/
def entries (es : List (Expr Mark × Expr Mark)) : List (Stretch Mark) :=
  row (es.map fun entry => [part 0 entry.1, text ": ".toList, part 0 entry.2])

variable {stretches : List (Stretch Mark)}

/-- No stretches print nothing. -/
@[simp] theorem print_nil : print ([] : List (Stretch Mark)) = [] := rfl

/-- Stretches print one after the other. -/
@[simp] theorem print_cons (s : Stretch Mark) :
    print (s :: stretches) = s.source ++ print stretches :=
  List.flatMap_cons

/-- So do lists of stretches. -/
@[simp] theorem print_append (more : List (Stretch Mark)) :
    print (stretches ++ more) = print stretches ++ print more := List.flatMap_append

/-- A stretch of text prints as the text. -/
@[simp] theorem source_text (chars : List Char) : (text chars : Stretch Mark).source = chars := rfl

/-- Nothing binds looser than level zero. -/
@[simp] theorem source_part_zero (e : Expr Mark) : (part 0 e).source = e.source := by
  rw [source, decide_eq_false (Nat.not_lt_zero _), Expr.enclose_false]

/-- The parts of a row are those of its groups. -/
theorem parts_row (groups : List (List (Stretch Mark))) :
    (row groups).filterMap part? = groups.flatMap (List.filterMap part?) := by
  induction groups with
  | nil => rfl
  | cons group rest ih =>
    cases rest with
    | nil => simp [row]
    | cons next rest =>
      rw [row, List.filterMap_append, List.filterMap_cons_none rfl, ih]
      · rfl
      · simp

/-- The parts of a layout of items are the items. -/
theorem parts_items (es : List (Expr Mark)) : (items es).filterMap part? = es := by
  rw [items, parts_row, List.flatMap_map]
  exact List.flatMap_singleton' es

/-- The parts of a layout of entries are their keys and values. -/
theorem parts_entries (es : List (Expr Mark × Expr Mark)) :
    (entries es).filterMap part? = es.flatMap fun entry => [entry.1, entry.2] := by
  rw [entries, parts_row, List.flatMap_map]
  rfl

/-- What keeps the separators can be mapped into a row. -/
theorem map_row {Other : Type} (f : Stretch Mark → Stretch Other)
    (hf : f (text ", ".toList) = text ", ".toList) (groups : List (List (Stretch Mark))) :
    (row groups).map f = row (groups.map (List.map f)) := by
  induction groups with
  | nil => rfl
  | cons group rest ih =>
    cases rest with
    | nil => rfl
    | cons next rest =>
      rw [row, List.map_append, List.map_cons, ih, hf]
      · rfl
      · simp

/-- Items are printed as they are laid out. -/
theorem sourceItems_eq_print (es : List (Expr Mark)) : Expr.sourceItems es = print (items es) := by
  induction es with
  | nil => rfl
  | cons e rest ih =>
    cases rest with
    | nil => simp [Expr.sourceItems, items, row]
    | cons next rest =>
      rw [Expr.sourceItems, ih]
      · simp [items, row]
      · simp

/-- Entries are printed as they are laid out. -/
theorem sourceEntries_eq_print (es : List (Expr Mark × Expr Mark)) :
    Expr.sourceEntries es = print (entries es) := by
  induction es with
  | nil => rfl
  | cons e rest ih =>
    cases rest with
    | nil => simp [Expr.sourceEntries, entries, row]
    | cons next rest =>
      rw [Expr.sourceEntries, ih]
      · simp [entries, row]
      · simp

end Stretch

namespace Expr

variable {Mark : Type}

open Stretch

/-- The stretches of a node. -/
def layout : Expr Mark → List (Stretch Mark)
  | literal _ value => [text value.source]
  | list _ es => text ['['] :: items es ++ [text [']']]
  | dict _ es => text ['\x7b'] :: entries es ++ [text ['\x7d']]
  | var _ scope name => [text (Scope.optionalText scope ++ name)]
  | option _ scope name => [text ('&' :: Scope.optionalText scope ++ name)]
  | env _ name => [text ('$' :: name)]
  | register _ name => [text ['@', name]]
  | unary _ op operand => [text op.text, part unaryBinding operand]
  | binary _ op left right =>
    [part op.tier left, text (' ' :: op.text ++ [' ']), part (op.tier + 1) right]
  | ternary _ condition ifTrue ifFalse =>
    [part looseBinding condition, text " ? ".toList, part 0 ifTrue, text " : ".toList,
      part 0 ifFalse]
  | falsy _ left right => [part looseBinding left, text " ?? ".toList, part 0 right]
  | call _ scope name args =>
    text (Scope.optionalText scope ++ name ++ ['(']) :: items args ++ [text [')']]
  | lambda _ params body =>
    [text ('\x7b' :: (if params = [] then [] else commaSeparated params ++ [' ']) ++ "-> ".toList),
      part 0 body, text ['\x7d']]
  | lambdaCall _ callee args | funcrefCall _ callee args =>
    part suffixBinding callee :: text ['('] :: items args ++ [text [')']]
  | slice _ base lower upper =>
    part suffixBinding base :: text ['['] ::
      lower.toList.flatMap (fun e => [part 0 e, text [' ']]) ++ text [':'] ::
        upper.toList.flatMap (fun e => [text [' '], part 0 e]) ++ [text [']']]
  | index _ base key => [part suffixBinding base, text ['['], part 0 key, text [']']]

/-- The layout of a node is what is printed for it. -/
theorem source_eq (e : Expr Mark) : e.source = print e.layout := by
  cases e with
  | list | call | lambdaCall | funcrefCall =>
    simp [source, layout, sourceItems_eq_print, Stretch.source]
  | dict => simp [source, layout, sourceEntries_eq_print]
  | slice _ base lower upper =>
    cases lower <;> cases upper <;> simp [source, layout, sourceLower, sourceUpper, Stretch.source]
  | _ => simp [source, layout, Stretch.source]

/-- The parts in the layout of a node are the parts of the node. -/
theorem parts_layout (e : Expr Mark) : e.layout.filterMap part? = e.parts := by
  cases e with
  | slice _ base lower upper =>
    cases lower <;> cases upper <;> simp [layout, parts, part?, List.filterMap_cons]
  | _ => simp [layout, parts, part?, List.filterMap_cons, parts_items, parts_entries]

/-- What a layout holds is a part of the node. -/
theorem mem_parts_of_mem_layout {e p : Expr Mark} {level : Nat} (h : part level p ∈ e.layout) :
    p ∈ e.parts := by
  rw [← parts_layout]
  exact List.mem_filterMap.mpr ⟨_, h, rfl⟩

/-- How tightly an expression binds shows no mark. -/
theorem binding_erase (e : Expr Mark) : e.erase.binding = e.binding := by
  cases e <;> rfl

/-- Neither does its layout. -/
theorem layout_erase (e : Expr Mark) : e.erase.layout = e.layout.map Stretch.erase := by
  have hitems (es : List (Expr Mark)) : items (es.map erase) = (items es).map Stretch.erase := by
    simp [items, map_row Stretch.erase rfl, Function.comp_def, Stretch.erase]
  have hentries (es : List (Expr Mark × Expr Mark)) :
      entries (es.map fun entry => (entry.1.erase, entry.2.erase)) =
        (entries es).map Stretch.erase := by
    simp [entries, map_row Stretch.erase rfl, Function.comp_def, Stretch.erase]
  cases e with
  | slice _ base lower upper => cases lower <;> cases upper <;> simp [layout, Stretch.erase]
  | _ => simp [layout, Stretch.erase, hitems, hentries]

/-- Marks are not printed. -/
theorem source_erase (e : Expr Mark) : e.erase.source = e.source := by
  induction e using parts_induction with
  | node e ih =>
    rw [source_eq, source_eq, layout_erase, print, print, List.flatMap_map]
    refine List.flatMap_congr fun s hs => ?_
    cases s with
    | text chars => rfl
    | part level p =>
      rw [Stretch.erase, Stretch.source, Stretch.source, ih p (mem_parts_of_mem_layout hs),
        binding_erase]

/-- The parenthesis in front of a part at a level, if it needs one. -/
def opening (level : Nat) (e : Expr Mark) : List Char := if e.binding < level then ['('] else []

/-- The parenthesis behind a part at a level, if it needs one. -/
def closing (level : Nat) (e : Expr Mark) : List Char := if e.binding < level then [')'] else []

/-- A part is printed in parentheses or without, as its place wants. -/
theorem source_part (level : Nat) (e : Expr Mark) :
    (part level e).source = e.opening level ++ e.source ++ e.closing level := by
  rw [Stretch.source, enclose, opening, closing]
  by_cases h : e.binding < level
  · rw [if_pos (decide_eq_true h), if_pos h, if_pos h]
    rfl
  · rw [if_neg (by simpa using h), if_neg h, if_neg h, List.nil_append, List.append_nil]

/-- Somewhere in a printed expression parentheses stand around a part because it binds too loosely:
with what is printed in front of the pair, in it and behind it. -/
inductive Encloses : Expr Mark → List Char → List Char → List Char → Prop where
  | around {e p : Expr Mark} {level : Nat} {left right : List (Stretch Mark)}
    (h : e.layout = left ++ part level p :: right) (loose : p.binding < level) :
    Encloses e (print left) p.source (print right)
  | within {e p : Expr Mark} {level : Nat} {left right : List (Stretch Mark)}
    {before inside after : List Char} (h : e.layout = left ++ part level p :: right)
    (h' : Encloses p before inside after) :
    Encloses e (print left ++ p.opening level ++ before) inside
      (after ++ p.closing level ++ print right)

/-- The pair stands where it is said to stand. -/
theorem Encloses.source_eq {e : Expr Mark} {before inside after : List Char}
    (h : e.Encloses before inside after) : e.source = before ++ '(' :: inside ++ ')' :: after := by
  induction h with
  | around h loose =>
    rw [Expr.source_eq, h, print_append, print_cons, source_part, opening, closing, if_pos loose,
      if_pos loose]
    simp
  | within h _ ih =>
    rw [Expr.source_eq, h, print_append, print_cons, source_part, ih]
    simp

end Expr

end Vimscript
