import Vimscript.Proofs.Expr.Nested
import Vimscript.Proofs.Rose

/-!
# Expressions as trees of rows

An outline lists the rows of a tree: the head of a node, below it the names of its groups of parts,
and below each name the parts. The text of a row tells whether it is a head or a name, and which,
so its column tells its depth although names stand at a fixed distance from the head while levels
are scaled. The tree of rows gives the head of each node and the parts back.
-/

namespace Vimscript

open Text

/-- What a name in an outline stands for. -/
inductive Role where
  | elements | entries | key | value | operand | left | right | condition | ifTrue | ifFalse | args
  | body | callee | base | lower | upper | index
deriving DecidableEq

/-- What the text of a row begins with: the kind of a node or the name of a group of parts. -/
inductive Title where
  | node (kind : Kind)
  | part (role : Role)
deriving DecidableEq

namespace Role

/-- The name of a group of parts. -/
def name : Role → String
  | elements => "elements"
  | entries => "entries"
  | key => "key"
  | value => "value"
  | operand => "operand"
  | left => "left"
  | right => "right"
  | condition => "condition"
  | ifTrue => "if_true"
  | ifFalse => "if_false"
  | args => "args"
  | body => "body"
  | callee => "callee"
  | base => "base"
  | lower => "from"
  | upper => "to"
  | index => "index"

/-- Keys and values are named one step deeper than other parts. -/
def isEntry : Role → Bool
  | key | value => true
  | _ => false

end Role

/-- The text in front of what a node shows. -/
def Kind.caption : Kind → String
  | int => "Literal(Int("
  | float => "Literal(Float("
  | string => "Literal(String("
  | list => "List"
  | dict => "Dict"
  | var => "Variable("
  | option => "Option("
  | env => "Env("
  | register => "Register("
  | unary => "Unary ("
  | binary => "Binary ("
  | ternary => "Ternary"
  | falsy => "Falsy"
  | call => "FunctionCall ("
  | lambda => "Lambda ("
  | lambdaCall => "LambdaCall"
  | funcrefCall => "FuncrefCall"
  | slice => "Sublist"
  | index => "Index"

/-- The text behind what a node shows. -/
def Kind.closer : Kind → String
  | int | float | string => "))"
  | list | dict | ternary | falsy | lambdaCall | funcrefCall | slice | index => ""
  | _ => ")"

namespace Title

/-- The text that a row begins with. -/
def opener : Title → String
  | node kind => kind.caption
  | part role => role.name

/-- The text that a row ends in. -/
def closer : Title → String
  | node kind => kind.closer
  | part _ => ":"

/-- Three depths make a level: that of heads, that of names, and that of keys and values. -/
def place : Title → Nat
  | node _ => 0
  | part role => if role.isEntry then 2 else 1

/-- How much deeper than a row the rows below it stand. Names stand right below heads, keys and
values right below the name of their group, and other heads at the place of heads two levels below
the head, or three if a key or a value is between. -/
def step : Title → Nat
  | node _ => 1
  | part role => if role = .entries then 1 else if role.isEntry then 7 else 5

/-- Every title. -/
def all : List Title :=
  [Kind.int, .float, .string, .list, .dict, .var, .option, .env, .register, .unary, .binary,
    .ternary, .falsy, .call, .lambda, .lambdaCall, .funcrefCall, .slice, .index].map node ++
  [Role.elements, .entries, .key, .value, .operand, .left, .right, .condition, .ifTrue, .ifFalse,
    .args, .body, .callee, .base, .lower, .upper, .index].map part

/-- The list of titles lacks none. -/
theorem mem_all (title : Title) : title ∈ all := by
  cases title with
  | node kind => cases kind <;> decide
  | part role => cases role <;> decide

/-- No title begins another. -/
theorem opener_prefix_free : ∀ a ∈ all, ∀ b ∈ all, a.opener.toList <+: b.opener.toList → a = b := by
  decide +kernel

/-- No title holds a line feed. -/
theorem newline_not_mem_text : ∀ a ∈ all, '\n' ∉ a.opener.toList ∧ '\n' ∉ a.closer.toList := by
  decide +kernel

/-- No title begins with a blank. -/
theorem opener_head : ∀ a ∈ all, a.opener.toList.head?.map (· == ' ') = some false := by
  decide +kernel

/-- No title begins another one, so the title of a row is known from its text. -/
theorem eq_of_opener_append {a b : Title} {u v : List Char}
    (h : a.opener.toList ++ u = b.opener.toList ++ v) : a = b := by
  have hu : a.opener.toList <+: a.opener.toList ++ u := List.prefix_append _ _
  have hv : b.opener.toList <+: a.opener.toList ++ u := h ▸ List.prefix_append _ _
  rcases List.prefix_or_prefix_of_prefix hu hv with hab | hba
  · exact opener_prefix_free a (mem_all a) b (mem_all b) hab
  · exact (opener_prefix_free b (mem_all b) a (mem_all a) hba).symm

end Title

/-- What a row of an outline says: its title and what the node shows. -/
structure Caption where
  /-- What the text begins with. -/
  title : Title
  /-- What the node shows; a name shows nothing more. -/
  inner : List Char
deriving DecidableEq

namespace Caption

/-- The name of a group of parts. -/
def part (role : Role) : Caption := ⟨.part role, []⟩

/-- The text of a caption. -/
def text (c : Caption) : List Char := c.title.opener.toList ++ (c.inner ++ c.title.closer.toList)

/-- A caption is told from its text. -/
theorem text_injective : Function.Injective text := by
  rintro ⟨title, inner⟩ ⟨title', inner'⟩ h
  obtain rfl : title = title' := Title.eq_of_opener_append h
  obtain rfl := List.append_cancel_right (List.append_cancel_left h)
  rfl

/-- A caption does not begin with a blank. -/
theorem endsBefore_text (c : Caption) : EndsBefore (· == ' ') c.text := by
  obtain ⟨d, hd, hne⟩ := Option.map_eq_some_iff.mp (Title.opener_head _ (Title.mem_all c.title))
  intro e he
  rw [text, List.head?_append, hd, Option.some_or, Option.some.injEq] at he
  exact he ▸ hne

end Caption

/-- The column at which the rows of a depth begin. -/
def column (indent depth : Nat) : Nat := depth / 3 * indent + 2 * (depth % 3)

/-- The line of a row. -/
def rowLine (indent : Nat) (row : Nat × Caption) : List Char :=
  List.replicate (column indent row.1) ' ' ++ row.2.text

/-- A row whose depth goes with its title and whose text is within one line. -/
def IsRow (row : Nat × Caption) : Prop := row.1 % 3 = row.2.title.place ∧ '\n' ∉ row.2.inner

/-- The line of a row is one line. -/
theorem newline_not_mem_rowLine (indent : Nat) {row : Nat × Caption} (h : IsRow row) :
    '\n' ∉ rowLine indent row := by
  obtain ⟨hopener, hcloser⟩ := Title.newline_not_mem_text _ (Title.mem_all row.2.title)
  simp [rowLine, Caption.text, hopener, hcloser, h.2]

/-- The line of a row tells the row, as the title tells which column of its level it begins at. -/
theorem rowLine_injOn {indent : Nat} (hindent : 1 ≤ indent) {row row' : Nat × Caption}
    (h : IsRow row) (h' : IsRow row') (heq : rowLine indent row = rowLine indent row') :
    row = row' := by
  obtain ⟨depth, caption⟩ := row
  obtain ⟨depth', caption'⟩ := row'
  have hblank (n : Nat) : (List.replicate n ' ').all (· == ' ') = true := by simp
  obtain ⟨hcolumn, htext⟩ := run_append_inj (hblank (column indent depth)) caption.endsBefore_text
    (hblank (column indent depth')) caption'.endsBefore_text heq
  obtain rfl := Caption.text_injective htext
  have hwidth : column indent depth = column indent depth' := by
    simpa using congrArg List.length hcolumn
  have hplace : depth % 3 = depth' % 3 := h.1.trans h'.1.symm
  rw [column, column, hplace, Nat.add_right_cancel_iff] at hwidth
  have hlevel : depth / 3 = depth' / 3 := Nat.eq_of_mul_eq_mul_right hindent hwidth
  exact Prod.ext (by simp only; omega) rfl

/-- The children of a row with a name, if there are any, below the name. -/
def group (role : Role) (parts : List (Rose Caption)) : List (Rose Caption) :=
  if parts = [] then [] else [.node (.part role) parts]

/-- The names of the parts that stand alone below their names; a slice has those of its bounds. -/
def Kind.roles (lower upper : Bool) : Kind → List Role
  | unary => [.operand]
  | binary | falsy => [.left, .right]
  | ternary => [.condition, .ifTrue, .ifFalse]
  | lambda => [.body]
  | lambdaCall | funcrefCall => [.callee]
  | slice => .base :: ((if lower then [.lower] else []) ++ if upper then [.upper] else [])
  | index => [.base, .index]
  | _ => []

namespace Head

/-- What a node shows in its row. -/
def inner (h : Head) : List Char :=
  match h.kind with
  | .string => Escaped.encode h.word
  | .lambda => ", ".toList.intercalate h.params
  | _ => h.word

/-- A node shows its word, unless it is a string or a lambda. -/
theorem inner_of_ne {h : Head} (hstring : h.kind ≠ .string) (hlambda : h.kind ≠ .lambda) :
    h.inner = h.word := by
  unfold inner
  split <;> simp_all

/-- The names of the parts that stand alone below their names. -/
def roles (h : Head) : List Role := h.kind.roles h.lower h.upper

/-- The name of the other parts, which stand below it together. -/
def restRole (h : Head) : Role := if h.kind = .list then .elements else .args

/-- The parts of a node below their names. -/
def groups (h : Head) (parts : List (Rose Caption)) : List (Rose Caption) :=
  if h.kind = .dict then
    group .entries ((pairs parts).flatMap fun entry =>
      [.node (.part .key) [entry.1], .node (.part .value) [entry.2]])
  else
    List.zipWith (fun role part => .node (.part role) [part]) h.roles parts ++
      group h.restRole (parts.drop h.roles.length)

/-- The tree of rows of a node and its parts. -/
def rose (h : Head) (parts : List (Rose Caption)) : Rose Caption :=
  .node ⟨.node h.kind, h.inner⟩ (h.groups parts)

end Head

/-- How much deeper than a row the rows below it stand. -/
def Caption.step (c : Caption) : Nat := c.title.step

open Rose (rows rowsAll_eq_flatMap)

namespace Role

/-- Parts that are no entries of a dictionary are named one place behind the head above them, and
their heads are two levels below it. -/
def IsPlain (role : Role) : Prop := (Title.part role).place = 1 ∧ (Caption.part role).step = 5

/-- Whether a role is that of a plain part can be decided. -/
instance (role : Role) : Decidable role.IsPlain := inferInstanceAs (Decidable (_ ∧ _))

end Role

/-- The parts that stand alone are plain. -/
theorem Head.isPlain_roles (h : Head) : ∀ role ∈ h.roles, role.IsPlain := by
  have hall (kind : Kind) : ∀ lower upper, ∀ role ∈ kind.roles lower upper, role.IsPlain := by
    cases kind <;> decide
  exact hall h.kind h.lower h.upper

/-- So are those that stand together. -/
theorem Head.isPlain_restRole (h : Head) : h.restRole.IsPlain := by
  unfold restRole
  split <;> decide

/-- A row that names a part holds no text, so only its depth counts. -/
theorem isRow_part {role : Role} {depth : Nat} (h : depth % 3 = (Title.part role).place) :
    IsRow (depth, .part role) := ⟨h, List.not_mem_nil⟩

section

variable {role : Role} {depth : Nat} {parts : List (Rose Caption)} {row : Nat × Caption}

/-- A row that goes with its title, or a row of a part, which begins at a place of heads. -/
def IsRowOr (parts : List (Rose Caption)) (row : Nat × Caption) : Prop :=
  IsRow row ∨ ∃ part ∈ parts, ∃ d, d % 3 = 0 ∧ row ∈ rows Caption.step d part

/-- Rows of some parts are rows of more. -/
theorem IsRowOr.mono {parts' : List (Rose Caption)} (h : IsRowOr parts row)
    (hparts : ∀ part ∈ parts, part ∈ parts') : IsRowOr parts' row :=
  h.imp id fun ⟨part, hpart, hrow⟩ => ⟨part, hparts part hpart, hrow⟩

/-- The rows of a name and of what stands below it. -/
theorem isRowOr_part (hrole : role.IsPlain) (hdepth : depth % 3 = 1)
    (h : row ∈ rows Caption.step depth (.node (.part role) parts)) : IsRowOr parts row := by
  rw [rows, List.mem_cons, hrole.2, rowsAll_eq_flatMap, List.mem_flatMap] at h
  rcases h with rfl | ⟨part, hpart, hrow⟩
  · exact .inl (isRow_part (hdepth.trans hrole.1.symm))
  · exact .inr ⟨part, hpart, depth + 5, by omega, hrow⟩

/-- So are those of a key or a value. -/
theorem isRowOr_entry (hrole : role.isEntry = true) (hdepth : depth % 3 = 2)
    (h : row ∈ rows Caption.step depth (.node (.part role) parts)) : IsRowOr parts row := by
  have hstep : (Caption.part role).step = 7 := by cases role <;> first | rfl | cases hrole
  have hplace : (Title.part role).place = 2 := if_pos hrole
  rw [rows, List.mem_cons, hstep, rowsAll_eq_flatMap, List.mem_flatMap] at h
  rcases h with rfl | ⟨part, hpart, hrow⟩
  · exact .inl (isRow_part (hdepth.trans hplace.symm))
  · exact .inr ⟨part, hpart, depth + 7, by omega, hrow⟩

/-- The rows of a group, and of the keys and values in a group of entries. -/
theorem isRowOr_group (hrole : role.IsPlain) (hdepth : depth % 3 = 1) {t : Rose Caption}
    (ht : t ∈ group role parts) (h : row ∈ rows Caption.step depth t) : IsRowOr parts row := by
  unfold group at ht
  split at ht
  · cases ht
  · obtain rfl := List.mem_singleton.mp ht
    exact isRowOr_part hrole hdepth h

/-- The rows of entries name keys and values or belong to the parts below them. -/
theorem isRowOr_entries (hdepth : depth % 3 = 1) {t : Rose Caption}
    (ht : t ∈ group .entries ((pairs parts).flatMap fun entry =>
      [.node (.part .key) [entry.1], .node (.part .value) [entry.2]]))
    (h : row ∈ rows Caption.step depth t) : IsRowOr parts row := by
  unfold group at ht
  split at ht
  · cases ht
  obtain rfl := List.mem_singleton.mp ht
  rw [rows, List.mem_cons, rowsAll_eq_flatMap, List.mem_flatMap] at h
  rcases h with rfl | ⟨t, ht, hrow⟩
  · exact .inl (isRow_part hdepth)
  have hplace : (depth + (Caption.part .entries).step) % 3 = 2 := by
    change (depth + 1) % 3 = 2
    omega
  obtain ⟨entry, hentry, ht⟩ := List.mem_flatMap.mp ht
  obtain ⟨hkey, hvalue⟩ := mem_of_mem_pairs hentry
  simp only [List.mem_cons, List.not_mem_nil, or_false] at ht
  rcases ht with rfl | rfl
  · exact (isRowOr_entry rfl hplace hrow).mono (by simpa using hkey)
  · exact (isRowOr_entry rfl hplace hrow).mono (by simpa using hvalue)

/-- A row of a node is its head, or goes with its title, or is a row of a part. -/
theorem mem_rows_rose {h : Head} (hdepth : depth % 3 = 0)
    (hrow : row ∈ rows Caption.step depth (h.rose parts)) :
    row = (depth, ⟨.node h.kind, h.inner⟩) ∨ IsRowOr parts row := by
  rw [Head.rose, rows, List.mem_cons, rowsAll_eq_flatMap, List.mem_flatMap] at hrow
  refine hrow.imp id ?_
  rintro ⟨t, ht, hrow⟩
  have hplace : (depth + 1) % 3 = 1 := by omega
  change row ∈ rows Caption.step (depth + 1) t at hrow
  rw [Head.groups] at ht
  split at ht
  · exact isRowOr_entries hplace ht hrow
  · rcases List.mem_append.mp ht with ht | ht
    · rw [← List.map_uncurry_zip_eq_zipWith] at ht
      obtain ⟨⟨role, part⟩, hmem, rfl⟩ := List.mem_map.mp ht
      obtain ⟨hrole, hpart⟩ := List.of_mem_zip hmem
      exact (isRowOr_part (h.isPlain_roles role hrole) hplace hrow).mono (by simpa using hpart)
    · exact (isRowOr_group h.isPlain_restRole hplace ht hrow).mono fun _ => List.mem_of_mem_drop

end

namespace Expr

variable {Mark : Type}

/-- The tree of rows of an expression. -/
def rose (e : Expr Mark) : Rose Caption := e.fold Head.rose

/-- The tree of rows of a node is made of its head and of those of its parts. -/
theorem rose_eq (e : Expr Mark) : e.rose = e.head.rose (e.parts.map rose) := fold_eq _ e

/-- The word that a lexical node shows stands within one line. -/
theorem newline_not_mem_word {e : Expr Mark} (h : e.Lexical)
    (hkind : e.head.kind.showsWord = true) : '\n' ∉ e.head.word := fun hmem =>
  absurd (List.all_eq_true.mp (isWord_head h hkind).1.2 _ hmem) (by decide)

/-- What a node shows is within one line. -/
theorem newline_not_mem_inner {e : Expr Mark} (h : e.Lexical) : '\n' ∉ e.head.inner := by
  cases e with
  | literal _ value =>
    cases value with
    | int value => exact newline_not_mem_word h rfl
    | float value => exact newline_not_mem_word h rfl
    | string value => exact Escaped.newline_not_mem_encode value
  | var | option | env | register | unary | binary | call => exact newline_not_mem_word h rfl
  | lambda _ params body =>
    have hname {name : List Char} (hname : name ∈ params) : '\n' ∉ name := fun hmem =>
      absurd (List.all_eq_true.mp (h name hname).2 _ hmem) (by decide)
    change '\n' ∉ ", ".toList.intercalate params
    cases params with
    | nil => exact List.not_mem_nil
    | cons name rest =>
      rw [intercalate_cons_eq, List.mem_append, List.mem_flatMap]
      rintro (hmem | ⟨other, hother, hmem⟩)
      · exact hname List.mem_cons_self hmem
      · rcases List.mem_append.mp hmem with hmem | hmem
        · exact absurd hmem (by decide)
        · exact hname (.tail _ hother) hmem
  | list | dict | ternary | falsy | lambdaCall | funcrefCall | slice | index =>
    exact List.not_mem_nil

/-- The rows of an expression have depths that go with their titles. -/
theorem isRow_of_mem_rose {e : Expr Mark} (h : e.Every Lexical) {depth : Nat}
    (hdepth : depth % 3 = 0) {row : Nat × Caption}
    (hrow : row ∈ rows Caption.step depth e.rose) : IsRow row := by
  induction h generalizing depth row with
  | node here _ ih =>
    rw [rose_eq] at hrow
    rcases mem_rows_rose hdepth hrow with rfl | hrow | ⟨part, hpart, d, hd, hrow⟩
    · exact ⟨hdepth, newline_not_mem_inner here⟩
    · exact hrow
    · obtain ⟨e', he', rfl⟩ := List.mem_map.mp hpart
      exact ih e' he' hd hrow

end Expr

/-- Behind a name stands a comma or nothing. -/
theorem endsBefore_flatMap (names : List (List Char)) :
    EndsBefore isNameChar (names.flatMap (", ".toList ++ ·)) := by
  cases names with
  | nil => exact endsBefore_nil _
  | cons name rest => exact endsBefore_cons.mpr (by decide)

section

variable {names names' : List (List Char)} (h : ∀ name ∈ names, IsRun isNameChar name)
  (h' : ∀ name ∈ names', IsRun isNameChar name)

include h h'

/-- Texts with a comma and a blank in front of each are told apart. -/
theorem flatMap_names_inj
    (heq : names.flatMap (", ".toList ++ ·) = names'.flatMap (", ".toList ++ ·)) :
    names = names' := by
  induction names generalizing names' with
  | nil =>
    cases names' with
    | nil => rfl
    | cons name' rest' => cases heq
  | cons name rest ih =>
    cases names' with
    | nil => cases heq
    | cons name' rest' =>
      simp only [List.flatMap_cons, List.append_assoc] at heq
      obtain ⟨rfl, hrest⟩ := run_append_inj (h _ List.mem_cons_self).2 (endsBefore_flatMap rest)
        (h' _ List.mem_cons_self).2 (endsBefore_flatMap rest') (List.append_cancel_left heq)
      rw [ih (fun u hu => h u (.tail _ hu)) (fun u hu => h' u (.tail _ hu)) hrest]

/-- Names with a comma and a blank between any two are told apart. -/
theorem intercalate_names_inj
    (heq : ", ".toList.intercalate names = ", ".toList.intercalate names') : names = names' := by
  cases names with
  | nil =>
    cases names' with
    | nil => rfl
    | cons name' rest' =>
      rw [intercalate_cons_eq] at heq
      exact ((h' _ List.mem_cons_self).1 (List.append_eq_nil_iff.mp heq.symm).1).elim
  | cons name rest =>
    cases names' with
    | nil =>
      rw [intercalate_cons_eq] at heq
      exact ((h _ List.mem_cons_self).1 (List.append_eq_nil_iff.mp heq).1).elim
    | cons name' rest' =>
      rw [intercalate_cons_eq, intercalate_cons_eq] at heq
      obtain ⟨rfl, hrest⟩ := run_append_inj (h _ List.mem_cons_self).2 (endsBefore_flatMap rest)
        (h' _ List.mem_cons_self).2 (endsBefore_flatMap rest') heq
      rw [flatMap_names_inj (fun u hu => h u (.tail _ hu)) (fun u hu => h' u (.tail _ hu)) hrest]

end

/-- Whether there is a group of a name. -/
def hasRole (role : Role) (groups : List (Rose Caption)) : Bool :=
  groups.any fun t => t.label == .part role

/-- A group has its parts below it, and no group has none. -/
theorem children_group (role : Role) (parts : List (Rose Caption)) :
    (group role parts).flatMap Rose.children = parts := by
  unfold group
  split
  · exact (‹parts = []›).symm
  · exact List.append_nil _

namespace Expr

variable {Mark : Type}

/-- The groups of a node, which hold its parts. -/
def groups (e : Expr Mark) : List (Rose Caption) := e.head.groups (e.parts.map rose)

/-- The groups of a dictionary are those of its keys and values. -/
theorem groups_dict (mark : Mark) (entries : List (Expr Mark × Expr Mark)) :
    (dict mark entries).groups = group .entries (entries.flatMap fun entry =>
      [.node (.part .key) [entry.1.rose], .node (.part .value) [entry.2.rose]]) := by
  simp [groups, head, parts, Head.groups, pairs_map_flatMap, List.flatMap_map]

/-- The parts are what stands in the groups, or two by two in the entries of a dictionary. -/
theorem map_rose_parts (e : Expr Mark) : e.parts.map rose =
    if e.head.kind = .dict then (e.groups.flatMap Rose.children).flatMap Rose.children
    else e.groups.flatMap Rose.children := by
  cases e with
  | literal _ value => cases value <;> rfl
  | dict _ entries =>
    rw [groups_dict]
    simp [head, parts, children_group, List.flatMap_assoc, List.map_flatMap, Rose.children]
  | slice _ base lower upper => cases lower <;> cases upper <;> rfl
  | list | call | lambdaCall | funcrefCall =>
    simp [head, parts, groups, Head.groups, Head.roles, Kind.roles, children_group, Rose.children]
  | _ => rfl

/-- The bounds of a slice are those that have a name. -/
theorem bounds_eq (e : Expr Mark) :
    e.head.lower = (e.head.kind == .slice && hasRole .lower e.groups) ∧
      e.head.upper = (e.head.kind == .slice && hasRole .upper e.groups) := by
  cases e with
  | literal _ value => cases value <;> exact ⟨rfl, rfl⟩
  | slice _ base lower upper => cases lower <;> cases upper <;> exact ⟨rfl, rfl⟩
  | _ => exact ⟨rfl, rfl⟩

/-- A lambda has no word. -/
theorem word_of_lambda (e : Expr Mark) (h : e.head.kind = .lambda) : e.head.word = [] := by
  cases e with
  | literal _ value => cases value <;> cases h
  | lambda => rfl
  | _ => cases h

/-- Only lambdas have parameters. -/
theorem params_of_ne (e : Expr Mark) (h : e.head.kind ≠ .lambda) : e.head.params = [] := by
  cases e with
  | literal _ value => cases value <;> rfl
  | lambda => exact (h rfl).elim
  | _ => rfl

/-- Heads of one kind that show the same have one word and the same parameters. -/
theorem words_eq_of_inner {e e' : Expr Mark} (h : e.Lexical) (h' : e'.Lexical)
    (hkind : e.head.kind = e'.head.kind) (hinner : e.head.inner = e'.head.inner) :
    e.head.word = e'.head.word ∧ e.head.params = e'.head.params := by
  by_cases hlambda : e.head.kind = .lambda
  · have hlambda' := hkind ▸ hlambda
    rw [e.word_of_lambda hlambda, e'.word_of_lambda hlambda']
    refine ⟨rfl, intercalate_names_inj (params_lexical h) (params_lexical h') ?_⟩
    simpa only [Head.inner, hlambda, hlambda'] using hinner
  · rw [e.params_of_ne hlambda, e'.params_of_ne (hkind ▸ hlambda)]
    refine ⟨?_, rfl⟩
    by_cases hstring : e.head.kind = .string
    · have hstring' := hkind ▸ hstring
      simp only [Head.inner, hstring, hstring'] at hinner
      exact (Escaped.encode_append_inj (congrArg (· ++ []) hinner)).1
    · rwa [Head.inner_of_ne hstring hlambda,
        Head.inner_of_ne (hkind ▸ hstring) (hkind ▸ hlambda)] at hinner

/-- The tree of rows tells the head of the node and the trees of rows of the parts. -/
theorem layer_rose {e e' : Expr Mark} (h : e.Lexical) (h' : e'.Lexical) (heq : e.rose = e'.rose) :
    e.head = e'.head ∧ e.parts.map rose = e'.parts.map rose := by
  rw [rose_eq, rose_eq] at heq
  have hgroups : e.groups = e'.groups := congrArg Rose.children heq
  have hcaption := congrArg Rose.label heq
  have hkind : e.head.kind = e'.head.kind := Title.node.inj (congrArg Caption.title hcaption)
  obtain ⟨hword, hparams⟩ := words_eq_of_inner h h' hkind (congrArg Caption.inner hcaption)
  refine ⟨?_, by rw [map_rose_parts, map_rose_parts, hkind, hgroups]⟩
  have hlower : e.head.lower = e'.head.lower := by
    rw [e.bounds_eq.1, e'.bounds_eq.1, hkind, hgroups]
  have hupper : e.head.upper = e'.head.upper := by
    rw [e.bounds_eq.2, e'.bounds_eq.2, hkind, hgroups]
  cases hhead : e.head
  cases hhead' : e'.head
  simp_all

end Expr

end Vimscript
