import Vimscript.Expr.Outline
import Vimscript.Proofs.Expr.Pieces
import Vimscript.Proofs.Expr.Rows

/-!
# Outlines determine expressions

The lines of an outline without marks are those of the rows of the expression. Nothing closes a
node, a list or an entry, but a row stands deeper than all that it belongs to, and its line tells
how deep it stands. So trees with names of the grammar and finite numbers have one outline only if
they are one tree.
-/

namespace Vimscript

open Text Rose

/-- Lines are told apart by the line feeds behind them. -/
theorem eq_of_flatMap_lines {lines lines' : List (List Char)} (h : ∀ line ∈ lines, '\n' ∉ line)
    (h' : ∀ line ∈ lines', '\n' ∉ line)
    (heq : (lines.flatMap fun line => line ++ ['\n']) =
      lines'.flatMap fun line => line ++ ['\n']) : lines = lines' := by
  have hall {line : List Char} (h : '\n' ∉ line) : line.all (· != '\n') = true :=
    List.all_eq_true.mpr fun c hc => bne_iff_ne.mpr fun heq => h (heq ▸ hc)
  have hends (rest : List Char) : EndsBefore (· != '\n') ('\n' :: rest) :=
    endsBefore_cons.mpr (by decide)
  induction lines generalizing lines' with
  | nil =>
    cases lines' with
    | nil => rfl
    | cons line' more' => simp at heq
  | cons line more ih =>
    cases lines' with
    | nil => simp at heq
    | cons line' more' =>
      simp only [List.flatMap_cons, List.append_assoc, List.cons_append, List.nil_append] at heq
      obtain ⟨rfl, hmore⟩ := run_append_inj (hall (h _ List.mem_cons_self)) (hends _)
        (hall (h' _ List.mem_cons_self)) (hends _) heq
      rw [ih (fun l hl => h l (.tail _ hl)) (fun l hl => h' l (.tail _ hl)) (List.cons.inj hmore).2]

namespace Expr

variable {Mark : Type}

variable (indent level : Nat)

/-- The layout of outlines without marks. -/
def unmarked (Mark : Type) (indent : Nat) : OutlineStyle Mark := ⟨indent, fun _ => []⟩

/-- The lines of the rows of a tree whose root has a depth. -/
def treeLines (depth : Nat) (t : Rose Caption) : List (List Char) :=
  (rows Caption.step depth t).map (rowLine indent)

/-- The lines of a tree of rows are its own line and those of its subtrees, further to the right. -/
theorem treeLines_node (depth : Nat) (c : Caption) (trees : List (Rose Caption)) :
    treeLines indent depth (.node c trees) =
      rowLine indent (depth, c) :: trees.flatMap (treeLines indent (depth + c.step)) := by
  rw [treeLines, rows, rowsAll_eq_flatMap, List.map_cons, List.map_flatMap]
  rfl

/-- The levels are scaled, and the places within a level are two columns apart. -/
theorem column_eq {place : Nat} (h : place < 3) :
    column indent (3 * level + place) = level * indent + 2 * place := by
  have hdiv : (3 * level + place) / 3 = level := by omega
  have hmod : (3 * level + place) % 3 = place := by omega
  rw [column, hdiv, hmod]

/-- The lines of a node are its head line and those of its groups. -/
theorem treeLines_rose (e : Expr Mark) : treeLines indent (3 * level) e.rose =
    headLine (unmarked Mark indent) level e.mark
      (e.head.kind.caption.toList ++ (e.head.inner ++ e.head.kind.closer.toList)) ::
        e.groups.flatMap (treeLines indent (3 * level + 1)) := by
  have hcolumn : column indent (3 * level) = level * indent :=
    column_eq indent level (show 0 < 3 by decide)
  rw [rose_eq, Head.rose, treeLines_node, rowLine, hcolumn]
  simp [Caption.text, Title.opener, Title.closer, headLine, margin, unmarked, Caption.step,
    Title.step, groups]

variable (Mark)

/-- A group has a line for its role above those of its parts. -/
theorem treeLines_part (role : Role) (parts : List (Rose Caption)) :
    treeLines indent (3 * level + 1) (.node (.part role) parts) =
      labelLine (unmarked Mark indent) level role.name ::
        parts.flatMap (treeLines indent (3 * level + 1 + (Caption.part role).step)) := by
  have hblanks : List.replicate (level * indent + 2 * 1) ' ' =
      List.replicate (level * indent) ' ' ++ "  ".toList := List.replicate_add _ _ _
  rw [treeLines_node, rowLine, column_eq indent level (by decide), hblanks]
  simp [Caption.text, Caption.part, Title.opener, Title.closer, labelLine, margin, unmarked]

/-- A side of an entry has a line of its own above those of its expression. -/
theorem treeLines_entry {role : Role} (hrole : role.isEntry = true) (part : Rose Caption) :
    treeLines indent (3 * level + 2) (.node (.part role) [part]) =
      entryLine (unmarked Mark indent) level role.name ::
        treeLines indent (3 * (level + 3)) part := by
  have hstep : (Caption.part role).step = 7 := by cases role <;> first | rfl | cases hrole
  have hblanks : List.replicate (level * indent + 2 * 2) ' ' =
      List.replicate (level * indent) ' ' ++ "    ".toList := List.replicate_add _ _ _
  rw [treeLines_node, hstep, rowLine, column_eq indent level (by decide), hblanks]
  simp [Caption.text, Caption.part, Title.opener, Title.closer, entryLine, margin, unmarked]
  rfl

variable {Mark} {indent level}

/-- Items are written one below the other. -/
theorem itemLines_eq {style : OutlineStyle Mark} (items : List (Expr Mark)) :
    itemLines style level items = items.flatMap (lines style (level + 2)) := by
  induction items with
  | nil => rfl
  | cons item rest ih => rw [itemLines, ih, List.flatMap_cons]

/-- Entries are written one below the other, each as its key and its value. -/
theorem entryLines_eq {style : OutlineStyle Mark} (entries : List (Expr Mark × Expr Mark)) :
    entryLines style level entries = entries.flatMap fun entry =>
      entryLine style level "key" :: lines style (level + 3) entry.1 ++
      entryLine style level "value" :: lines style (level + 3) entry.2 := by
  induction entries with
  | nil => rfl
  | cons entry rest ih => rw [entryLines, ih, List.flatMap_cons]

/-- An expression has the lines of its rows at every level. -/
def HasRowLines (indent : Nat) (e : Expr Mark) : Prop :=
  ∀ level, lines (unmarked Mark indent) level e = treeLines indent (3 * level) e.rose

/-- Each part of a role of its own stands below the name of the role. -/
theorem roles_lines {roles : List Role} {parts : List (Expr Mark)}
    (hroles : ∀ role ∈ roles, role.IsPlain)
    (h : ∀ part ∈ parts, part.HasRowLines indent) :
    (List.zipWith (fun role part => Rose.node (.part role) [part])
      roles (parts.map rose)).flatMap (treeLines indent (3 * level + 1)) =
      (List.zipWith (fun role part => labelLine (unmarked Mark indent) level role.name ::
        lines (unmarked Mark indent) (level + 2) part) roles parts).flatten := by
  induction roles generalizing parts with
  | nil => rfl
  | cons role roles ih =>
    cases parts with
    | nil => rfl
    | cons part parts =>
      rw [List.map_cons, List.zipWith_cons_cons, List.zipWith_cons_cons, List.flatMap_cons,
        List.flatten_cons, ih (fun r hr => hroles r (.tail _ hr)) fun p hp => h p (.tail _ hp),
        treeLines_part Mark indent level, (hroles role List.mem_cons_self).2,
        h part List.mem_cons_self, List.flatMap_singleton]
      rfl

/-- The keys and values of a dictionary stand below their names, one place deeper. -/
theorem entries_lines {entries : List (Expr Mark × Expr Mark)}
    (h : ∀ entry ∈ entries, ∀ part ∈ [entry.1, entry.2], part.HasRowLines indent) :
    (group .entries (entries.flatMap fun entry => [.node (.part .key) [entry.1.rose],
      .node (.part .value) [entry.2.rose]])).flatMap (treeLines indent (3 * level + 1)) =
      groupLines (unmarked Mark indent) level "entries" entries ++
        entryLines (unmarked Mark indent) level entries := by
  cases entries with
  | nil => rfl
  | cons first rest =>
    rw [group, if_neg (by simp), List.flatMap_singleton, treeLines_part Mark indent level,
      entryLines_eq, List.flatMap_assoc]
    refine congrArg (_ :: ·) (List.flatMap_congr fun entry hentry => ?_)
    have hkey := treeLines_entry Mark indent level (show Role.key.isEntry = true from rfl)
      entry.1.rose
    have hvalue := treeLines_entry Mark indent level (show Role.value.isEntry = true from rfl)
      entry.2.rose
    rw [h entry hentry entry.1 (by simp), h entry hentry entry.2 (by simp)]
    exact congrArg₂ (· ++ ·) hkey ((List.append_nil _).trans hvalue)

/-- The lines of the groups of a node, if those of the parts are those of their rows. -/
theorem groups_lines {e : Expr Mark} (hkind : e.head.kind ≠ .dict)
    (h : ∀ part ∈ e.parts, part.HasRowLines indent) :
    e.groups.flatMap (treeLines indent (3 * level + 1)) =
      (List.zipWith (fun role part => labelLine (unmarked Mark indent) level role.name ::
        lines (unmarked Mark indent) (level + 2) part) e.head.roles e.parts).flatten ++
      (groupLines (unmarked Mark indent) level e.head.restRole.name
          (e.parts.drop e.head.roles.length) ++
        itemLines (unmarked Mark indent) level (e.parts.drop e.head.roles.length)) := by
  have hrest (items : List (Expr Mark)) (hmem : ∀ item ∈ items, item ∈ e.parts) :
      (group e.head.restRole (items.map rose)).flatMap (treeLines indent (3 * level + 1)) =
        groupLines (unmarked Mark indent) level e.head.restRole.name items ++
          itemLines (unmarked Mark indent) level items := by
    cases items with
    | nil => rfl
    | cons item rest =>
      rw [group, if_neg (by simp), List.flatMap_singleton,
        treeLines_part Mark indent level, e.head.isPlain_restRole.2, itemLines_eq, List.flatMap_map]
      exact congrArg _ (List.flatMap_congr fun item hitem =>
        (h item (hmem item hitem) (level + 2)).symm)
  rw [groups, Head.groups, if_neg hkind, List.flatMap_append, ← List.map_drop,
    hrest _ fun item hitem => List.mem_of_mem_drop hitem, roles_lines e.head.isPlain_roles h]

/-- The lines of an expression are those of its rows. -/
theorem hasRowLines (e : Expr Mark) : e.HasRowLines indent := by
  induction e using parts_induction with
  | node e ih =>
    intro level
    rw [treeLines_rose]
    cases e with
    | dict _ entries =>
      rw [groups_dict, entries_lines fun entry hentry part hpart =>
        ih part (List.mem_flatMap.mpr ⟨entry, hentry, hpart⟩)]
      simp [lines, head, mark, Kind.caption, Kind.closer, Head.inner]
    | literal _ value =>
      rw [groups_lines (by cases value <;> simp [head]) ih]
      cases value <;>
        simp [lines, parts, Head.roles, Kind.roles, groupLines, itemLines, head, mark,
          Kind.caption, Kind.closer, Head.inner, literalKind, Literal.plainText]
    | slice _ base lower upper =>
      rw [groups_lines (by simp [head]) ih]
      cases lower <;> cases upper <;>
        simp [lines, parts, boundLines, Head.roles, Kind.roles, Role.name, groupLines, itemLines,
          head, mark, Kind.caption, Kind.closer, Head.inner]
    | _ =>
      rw [groups_lines (by simp [head]) ih]
      simp [lines, parts, Head.roles, Kind.roles, Head.restRole, Role.name, groupLines, itemLines,
        head, mark, Kind.caption, Kind.closer, Head.inner]

/-- The outline of an expression tells the rows of the expression. -/
theorem rose_eq_of_outline {Other : Type} (hindent : 1 ≤ indent) {e : Expr Mark} {e' : Expr Other}
    (h : e.Every Lexical) (h' : e'.Every Lexical)
    (heq : outline (unmarked Mark indent) e = outline (unmarked Other indent) e') :
    e.rose = e'.rose := by
  have hstep (c : Caption) : 0 < c.step := by
    unfold Caption.step Title.step
    split
    · decide
    · split
      · decide
      · split <;> decide
  have hlines {Mark : Type} {e : Expr Mark} (h : e.Every Lexical) :
      ∀ line ∈ treeLines indent 0 e.rose, '\n' ∉ line :=
    List.forall_mem_map.mpr fun row hrow =>
      newline_not_mem_rowLine indent (isRow_of_mem_rose h rfl hrow)
  rw [outline, outline, hasRowLines e 0, hasRowLines e' 0] at heq
  have hrows := eq_of_map_eq (eq_of_flatMap_lines (hlines h) (hlines h') heq)
    fun row hrow row' hrow' => rowLine_injOn hindent (isRow_of_mem_rose h rfl hrow)
      (isRow_of_mem_rose h' rfl hrow')
  exact Rose.rows_injective hstep _ hrows

/-- Two trees with names of the grammar and finite numbers have one outline without marks only if
they are equal but for their marks, wherever a level has a width. -/
theorem erase_eq_of_outline {Other : Type} (hindent : 1 ≤ indent) {e : Expr Mark}
    {e' : Expr Other} (h : e.Every Lexical) (h' : e'.Every Lexical)
    (heq : outline ⟨indent, fun _ => []⟩ e = outline ⟨indent, fun _ => []⟩ e') :
    e.erase = e'.erase := by
  have hrose : e.erase.rose = e'.erase.rose := by
    rw [rose, rose, fold_erase, fold_erase]
    exact rose_eq_of_outline hindent h h' heq
  refine eq_of_layers (fun e e' h h' => layer_rose h.here h'.here) ?_ ?_ hrose
  · exact h.erase fun _ => Lexical.erase
  · exact h'.erase fun _ => Lexical.erase

/-- The second of two numbers stands deeper inside the list of the first than behind that list,
which tells `[[1], 2]` from `[[1, 2]]`. -/
theorem erase_eq_of_outline_lists :
    outline ⟨1, fun _ => []⟩ (list () [list () [literal () (.int 1)], literal () (.int 2)]) ≠
      outline ⟨1, fun _ => []⟩
        (list () [list () [literal () (.int 1), literal () (.int 2)]]) := by
  have number (value : Int64) : (literal () (.int value)).Every Lexical := .node trivial nofun
  have items {items : List (Expr Unit)} (h : ∀ item ∈ items, item.Every Lexical) :
      (list () items).Every Lexical := .node trivial h
  refine fun heq => absurd (erase_eq_of_outline (Nat.le_refl 1) ?_ ?_ heq) (by simp)
  · exact items (by simp [items, number])
  · exact items (by simp [items, number])

end Expr

end Vimscript
