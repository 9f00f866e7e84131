import Mathlib.Data.List.Basic

/-!
# Trees told by the depths of their rows

A tree is listed in preorder, each node as a row of its depth and its label. The children of a node
stand deeper than the node by a step that depends on its label alone. Nothing marks where the rows
of a tree end, but the first row behind them stands no deeper than the root, so the rows determine
the tree.
-/

namespace Vimscript

/-- A tree whose nodes have labels and any number of children. -/
inductive Rose (α : Type) where
  | node (label : α) (children : List (Rose α))

namespace Rose

variable {α : Type}

/-- The label of the root. -/
def label : Rose α → α
  | node label _ => label

/-- The children of the root. -/
def children : Rose α → List (Rose α)
  | node _ children => children

variable (step : α → Nat)

mutual

/-- The rows of a tree whose root has a depth. -/
def rows (depth : Nat) : Rose α → List (Nat × α)
  | node label children => (depth, label) :: rowsAll (depth + step label) children

/-- The rows of trees whose roots have one depth. -/
def rowsAll (depth : Nat) : List (Rose α) → List (Nat × α)
  | [] => []
  | t :: rest => rows depth t ++ rowsAll depth rest

end

variable {step} {depth : Nat} {rest rest' : List (Nat × α)}

/-- The rows of trees are those of each tree. -/
theorem rowsAll_eq_flatMap (trees : List (Rose α)) :
    rowsAll step depth trees = trees.flatMap (rows step depth) := by
  induction trees with
  | nil => rfl
  | cons t trees ih => rw [rowsAll, ih, List.flatMap_cons]

/-- What stands behind the rows of trees of a depth: rows of which the first is not as deep. -/
def Closes (depth : Nat) (rest : List (Nat × α)) : Prop := ∀ row ∈ rest.head?, row.1 < depth

/-- The first row of a tree has the depth of its root. -/
theorem exists_rows (step : α → Nat) (depth : Nat) (t : Rose α) :
    ∃ label more, rows step depth t = (depth, label) :: more := by
  cases t with
  | node label children => exact ⟨label, _, rfl⟩

/-- No tree begins where the trees of its depth end. -/
theorem Closes.ne_rows (h : Closes depth rest) (t : Rose α) (more : List (Nat × α)) :
    rest ≠ rows step depth t ++ more := by
  obtain ⟨label, tail, ht⟩ := exists_rows step depth t
  rintro rfl
  rw [ht] at h
  exact Nat.lt_irrefl depth (h _ rfl)

/-- Behind a tree stand the trees of its depth, or what ends them. -/
theorem Closes.rowsAll_append (h : Closes depth rest) (trees : List (Rose α)) :
    Closes (depth + 1) (rowsAll step depth trees ++ rest) := by
  cases trees with
  | nil => exact fun row hrow => Nat.lt_succ_of_lt (h row hrow)
  | cons t trees =>
    obtain ⟨label, more, ht⟩ := exists_rows step depth t
    rw [rowsAll, ht]
    rintro row ⟨⟩
    exact Nat.lt_succ_self depth

mutual

/-- The rows of a tree tell the tree and where they end. -/
theorem rows_append_inj (hstep : ∀ label, 0 < step label) (t t' : Rose α) {depth : Nat}
    {rest rest' : List (Nat × α)} (h : Closes (depth + 1) rest) (h' : Closes (depth + 1) rest')
    (heq : rows step depth t ++ rest = rows step depth t' ++ rest') : t = t' ∧ rest = rest' := by
  obtain ⟨label, children⟩ := t
  obtain ⟨label', children'⟩ := t'
  simp only [rows, List.cons_append, List.cons.injEq, Prod.mk.injEq, true_and] at heq
  obtain ⟨rfl, hchildren⟩ := heq
  have hdeep {rest : List (Nat × α)} (h : Closes (depth + 1) rest) :
      Closes (depth + step label) rest := fun row hrow =>
    Nat.lt_of_lt_of_le (h row hrow) (Nat.add_le_add_left (hstep label) depth)
  obtain ⟨rfl, hrest⟩ := rowsAll_append_inj hstep children children' (hdeep h) (hdeep h') hchildren
  exact ⟨rfl, hrest⟩

/-- So do the rows of trees of one depth. -/
theorem rowsAll_append_inj (hstep : ∀ label, 0 < step label) (trees trees' : List (Rose α))
    {depth : Nat} {rest rest' : List (Nat × α)} (h : Closes depth rest) (h' : Closes depth rest')
    (heq : rowsAll step depth trees ++ rest = rowsAll step depth trees' ++ rest') :
    trees = trees' ∧ rest = rest' := by
  match trees, trees' with
  | [], [] => exact ⟨rfl, heq⟩
  | [], t' :: more' =>
    rw [rowsAll, rowsAll, List.append_assoc] at heq
    exact (h.ne_rows _ _ heq).elim
  | t :: more, [] =>
    rw [rowsAll, rowsAll, List.append_assoc] at heq
    exact (h'.ne_rows _ _ heq.symm).elim
  | t :: more, t' :: more' =>
    rw [rowsAll, rowsAll, List.append_assoc, List.append_assoc] at heq
    obtain ⟨rfl, hmore⟩ :=
      rows_append_inj hstep t t' (h.rowsAll_append more) (h'.rowsAll_append more') heq
    obtain ⟨rfl, hrest⟩ := rowsAll_append_inj hstep more more' h h' hmore
    exact ⟨rfl, hrest⟩

end

/-- The rows of a tree determine the tree. -/
theorem rows_injective (hstep : ∀ label, 0 < step label) (depth : Nat) :
    Function.Injective (rows step depth) := fun t t' heq =>
  have hnil : Closes (depth + 1) ([] : List (Nat × α)) := nofun
  (rows_append_inj hstep t t' hnil hnil (congrArg (· ++ []) heq)).1

end Rose

end Vimscript
