import Mathlib.Data.List.Induction
import Vimscript.Proofs.Expr.Accepted
import Vimscript.Proofs.Expr.Tokens

/-!
# How operators group

Operands with operators between them make one tree: the tree over the operands in their order in
which each left side binds at least as tightly as the operator above it and each right side binds
more tightly. A sequence has exactly one such tree. Conditionals link such sequences and group from
the right, and prefix operators belong to the operand behind them.
-/

namespace Vimscript

open Text

/-- What stands behind the prefix operators of an operand. -/
inductive Base where
  | var (name : {name // IsName isNameStart isNameChar name})
  | scopedVar (scope : Scope) (name : {name // IsRun isNameChar name})
  | integer (text : List Char) (value : Int64) (token : Rule.integer.Lexeme text [])
    (fits : Numeral.decode? text = some value)
  | paren (s : Accepted)

/-- An operand: prefix operators, with or without blanks behind each, and a base. -/
structure Operand where
  prefixes : List (UnaryOp × {b : List Char // b.all isSpace = true})
  base : Base

/-- A binary operator as it stands between two operands, with blanks on both sides. -/
structure Link where
  op : BinaryOp
  token : List Char
  left : List Char
  right : List Char
  token_of : op.Token token
  left_blank : IsRun isSpace left
  right_blank : IsRun isSpace right

/-- Operands with an operator between any two. -/
structure Run where
  first : Operand
  rest : List (Link × Operand)

/-- Sequences linked by `??` or by the marks of a conditional with an accepted text between them. -/
inductive Chain (α : Type) where
  | last (a : α)
  | falsy (a : α) (rest : Chain α)
  | ternary (a : α) (t : Accepted) (rest : Chain α)

namespace Base

/-- The text of a base. -/
def text : Base → List Char
  | var name => name
  | scopedVar scope name => scope.text ++ name
  | integer text _ _ _ => text
  | paren s => '(' :: (s.text ++ [')'])

/-- What a base reads as. -/
def expr : Base → Expr Unit
  | var name => .var () none name
  | scopedVar scope name => .var () (some scope) name
  | integer _ value _ _ => .literal () (.int value)
  | paren s => s.expr

end Base

namespace Operand

/-- The text of an operand: its prefix operators and its base. -/
def text (o : Operand) : List Char :=
  o.prefixes.foldr (fun p rest => p.1.text ++ (p.2 ++ rest)) o.base.text

/-- The first of the prefix operators is the outermost. -/
def expr (o : Operand) : Expr Unit :=
  o.prefixes.foldr (fun p e => .unary () p.1 e) o.base.expr

end Operand

/-- An operator with its blanks. -/
def Link.text (link : Link) : List Char := link.left ++ (link.token ++ link.right)

/-- The text of a run of operands and operators. -/
def Run.text (run : Run) : List Char :=
  run.first.text ++ run.rest.flatMap fun p => p.1.text ++ p.2.text

/-- The text of a chain of runs. -/
def Chain.text : Chain Run → List Char
  | last run => run.text
  | falsy run rest => run.text ++ (" ?? ".toList ++ rest.text)
  | ternary run t rest => run.text ++ (" ? ".toList ++ (t.text ++ (" : ".toList ++ rest.text)))

/-- A tree of binary operators over operands. -/
inductive Grouping where
  | leaf (o : Operand)
  | node (link : Link) (left right : Grouping)

namespace Grouping

/-- The operands and operators of a tree in their order. -/
def run : Grouping → Run
  | leaf o => ⟨o, []⟩
  | node link left right =>
    ⟨left.run.first, left.run.rest ++ (link, right.run.first) :: right.run.rest⟩

/-- The expression of a tree of operators. -/
def expr : Grouping → Expr Unit
  | leaf o => o.expr
  | node link left right => .binary () link.op left.expr right.expr

/-- How tightly a tree binds; an operand binds more tightly than any operator. -/
def level : Grouping → Nat
  | leaf _ => 6
  | node link _ _ => link.op.tier

/-- Left sides bind at least as tightly as the operators above them, and right sides more
tightly. -/
def Ordered : Grouping → Prop
  | leaf _ => True
  | node link left right =>
    link.op.tier ≤ left.level ∧ link.op.tier < right.level ∧ left.Ordered ∧ right.Ordered

end Grouping

/-- A tree of a sequence, ordered by how tightly the operators bind. -/
def Run.Groups (run : Run) (tree : Grouping) : Prop := tree.run = run ∧ tree.Ordered

namespace Chain

/-- The conditionals of a chain group from the right. -/
def expr : Chain Grouping → Expr Unit
  | last tree => tree.expr
  | falsy tree rest => .falsy () tree.expr rest.expr
  | ternary tree t rest => .ternary () tree.expr t.expr rest.expr

/-- Chains of one shape with members that are related one by one. -/
inductive Each {α β : Type} (rel : α → β → Prop) : Chain α → Chain β → Prop where
  | last {a : α} {b : β} (h : rel a b) : Each rel (last a) (last b)
  | falsy {a : α} {b : β} {as : Chain α} {bs : Chain β} (h : rel a b) (rest : Each rel as bs) :
    Each rel (falsy a as) (falsy b bs)
  | ternary {a : α} {b : β} {t : Accepted} {as : Chain α} {bs : Chain β} (h : rel a b)
    (rest : Each rel as bs) : Each rel (ternary a t as) (ternary b t bs)

end Chain

namespace Grouping

variable {g g' : Grouping} {link link' : Link} {left right left' right' : Grouping}

/-- No operator of a tree binds less tightly than its root. -/
theorem level_le (h : g.Ordered) : ∀ p ∈ g.run.rest, g.level ≤ p.1.op.tier := by
  induction g with
  | leaf =>
    intro p hp
    exact (List.not_mem_nil hp).elim
  | node link left right ihl ihr =>
    obtain ⟨hleft, hright, hl, hr⟩ := h
    intro p hp
    rcases List.mem_append.mp hp with hp | hp
    · exact Nat.le_trans hleft (ihl hl p hp)
    · rcases List.mem_cons.mp hp with rfl | hp
      · exact Nat.le_refl _
      · exact Nat.le_trans (Nat.le_of_lt hright) (ihr hr p hp)

/-- The root of one tree is not among the operators to the left of the root of another. -/
theorem root_not_left {x : List (Link × Operand)} (h : (node link left right).Ordered)
    (h' : (node link' left' right').Ordered) (hleft : left'.run.rest = left.run.rest ++ x)
    (hright : (link, right.run.first) :: right.run.rest =
      x ++ (link', right'.run.first) :: right'.run.rest) : x = [] := by
  cases x with
  | nil => rfl
  | cons p x =>
    exfalso
    obtain ⟨rfl, hmore⟩ := List.cons.inj hright
    have hlow := level_le h'.2.2.1 (link, right.run.first) (by simp [hleft])
    have hhigh := level_le h.2.2.2 (link', right'.run.first) (by simp [hmore])
    have := h.2.1
    have := h'.1
    dsimp only at hlow hhigh
    omega

/-- An ordered tree is fixed by its operands and operators. -/
theorem unique (h : g.Ordered) (h' : g'.Ordered) (hrun : g.run = g'.run) : g = g' := by
  induction g generalizing g' with
  | leaf o =>
    cases g' with
    | leaf o' =>
      obtain ⟨rfl, -⟩ := Run.mk.inj hrun
      rfl
    | node => simp [run] at hrun
  | node link left right ihl ihr =>
    cases g' with
    | leaf => simp [run] at hrun
    | node link' left' right' =>
      obtain ⟨hfirst, hrest⟩ := Run.mk.inj hrun
      have hcut : left.run.rest = left'.run.rest ∧ (link, right.run.first) :: right.run.rest =
          (link', right'.run.first) :: right'.run.rest := by
        rcases List.append_eq_append_iff.mp hrest with ⟨x, hleft, hright⟩ | ⟨x, hleft, hright⟩
        · obtain rfl := root_not_left h h' hleft hright
          exact ⟨by rw [hleft, List.append_nil], hright⟩
        · obtain rfl := root_not_left h' h hleft hright
          exact ⟨by rw [hleft, List.append_nil], hright.symm⟩
      obtain ⟨hlink, hmore⟩ := List.cons.inj hcut.2
      obtain ⟨rfl, hnext⟩ := Prod.mk.inj hlink
      obtain rfl := ihl h.2.2.1 h'.2.2.1 (congrArg₂ Run.mk hfirst hcut.1)
      obtain rfl := ihr h.2.2.2 h'.2.2.2 (congrArg₂ Run.mk hnext hmore)
      rfl

/-- Adds an operator and an operand at the end, below what binds less tightly. -/
def push (link : Link) (o : Operand) : Grouping → Grouping
  | leaf o' => node link (leaf o') (leaf o)
  | node link' left right =>
    if link.op.tier ≤ link'.op.tier then node link (node link' left right) (leaf o)
    else node link' left (push link o right)

/-- The tree with an operator and an operand added is one of the longer run. -/
theorem push_run (link : Link) (o : Operand) (g : Grouping) :
    (push link o g).run = ⟨g.run.first, g.run.rest ++ [(link, o)]⟩ := by
  induction g with
  | leaf => rfl
  | node link' left right _ ih =>
    unfold push
    split
    · rfl
    · simp only [run, ih, List.append_assoc, List.cons_append]

/-- It binds no less tightly than the tree did or the operator does. -/
theorem push_level (link : Link) (o : Operand) (g : Grouping) :
    min g.level link.op.tier ≤ (push link o g).level := by
  cases g with
  | leaf => exact Nat.min_le_right _ _
  | node link' left right =>
    unfold push
    split
    · exact Nat.min_le_right _ _
    · exact Nat.min_le_left _ _

/-- It is ordered if the tree was. -/
theorem push_ordered (link : Link) (o : Operand) (h : g.Ordered) : (push link o g).Ordered := by
  have hbound := link.op.tier_bounds
  induction g with
  | leaf => exact ⟨by simp only [level]; omega, by simp only [level]; omega, trivial, trivial⟩
  | node link' left right _ ih =>
    unfold push
    split
    · exact ⟨‹_›, by simp only [level]; omega, h, trivial⟩
    · have := push_level link o right
      have := h.2.1
      exact ⟨h.1, by omega, h.2.2.1, ih h.2.2.2⟩

end Grouping

/-- Every run has an ordered tree, built operand by operand. -/
theorem Run.exists_groups (run : Run) : ∃ tree, run.Groups tree := by
  obtain ⟨first, rest⟩ := run
  induction rest using List.reverseRecOn with
  | nil => exact ⟨.leaf first, rfl, trivial⟩
  | append_singleton rest p ih =>
    obtain ⟨tree, hrun, hordered⟩ := ih
    exact ⟨tree.push p.1 p.2, by rw [Grouping.push_run, hrun], tree.push_ordered p.1 p.2 hordered⟩

/-- Each sequence of a chain has a tree, and no chain of other trees fits. -/
theorem Chain.exists_each (chain : Chain Run) : ∃ trees, chain.Each Run.Groups trees ∧
    ∀ trees', chain.Each Run.Groups trees' → trees' = trees := by
  have unique {run : Run} {tree tree' : Grouping} (h : run.Groups tree) (h' : run.Groups tree') :
      tree' = tree := Grouping.unique h'.2 h.2 (h'.1.trans h.1.symm)
  induction chain with
  | last run =>
    obtain ⟨tree, h⟩ := run.exists_groups
    refine ⟨.last tree, .last h, fun trees' hother => ?_⟩
    cases hother with
    | last h' => rw [unique h h']
  | falsy run rest ih =>
    obtain ⟨tree, h⟩ := run.exists_groups
    obtain ⟨trees, heach, hall⟩ := ih
    refine ⟨.falsy tree trees, .falsy h heach, fun trees' hother => ?_⟩
    cases hother with
    | falsy h' hrest => rw [unique h h', hall _ hrest]
  | ternary run t rest ih =>
    obtain ⟨tree, h⟩ := run.exists_groups
    obtain ⟨trees, heach, hall⟩ := ih
    refine ⟨.ternary tree t trees, .ternary h heach, fun trees' hother => ?_⟩
    cases hother with
    | ternary h' hrest => rw [unique h h', hall _ hrest]

/-- A base reads as itself in front of any seam. -/
theorem Base.reads (base : Base) : ReadsAs Seam 8 base.text base.expr := by
  cases base with
  | var name => exact (ReadsAs.var name.2).mono fun _ => Seam.edge
  | scopedVar scope name => exact (ReadsAs.scopedVar name.2).mono fun _ => Seam.edge
  | integer text value token fits => exact (ReadsAs.integer token.2 fits).mono fun _ => Seam.edge
  | paren s => exact s.paren (Nat.le_refl 8)

/-- Prefix operators are read from the innermost outwards. -/
theorem Operand.reads (o : Operand) : ReadsAs Seam 6 o.text o.expr := by
  obtain ⟨prefixes, base⟩ := o
  induction prefixes with
  | nil => exact base.reads.loosen (by decide) (Nat.le_refl 8)
  | cons p prefixes ih => exact ih.unary p.2.2

/-- The text of a tree is that of its sides with the operator between them. -/
theorem Run.text_node (link : Link) (left right : Grouping) :
    (Grouping.node link left right).run.text =
      left.run.text ++ (link.left ++ (link.token ++ (link.right ++ right.run.text))) := by
  simp only [Run.text, Grouping.run, Link.text, List.flatMap_append, List.flatMap_cons,
    List.append_assoc]

/-- What a tree was made from reads as the tree, at the level of its root. -/
theorem Grouping.reads {tree : Grouping} (h : tree.Ordered) :
    ReadsAs Seam tree.level tree.run.text tree.expr := by
  have level_le_six (tree : Grouping) : tree.level ≤ 6 := by
    cases tree with
    | leaf => exact Nat.le_refl 6
    | node link => exact Nat.le_trans link.op.tier_bounds.2 (by decide)
  induction tree with
  | leaf o =>
    rw [run, Run.text, List.flatMap_nil, List.append_nil]
    exact o.reads
  | node link left right ihl ihr =>
    obtain ⟨hleft, hright, hl, hr⟩ := h
    have hleft := (ihl hl).loosen hleft (Nat.le_trans (level_le_six left) (by decide))
    have hright := (ihr hr).loosen hright (Nat.le_trans (level_le_six right) (by decide))
    obtain ⟨c, b, hb⟩ := List.exists_cons_of_ne_nil link.left_blank.1
    obtain ⟨c', b', hb'⟩ := List.exists_cons_of_ne_nil link.right_blank.1
    have := hleft.binary hright link.token_of (hb ▸ link.left_blank.2) (hb' ▸ link.right_blank.2)
    rw [Run.text_node, hb, hb']
    exact this

/-- A run reads as its ordered tree. -/
theorem Run.Groups.reads {run : Run} {tree : Grouping} (h : run.Groups tree) :
    ReadsAs Seam 1 run.text tree.expr := by
  obtain ⟨rfl, hordered⟩ := h
  have hreads := Grouping.reads hordered
  cases tree with
  | leaf => exact hreads.loosen (show 1 ≤ 6 by decide) (show 6 ≤ 8 by decide)
  | node link =>
    have hbounds := link.op.tier_bounds
    exact hreads.loosen hbounds.1 (Nat.le_trans hbounds.2 (by decide))

/-- A chain reads as the conditional of the ordered trees of its runs. -/
theorem Chain.Each.reads {chain : Chain Run} {trees : Chain Grouping}
    (h : chain.Each Run.Groups trees) : ReadsAs Seam 0 chain.text trees.expr := by
  induction h with
  | last h => exact h.reads.loosen (by decide) (by decide)
  | falsy h _ ih =>
    exact h.reads.falsy ih blank_space blank_space
  | @ternary _ _ t _ _ h _ ih =>
    obtain ⟨v, u, v', htext, hv, hv', hreads⟩ := t.denotes.reads
    obtain ⟨c, b, hb⟩ := List.exists_cons_of_ne_nil (l := v' ++ [' ']) (by simp)
    have hblank : (c :: b).all isSpace = true := by
      rw [← hb, List.all_append, hv']
      rfl
    have hspaced : (' ' :: v).all isSpace = true := hv
    have := h.reads.ternary hreads ih blank_space hspaced hblank blank_space
    rw [← hb] at this
    rw [text, expr, htext]
    simpa using this

/-- Every chain of sequences of operands is read, as the one chain of trees that fits it. -/
theorem Chain.denotes_grouping (chain : Chain Run) : ∃ trees, chain.Each Run.Groups trees ∧
    (∀ trees', chain.Each Run.Groups trees' → trees' = trees) ∧
      Denotes chain.text trees.expr := by
  obtain ⟨trees, heach, hunique⟩ := chain.exists_each
  exact ⟨trees, heach, hunique, heach.reads.denotes (by decide)⟩

end Vimscript
