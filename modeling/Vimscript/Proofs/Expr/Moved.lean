import Vimscript.Proofs.Limits

/-!
# Trees that were moved in their source

Offsets count from some origin. When the origin moves and every span of a tree goes with it, the
expression that is made of the tree goes with it too, and so does the place of a refusal. Spans may
run backwards or leave their parents: blanks are looked for at the differences of offsets, and a
difference does not know its origin, not even where it is cut off at zero. The main result is
`Tree.toExpr_shift`.
-/

namespace Vimscript

/-- A span that lies some bytes further on. -/
def Span.shift (k : Nat) (s : Span) : Span := ⟨s.start + k, s.stop + k⟩

/-- A moved span starts by so much later. -/
@[simp] theorem Span.shift_start (k : Nat) (s : Span) : (s.shift k).start = s.start + k := rfl

/-- It stops by so much later. -/
@[simp] theorem Span.shift_stop (k : Nat) (s : Span) : (s.shift k).stop = s.stop + k := rfl

/-- What lies over two spans moves with both. -/
theorem Span.shift_merge (k : Nat) (a b : Span) :
    (a.merge b).shift k = (a.shift k).merge (b.shift k) := by
  simp only [shift, merge, Nat.add_min_add_right, Nat.add_max_add_right]

/-- The same cause at a place some bytes further on. -/
def Error.shift (k : Nat) : Error → Error
  | incomplete => incomplete
  | mismatch span message => mismatch (span.shift k) message
  | unknownOperator span token => unknownOperator (span.shift k) token
  | unsupported span construct => unsupported (span.shift k) construct
  | invalidLiteral span kind text => invalidLiteral (span.shift k) kind text
  | nestingDepth span counts => nestingDepth (span.shift k) counts
  | callLimit span => callLimit (span.shift k)

namespace Tree

variable {Label : Type}

mutual

/-- The tree with all its nodes some bytes further on, over the same texts. -/
def shift (k : Nat) : Tree Label → Tree Label
  | node label span excerpt children => node label (span.shift k) excerpt (shiftAll k children)

/-- The trees with all their nodes some bytes further on. -/
def shiftAll (k : Nat) : List (Tree Label) → List (Tree Label)
  | [] => []
  | tree :: rest => shift k tree :: shiftAll k rest

end

variable {k : Nat} {t : Tree Label} {ts : List (Tree Label)}

/-- Lists are moved tree by tree. -/
theorem shiftAll_eq_map : shiftAll k ts = ts.map (shift k) := by
  induction ts with
  | nil => rfl
  | cons t rest ih => rw [shiftAll, ih, List.map_cons]

/-- A moved tree has the moved span. -/
@[simp] theorem span_shift : (t.shift k).span = t.span.shift k := by
  cases t
  rw [shift, span, span]

/-- It has the text of the tree. -/
@[simp] theorem text_shift : (t.shift k).text = t.text := by
  cases t
  rw [shift, text, text]

/-- The text between two neighbours lies as far from the start of their parent as before. -/
theorem blankBetween_shift {origin : Nat} {text : List Char} {left right : Tree Label} :
    blankBetween (origin + k) text (left.shift k) (right.shift k) =
      blankBetween origin text left right := by
  simp only [blankBetween, text_shift, span_shift, Span.shift_start, Span.shift_stop,
    Nat.add_sub_add_right]

/-- Blanks are looked for at the same places of the text, since the origin moves as well. -/
theorem blankAmong_shift {origin : Nat} {text : List Char} :
    blankAmong (origin + k) text (ts.map (shift k)) = blankAmong origin text ts := by
  induction ts with
  | nil => rfl
  | cons left rest ih =>
    cases rest with
    | nil => rfl
    | cons right rest =>
      simp only [List.map_cons, blankAmong, blankBetween_shift] at ih ⊢
      rw [ih]

end Tree

namespace Likeness

/-- A tree is compared with the tree that was moved, under one budget. -/
def ofShift (k : Nat) : Likeness Span where
  left := Span.shift k
  right := id
  merge := by
    rintro a b c d rfl rfl
    exact Span.shift_merge k a c
  slack := False

variable {k : Nat}

/-- A tree that was moved reads like the tree it was. -/
theorem trees_shift (t : Tree Tag) : (ofShift k).Trees t (t.shift k) := by
  induction hsize : sizeOf t using Nat.strongRecOn generalizing t with
  | ind size ih => ?_
  obtain ⟨tag, span, excerpt, children⟩ := t
  rw [Tree.node.sizeOf_spec] at hsize
  rw [Tree.shift, Tree.shiftAll_eq_map]
  refine ⟨rfl, rfl, fun _ => rfl, rfl, fun _ n => ?_, ?_⟩
  · rw [← List.map_drop, ← List.map_take, Span.shift_start, Tree.blankAmong_shift]
  · have hchildren : sizeOf children ≤ size := by omega
    clear hsize
    induction children with
    | nil => exact trivial
    | cons t rest ihrest =>
      rw [List.cons.sizeOf_spec] at hchildren
      exact ⟨ih _ (by omega) t rfl, ihrest (by omega)⟩

/-- Refusals for one cause at places that correspond are one refusal that was moved. -/
theorem ofShift_errors {error error' : Error} (h : (ofShift k).Errors error error') :
    error' = error.shift k := by
  cases error <;> cases error' <;> first | exact h.elim | skip
  · obtain ⟨hspan, rfl⟩ := h
    exact congrArg (Error.unknownOperator · _) hspan.symm
  · obtain ⟨hspan, rfl⟩ := h
    exact congrArg (Error.unsupported · _) hspan.symm
  · obtain ⟨hspan, rfl, rfl⟩ := h
    exact congrArg (Error.invalidLiteral · _ _) hspan.symm
  · obtain ⟨hspan, rfl⟩ := h
    exact congrArg (Error.nestingDepth · _) hspan.symm

/-- Results that agree are one result that was moved. -/
theorem ofShift_results {x y : Except Error (Expr Span)}
    (h : (ofShift k).Results (ofShift k).Exprs x y) :
    y = (x.map (Expr.map (Span.shift k))).mapError (Error.shift k) := by
  cases x with
  | ok e =>
    cases y with
    | ok e' =>
      have same : e.map (Span.shift k) = e'.map id := h
      rw [Expr.map_id] at same
      exact congrArg Except.ok same.symm
    | error error => exact h.elim
  | error error =>
    cases y with
    | ok e => exact h.1.elim
    | error error' =>
      rcases h with h | ⟨hslack, -⟩
      · exact congrArg Except.error (ofShift_errors h)
      · exact hslack.elim

end Likeness

namespace Tree

/-- A tree all of whose spans lie some bytes further on gives the same result as before, all of
whose spans lie as many bytes further on: the same expression, or a refusal for the same cause. -/
theorem toExpr_shift (k budget : Nat) (t : Tree Tag) : (t.shift k).toExpr budget =
    ((t.toExpr budget).map (Expr.map (Span.shift k))).mapError (Error.shift k) := by
  have agree : (Likeness.ofShift k).Results (Likeness.ofShift k).Exprs (t.toExpr budget)
      ((t.shift k).toExpr budget) := by
    refine .charge (.inl rfl) ?_ fun _ _ hb => Likeness.exprWithin (Likeness.trees_shift t) hb
    rw [span_shift]
    rfl
  exact Likeness.ofShift_results agree

/-- Spans that run backwards and past their parent move like any others. -/
example :
    let t := node .additive ⟨3, 1⟩ (.ofList "a.b".toList)
      [node .variableRef ⟨9, 2⟩ (.ofList ['a']) [node .name ⟨0, 0⟩ (.ofList ['a']) []],
        node .operator ⟨1, 0⟩ (.ofList ['.']) [],
        node .variableRef ⟨0, 7⟩ (.ofList ['b']) [node .name ⟨5, 5⟩ (.ofList ['b']) []]]
    ((t.shift 40).toExpr 1).map (·.mark) = .ok ⟨40, 47⟩ := by
  decide +kernel

end Tree

end Vimscript
