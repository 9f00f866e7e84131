import Mathlib.Data.List.Forall2
import Vimscript.Proofs.Expr.Traversal

/-!
# What readings yield

A reading may be refused, and then nothing is said of it. A property of its value, if there is one,
is put together from those of its parts: step by step along computations, node by node over lists,
and by an invariant over runs of operators.
-/

namespace Vimscript

/-- The value of a computation, if there is one, has a property. -/
def Yields {α : Type} (q : α → Prop) : Except Error α → Prop
  | .ok a => q a
  | .error _ => True

namespace Yields

variable {α β : Type} {q : α → Prop} {q' : β → Prop} {x : Except Error α} {budget : Nat}
  {span : Span}

/-- A value is passed on to what comes behind it. -/
theorem bind {f : α → Except Error β} (h : Yields q x) (h' : ∀ a, q a → Yields q' (f a)) :
    Yields q' (x >>= f) := by
  cases x with
  | ok a => exact h' a h
  | error e => exact trivial

/-- What is made of a value has what follows from the property of the value. -/
theorem map {f : α → β} (h : Yields q x) (h' : ∀ a, q a → q' (f a)) : Yields q' (x.map f) := by
  cases x with
  | ok a => exact h' a h
  | error e => exact trivial

/-- A value has whatever follows from a property that it has. -/
theorem mono {q' : α → Prop} (h : Yields q x) (h' : ∀ a, q a → q' a) : Yields q' x := by
  cases x with
  | ok a => exact h' a h
  | error e => exact trivial

/-- Of any computation it can be said that it yields what it does. -/
theorem any : Yields (fun _ => True) x := by cases x <;> exact trivial

/-- A level takes its unit of the budget or is refused. -/
theorem charge {level : Nat → Except Error α} (h : ∀ budget, Yields q (level budget)) :
    Yields q (Tree.charge budget span level) := by
  cases budget with
  | zero => exact trivial
  | succ budget => exact h budget

/-- A node that is not refused for its tag has it. -/
theorem expect (tag : Tag) (t : Tree Tag) : Yields (fun _ => t.label = tag) (Tree.expect tag t) := by
  unfold Tree.expect
  split
  · assumption
  · exact trivial

/-- The values of a list go with its elements, one by one. -/
theorem mapM {f : α → Except Error β} {R : α → β → Prop} {as : List α}
    (h : ∀ a ∈ as, Yields (R a) (f a)) : Yields (List.Forall₂ R as) (as.mapM f) := by
  induction as with
  | nil => exact List.Forall₂.nil
  | cons a as ih =>
    rw [List.mapM_cons]
    refine (h a List.mem_cons_self).bind fun b hb => ?_
    exact (ih fun a' ha => h a' (List.mem_cons_of_mem a ha)).bind fun bs hbs =>
      List.Forall₂.cons hb hbs

/-- What is yielded by each element of a list holds of all values. -/
theorem mapM_forall {f : α → Except Error β} {as : List α} (h : ∀ a ∈ as, Yields q' (f a)) :
    Yields (fun bs => ∀ b ∈ bs, q' b) (as.mapM f) :=
  (mapM h).mono fun bs hbs => by
    clear h
    induction hbs with
    | nil => exact List.forall_mem_nil _
    | cons hb _ ih => exact List.forall_mem_cons.mpr ⟨hb, ih⟩

/-- What a list of readings tells of their elements it tells of all of them. -/
theorem mapM_checks {f : α → Except Error β} {as : List α}
    (h : ∀ a ∈ as, Yields (fun _ => q a) (f a)) : Yields (fun _ => ∀ a ∈ as, q a) (as.mapM f) :=
  (mapM h).mono fun bs hbs => by
    clear h
    induction hbs with
    | nil => exact List.forall_mem_nil _
    | cons ha _ ih => exact List.forall_mem_cons.mpr ⟨ha, ih⟩

/-- An entry that is not refused has its tag, a key and a value. -/
theorem entryWithin {q : Expr Span × Expr Span → Prop} {tag : Tag} {entry : Tree Tag}
    {readKey : Tree Tag → Except Error (Expr Span)}
    (h : ∀ key value, entry.label = tag → entry.children = [key, value] →
      Yields (fun k => Yields (fun v => q (k, v))
        (Tree.charge budget value.span fun budget => value.exprWithin budget)) (readKey key)) :
    Yields q (Tree.entryWithin budget tag readKey entry) := by
  unfold Tree.entryWithin
  split
  · rename_i key value hchildren
    split
    · exact (h key value ‹_› hchildren).bind fun k hk => hk.bind fun v hv => hv
    · exact trivial
  · exact trivial

/-- What a step keeps is kept by a run, as far as the run has come. -/
theorem runFrom {step : Tree.RunStep} {q : Expr Span → Prop}
    (inv : Tree Tag → Expr Span → List (Tree Tag) → Prop)
    (hstep : ∀ last left op operand rest, inv last left (op :: operand :: rest) →
      Yields (fun joined => inv operand joined rest) (step last left op operand))
    (hdone : ∀ last left, inv last left [] → q left) {last : Tree Tag} {left : Expr Span}
    {ts : List (Tree Tag)} (h : inv last left ts) : Yields q (Tree.runFrom step span last left ts) := by
  induction last, left, ts using Tree.runFrom.induct with
  | case1 last left => exact hdone last left h
  | case2 last left op => exact trivial
  | case3 last left op operand rest ih =>
    rw [Tree.runFrom]
    exact (hstep last left op operand rest h).bind fun joined hjoined => ih joined hjoined

end Yields

end Vimscript
