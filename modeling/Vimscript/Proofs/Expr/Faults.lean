import Vimscript.Expr.OfTree
import Vimscript.Proofs.Expr.Spelling

/-!
# Faults of parse trees

What can be wrong with a tree that the grammar makes: blobs, numbers that are too large, and
conditional levels below the budget. Each is told from the node alone and from the number of levels
on the path to it, so the faults of a tree can be listed without building anything.
-/

namespace Vimscript

namespace Numeral

/-- The value of an integer literal, however large. -/
def literalValue? (text : List Char) : Option Nat := value? (split text).1 (split text).2

/-- A number is decoded to the value of its digits if that fits. -/
theorem decode?_eq (text : List Char) : decode? text =
    (literalValue? text).bind fun n => if n < bound then some (Int64.ofNat n) else none := by
  unfold decode? literalValue?
  dsimp only
  split <;> simp_all

end Numeral

/-- The refusals that trees of the grammar call for: of blobs, of numbers without a value that fits
and of levels below the budget. -/
def Error.isFault : Error → Bool
  | .unsupported _ .blob | .invalidLiteral _ _ _ | .nestingDepth _ none => true
  | _ => false

namespace Tree

mutual

/-- The nodes of a tree, each before its children and with the number of conditional levels on its
path, itself included, where `above` levels lie above the tree. -/
def leveled (above : Nat) : Tree Tag → List (Nat × Tree Tag)
  | node tag span excerpt children =>
    let level := if tag = .conditional then above + 1 else above
    (level, node tag span excerpt children) :: leveledAll level children

/-- The nodes of trees one after the other. -/
def leveledAll (above : Nat) : List (Tree Tag) → List (Nat × Tree Tag)
  | [] => []
  | tree :: rest => leveled above tree ++ leveledAll above rest

end

/-- The refusal that a node at a level calls for by itself. A level too many is refused where it
begins, or at the root where no level is allowed. -/
def fault? (budget : Nat) (root : Span) (level : Nat) : Tree Tag → Option Error
  | node .blob span _ _ => some (.unsupported span .blob)
  | node .integer span excerpt _ =>
    if (Numeral.literalValue? excerpt.toList).any (Numeral.bound ≤ ·) then
      some (.invalidLiteral span .integer excerpt.toList)
    else none
  | node .float span excerpt _ =>
    if Binary64.ofText? excerpt.toList = some (.infinite false) then
      some (.invalidLiteral span .float excerpt.toList)
    else none
  | node .conditional span _ _ =>
    if budget < level then some (.nestingDepth (if budget = 0 then root else span) none) else none
  | _ => none

/-- The refusals that the nodes of a tree call for, in the order of the source. -/
def faults (budget : Nat) (tree : Tree Tag) : List Error :=
  (leveled 0 tree).filterMap fun place => fault? budget tree.span place.1 place.2

/-- What a node calls for by itself is a fault. -/
theorem fault?_isFault {budget level : Nat} {root : Span} {t : Tree Tag} {error : Error}
    (h : fault? budget root level t = some error) : error.isFault = true := by
  unfold fault? at h
  split at h
  · cases h
    rfl
  · split at h <;> cases h
    rfl
  · split at h <;> cases h
    rfl
  · split at h <;> cases h
    rfl
  · cases h

/-- All refusals that a tree calls for are faults. -/
theorem isFault_of_mem_faults {budget : Nat} {t : Tree Tag} {error : Error}
    (h : error ∈ t.faults budget) : error.isFault = true := by
  obtain ⟨place, -, hplace⟩ := List.mem_filterMap.mp h
  exact fault?_isFault hplace

/-- The refusals in a tree below some levels of another tree. -/
def faultsBelow (budget : Nat) (root : Span) (above : Nat) (tree : Tree Tag) : List Error :=
  (leveled above tree).filterMap fun place => fault? budget root place.1 place.2

/-- The refusals in trees one after the other. -/
def faultsAmong (budget : Nat) (root : Span) (above : Nat) (trees : List (Tree Tag)) : List Error :=
  (leveledAll above trees).filterMap fun place => fault? budget root place.1 place.2

section

variable {budget above : Nat} {root span : Span} {excerpt : Excerpt} {tag : Tag} {t : Tree Tag}
  {ts : List (Tree Tag)}

/-- Where there is no tree there is no refusal. -/
@[simp] theorem faultsAmong_nil : faultsAmong budget root above [] = [] := rfl

/-- The refusals in a first tree come before those in the rest. -/
@[simp] theorem faultsAmong_cons : faultsAmong budget root above (t :: ts) =
    faultsBelow budget root above t ++ faultsAmong budget root above ts := by
  rw [faultsAmong, leveledAll, List.filterMap_append]
  rfl

/-- The refusals in trees one after the other are those in each of them. -/
theorem faultsAmong_eq_flatMap :
    faultsAmong budget root above ts = ts.flatMap (faultsBelow budget root above) := by
  induction ts with
  | nil => rfl
  | cons t ts ih => rw [faultsAmong_cons, ih, List.flatMap_cons]

/-- Tags whose nodes call for no refusal by themselves. -/
def isFaultless : Tag → Bool
  | .blob | .integer | .float | .conditional => false
  | _ => true

/-- A node that calls for no refusal by itself has those of its children. -/
theorem faultsBelow_node (h : isFaultless tag = true) :
    faultsBelow budget root above (node tag span excerpt ts) = faultsAmong budget root above ts := by
  have hlevel : (if tag = .conditional then above + 1 else above) = above := by
    rw [if_neg]
    rintro rfl
    cases h
  rw [faultsBelow, leveled, hlevel, List.filterMap_cons]
  cases tag <;> first | rfl | cases h

/-- A level within the budget calls for no refusal by itself. -/
theorem faultsBelow_conditional (h : above + 1 ≤ budget) :
    faultsBelow budget root above (node .conditional span excerpt ts) =
      faultsAmong budget root (above + 1) ts := by
  rw [faultsBelow, leveled, if_pos rfl, List.filterMap_cons, fault?, if_neg (by omega)]
  rfl

end

end Tree

/-- A computation succeeds with what a property holds of where no refusal is called for, and fails
with the first refusal otherwise. -/
def Reports {α : Type} (q : α → Prop) (result : Except Error α) : List Error → Prop
  | [] => ∃ a, result = .ok a ∧ q a
  | error :: _ => result = .error error

namespace Reports

variable {α β : Type} {q : α → Prop} {q' : β → Prop} {x : Except Error α} {f : α → Except Error β}
  {errors errors' : List Error}

/-- A value is reported with no refusal. -/
theorem ok {a : α} (h : q a) : Reports q (.ok a) [] := ⟨a, rfl, h⟩

/-- The refusals that a second step calls for come behind those of the first. -/
theorem bind (h : Reports q x errors) (h' : ∀ a, q a → Reports q' (f a) errors') :
    Reports q' (x >>= f) (errors ++ errors') := by
  cases errors with
  | nil =>
    obtain ⟨a, rfl, ha⟩ := h
    exact h' a ha
  | cons error more =>
    obtain rfl : x = .error error := h
    rfl

/-- A step that cannot fail. -/
theorem bind_ok {a : α} (hx : x = .ok a) (h : Reports q' (f a) errors) :
    Reports q' (x >>= f) errors := by
  subst hx
  exact h

/-- A second step that calls for no refusal. -/
theorem bind_nil (h : Reports q x errors) (h' : ∀ a, q a → Reports q' (f a) []) :
    Reports q' (x >>= f) errors := by
  have := h.bind h'
  rwa [List.append_nil] at this

/-- What is made of a value adds no refusal. -/
theorem bind_pure {g : α → β} (h : Reports q x errors) (h' : ∀ a, q a → q' (g a)) :
    Reports q' (x >>= fun a => pure (g a)) errors :=
  h.bind_nil fun a ha => .ok (h' a ha)

/-- The same for a function that is mapped over a result. -/
theorem map {g : α → β} (h : Reports q x errors) (h' : ∀ a, q a → q' (g a)) :
    Reports q' (x.map g) errors := by
  cases errors with
  | nil =>
    obtain ⟨a, rfl, ha⟩ := h
    exact ⟨g a, rfl, h' a ha⟩
  | cons error more =>
    obtain rfl : x = .error error := h
    rfl

/-- A value has whatever follows from the property that is reported. -/
theorem mono {q' : α → Prop} (h : Reports q x errors) (h' : ∀ a, q a → q' a) :
    Reports q' x errors := by
  cases errors with
  | nil =>
    obtain ⟨a, rfl, ha⟩ := h
    exact ⟨a, rfl, h' a ha⟩
  | cons error more => exact h

/-- A list reports the refusals that its elements call for, one after the other. -/
theorem mapM {as : List α} {errors : α → List Error}
    (h : ∀ a ∈ as, Reports q' (f a) (errors a)) :
    Reports (fun bs => ∀ b ∈ bs, q' b) (as.mapM f) (as.flatMap errors) := by
  induction as with
  | nil => exact .ok (List.forall_mem_nil _)
  | cons a as ih =>
    rw [List.mapM_cons, List.flatMap_cons]
    refine (h a List.mem_cons_self).bind fun b hb => ?_
    exact (ih fun a' ha => h a' (List.mem_cons_of_mem a ha)).bind_pure fun bs hbs =>
      List.forall_mem_cons.mpr ⟨hb, hbs⟩

/-- What succeeds does so with what the property holds of. -/
theorem of_ok {a : α} (h : Reports q (.ok a) errors) : q a := by
  cases errors with
  | nil =>
    obtain ⟨_, hsame, ha⟩ := h
    cases hsame
    exact ha
  | cons error more => cases h

end Reports

end Vimscript
