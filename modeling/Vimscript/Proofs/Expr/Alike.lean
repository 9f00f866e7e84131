import Mathlib.Data.List.Forall2
import Vimscript.Expr.OfTree

/-!
# Trees and results that are alike

Two parse trees read alike when they have the same shape and the same tokens and put blanks around
the same operators, wherever their nodes lie. Spans are compared through two functions to marks, so
that one notion covers trees that moved in the source, trees of one text inside another, and one
tree read under two budgets. Results agree if they are of one shape with the same marks. Tokens that
read alike are read as the same values, and expressions that agree still do when they are put
together.
-/

namespace Vimscript

namespace Text

/-- The key that a text is, if it can be one. -/
def key? (text : List Char) : Option (List Char) := if isLiteralKey text then some text else none

/-- Two texts that are the same key, if any, are one text or neither of them is a key. -/
theorem key?_cases {text text' : List Char} (h : key? text = key? text') :
    isLiteralKey text = true ∧ text' = text ∨
      isLiteralKey text = false ∧ isLiteralKey text' = false := by
  unfold key? at h
  cases hkey : isLiteralKey text <;> cases hkey' : isLiteralKey text' <;>
    simp only [hkey, hkey', if_true, if_false, Bool.false_eq_true, reduceCtorEq,
      Option.some.injEq] at h
  · exact .inr ⟨rfl, rfl⟩
  · exact .inl ⟨rfl, h.symm⟩

end Text

/-- Whether the text of a node counts as it stands; of the other nodes only their children count,
and the key that the trimmed text is. -/
def Tag.isToken : Tag → Bool
  | operator | integer | float | string | register | scope | name | literalDictKey => true
  | _ => false

/-- Two ways to see spans as marks, by which two readings are compared. -/
structure Likeness (Mark : Type) where
  /-- The mark of a span of the first reading. -/
  left : Span → Mark
  /-- The mark of a span of the second reading. -/
  right : Span → Mark
  /-- Joined spans have one mark where their parts have. -/
  merge : ∀ {a b c d : Span}, left a = right b → left c = right d →
    left (a.merge c) = right (b.merge d)
  /-- Whether the first reading may have the smaller budget. -/
  slack : Prop

namespace Expr

variable {Mark Other : Type} (f : Mark → Other)

/-- Marks are mapped like any others at the top. -/
theorem mark_map (e : Expr Mark) : (e.map f).mark = f e.mark := by
  cases e <;> simp only [map, mark]

/-- What can be a dictionary does not hang on marks. -/
theorem couldBeDict_map (e : Expr Mark) : (e.map f).couldBeDict = e.couldBeDict := by
  cases e <;> simp only [map, couldBeDict]

/-- An expression is a call by name or it is none. -/
theorem call_or (e : Expr Mark) : (∃ mark scope name args, e = call mark scope name args) ∨
    ∀ mark scope name args, e ≠ call mark scope name args := by
  cases e with
  | call => exact .inl ⟨_, _, _, _, rfl⟩
  | _ => exact .inr fun _ _ _ _ h => by cases h

/-- What has the shape of a call is one. -/
theorem call_of_map {f} {e : Expr Mark} {mark : Other} {scope : Option Scope} {name : List Char}
    {args : List (Expr Other)} (h : e.map f = call mark scope name args) :
    ∃ mark' args', e = call mark' scope name args' ∧ f mark' = mark ∧ mapItems f args' = args := by
  cases e <;> simp only [map, reduceCtorEq, call.injEq] at h
  obtain ⟨rfl, rfl, rfl, rfl⟩ := h
  exact ⟨_, _, rfl, rfl, rfl⟩

/-- A point in front of what is no call makes a field if the text can be a key, and a concatenation
otherwise. -/
theorem dot_of_ne {left right : Expr Span} {text : List Char}
    (h : ∀ mark scope name args, right ≠ call mark scope name args) :
    left.dot right text = if Text.isLiteralKey text then left.field text right.mark
      else join .concat left right := by
  cases right with
  | call => exact (h _ _ _ _ rfl).elim
  | _ => rfl

/-- An expression is a field with a text for its key or it is none. -/
theorem field_or (e : Expr Mark) :
    (∃ mark base keyMark key, e = index mark base (literal keyMark (.string key))) ∨
      ∀ mark base keyMark key, e ≠ index mark base (literal keyMark (.string key)) := by
  cases e with
  | index _ _ key =>
    cases key with
    | literal _ value =>
      cases value with
      | string => exact .inl ⟨_, _, _, _, rfl⟩
      | _ => exact .inr fun _ _ _ _ h => by cases h
    | _ => exact .inr fun _ _ _ _ h => by cases h
  | _ => exact .inr fun _ _ _ _ h => by cases h

/-- What has the shape of a field is one. -/
theorem field_of_map {f} {e : Expr Mark} {mark keyMark : Other} {base : Expr Other}
    {key : List Char} (h : e.map f = index mark base (literal keyMark (.string key))) :
    ∃ mark' base' keyMark', e = index mark' base' (literal keyMark' (.string key)) ∧
      f mark' = mark ∧ base'.map f = base ∧ f keyMark' = keyMark := by
  cases e <;> simp only [map, reduceCtorEq, index.injEq] at h
  rename_i keyExpr
  obtain ⟨rfl, rfl, h⟩ := h
  cases keyExpr <;> simp only [map, reduceCtorEq, literal.injEq] at h
  obtain ⟨rfl, rfl⟩ := h
  exact ⟨_, _, _, rfl, rfl, rfl, rfl⟩

/-- Only a field has a key that a dash can extend. -/
theorem extendKey?_of_ne {e : Expr Span} {suffix : List Char} {span : Span}
    (h : ∀ mark base keyMark key, e ≠ index mark base (literal keyMark (.string key))) :
    e.extendKey? suffix span = none := by
  unfold extendKey?
  split
  · exact (h _ _ _ _ rfl).elim
  · rfl

end Expr

namespace Likeness

variable {Mark : Type} (k : Likeness Mark)

mutual

/-- Two trees that read alike. -/
def Trees : Tree Tag → Tree Tag → Prop
  | .node tag span excerpt children, .node tag' span' excerpt' children' =>
    tag = tag' ∧ k.left span = k.right span' ∧
      (tag.isToken = true → excerpt.toList = excerpt'.toList) ∧
      Text.key? (Text.trim excerpt.toList) = Text.key? (Text.trim excerpt'.toList) ∧
      (tag = .additive → ∀ n,
        Tree.blankAmong span.start excerpt.toList ((children.drop n).take 3) =
          Tree.blankAmong span'.start excerpt'.toList ((children'.drop n).take 3)) ∧
      Forest children children'

/-- Lists of trees that read alike one by one. -/
def Forest : List (Tree Tag) → List (Tree Tag) → Prop
  | [], [] => True
  | t :: rest, t' :: rest' => Trees t t' ∧ Forest rest rest'
  | _, _ => False

end

/-- Two expressions of one shape with the same marks. -/
def Exprs (e e' : Expr Span) : Prop := e.map k.left = e'.map k.right

/-- Two refusals for one cause at places with the same mark. -/
def Errors : Error → Error → Prop
  | .unknownOperator span token, .unknownOperator span' token' =>
    k.left span = k.right span' ∧ token = token'
  | .unsupported span construct, .unsupported span' construct' =>
    k.left span = k.right span' ∧ construct = construct'
  | .invalidLiteral span kind text, .invalidLiteral span' kind' text' =>
    k.left span = k.right span' ∧ kind = kind' ∧ text = text'
  | .nestingDepth span counts, .nestingDepth span' counts' =>
    k.left span = k.right span' ∧ counts = counts'
  | _, _ => False

/-- Two budgets under which readings can be compared. -/
def Budgets (budget budget' : Nat) : Prop := budget = budget' ∨ k.slack ∧ budget ≤ budget'

/-- Two results that agree: both are refusals or both are values, unless the first ran out of the
smaller budget. -/
def Results {α β : Type} (rel : α → β → Prop) : Except Error α → Except Error β → Prop
  | .ok a, .ok b => rel a b
  | .error e, .error e' => k.Errors e e' ∨ k.slack ∧ ∃ span, e = .nestingDepth span none
  | .error e, .ok _ => k.slack ∧ ∃ span, e = .nestingDepth span none
  | .ok _, .error _ => False

variable {k} {α β γ δ : Type} {rel : α → β → Prop} {rel' : γ → δ → Prop}

/-- Results are put together step by step: a refusal ends both sides, or the first side alone where
it ran out of the smaller budget. -/
theorem Results.bind {x : Except Error α} {y : Except Error β} {next : α → Except Error γ}
    {next' : β → Except Error δ} (h : k.Results rel x y)
    (hnext : ∀ a b, rel a b → k.Results rel' (next a) (next' b)) :
    k.Results rel' (x >>= next) (y >>= next') := by
  cases x with
  | ok a =>
    cases y with
    | ok b => exact hnext a b h
    | error e => exact h.elim
  | error e =>
    cases y with
    | ok b =>
      change k.Results rel' (.error e) (next' b)
      cases next' b with
      | ok _ => exact h
      | error _ => exact .inr h
    | error e' => exact h

/-- Values that agree are mapped to values that agree. -/
theorem Results.map {x : Except Error α} {y : Except Error β} {f : α → γ} {g : β → δ}
    (h : k.Results rel x y) (hmap : ∀ a b, rel a b → rel' (f a) (g b)) :
    k.Results rel' (x.map f) (y.map g) := by
  cases x with
  | ok a =>
    cases y with
    | ok b => exact hmap a b h
    | error e => exact h.elim
  | error e =>
    cases y with
    | ok b => exact h
    | error e' => exact h

/-- Values that agree are results that agree. -/
theorem Results.pure {a : α} {b : β} (h : rel a b) :
    k.Results rel (Pure.pure a) (Pure.pure b) := h

/-- Results that agree in one way agree in any way that follows from it. -/
theorem Results.mono {rel' : α → β → Prop} {x : Except Error α} {y : Except Error β}
    (h : k.Results rel x y) (hrel : ∀ a b, rel a b → rel' a b) : k.Results rel' x y := by
  have := h.bind fun a b hab => Results.pure (hrel a b hab)
  rwa [bind_pure, bind_pure] at this

/-- Unexpected nodes are refused at places with the same mark. -/
theorem Results.unexpected {span span' : Span} (h : k.left span = k.right span') :
    k.Results rel (Tree.unexpected span) (Tree.unexpected span') := .inl ⟨h, rfl⟩

/-- A level is entered on both sides, unless the first budget is used up before the second. -/
theorem Results.charge {budget budget' : Nat} {span span' : Span} {level : Nat → Except Error α}
    {level' : Nat → Except Error β} (hbudget : k.Budgets budget budget')
    (hspan : k.left span = k.right span')
    (h : ∀ b b', k.Budgets b b' → k.Results rel (level b) (level' b')) :
    k.Results rel (Tree.charge budget span level) (Tree.charge budget' span' level') := by
  cases budget with
  | zero =>
    rcases hbudget with rfl | ⟨hslack, -⟩
    · exact .inl ⟨hspan, rfl⟩
    · cases hresult : Tree.charge budget' span' level' with
      | ok _ => exact ⟨hslack, span, rfl⟩
      | error _ => exact .inr ⟨hslack, span, rfl⟩
  | succ budget =>
    cases budget' with
    | zero =>
      rcases hbudget with h | ⟨-, h⟩
      · cases h
      · exact (Nat.not_succ_le_zero _ h).elim
    | succ budget' =>
      refine h _ _ ?_
      rcases hbudget with h | ⟨hslack, h⟩
      · exact .inl (Nat.succ.inj h)
      · exact .inr ⟨hslack, Nat.le_of_succ_le_succ h⟩

/-- A tree reads like itself. -/
theorem Trees.refl (hmark : k.left = k.right) (t : Tree Tag) : k.Trees t t := by
  induction hsize : sizeOf t using Nat.strongRecOn generalizing t with
  | ind size ih => ?_
  obtain ⟨tag, span, excerpt, children⟩ := t
  rw [Tree.node.sizeOf_spec] at hsize
  refine ⟨rfl, congrFun hmark span, fun _ => rfl, rfl, fun _ _ => rfl, ?_⟩
  have hchildren : sizeOf children ≤ size := by omega
  clear hsize
  induction children with
  | nil => exact trivial
  | cons t rest ihrest =>
    rw [List.cons.sizeOf_spec] at hchildren
    exact ⟨ih _ (by omega) t rfl, ihrest (by omega)⟩

variable {e e' : Expr Span}

/-- Expressions that agree have one shape once their marks are compared. -/
theorem Exprs.map_eq (h : k.Exprs e e') : e.map k.left = e'.map k.right := h

/-- They stand at places with the same mark. -/
theorem Exprs.mark (h : k.Exprs e e') : k.left e.mark = k.right e'.mark := by
  rw [← Expr.mark_map k.left, ← Expr.mark_map k.right]
  exact congrArg Expr.mark h

/-- Both can be dictionaries or neither can. -/
theorem Exprs.couldBeDict (h : k.Exprs e e') : e.couldBeDict = e'.couldBeDict := by
  rw [← Expr.couldBeDict_map k.left, ← Expr.couldBeDict_map k.right]
  exact congrArg Expr.couldBeDict h

/-- They are joined to expressions that agree. -/
theorem Exprs.join {op : BinaryOp} {a b a' b' : Expr Span} (h : k.Exprs a a')
    (h' : k.Exprs b b') : k.Exprs (.join op a b) (.join op a' b') := by
  simp only [Exprs, Expr.join, Expr.map, k.merge h.mark h'.mark, show a.map _ = a'.map _ from h,
    show b.map _ = b'.map _ from h']

/-- Fields of bases that agree do so if their keys stand at places with the same mark. -/
theorem Exprs.field (key : List Char) {span span' : Span} (h : k.Exprs e e')
    (hspan : k.left span = k.right span') :
    k.Exprs (.field e key span) (.field e' key span') := by
  simp only [Exprs, Expr.field, Expr.map, k.merge h.mark hspan, hspan,
    show e.map _ = e'.map _ from h]

/-- A point makes a field, a call of a field or a concatenation on both sides alike, since calls and
keys are told alike. -/
theorem Exprs.dot {text text' : List Char} {a b a' b' : Expr Span} (h : k.Exprs a a')
    (h' : k.Exprs b b') (htext : Text.key? text = Text.key? text') :
    k.Exprs (a.dot b text) (a'.dot b' text') := by
  rcases b.call_or with ⟨span, scope, name, args, rfl⟩ | hb
  · obtain ⟨span', args', rfl, hspan, hargs⟩ := Expr.call_of_map h'.symm
    have hfield := h.field name hspan.symm
    simp only [Exprs, Expr.dot, Expr.map, show (Expr.field a name span).map _ = _ from hfield,
      show k.left (Expr.field a name span).mark = _ from hfield.mark, hargs]
  · have hb' : ∀ span scope name args, b' ≠ .call span scope name args := by
      rintro span scope name args rfl
      obtain ⟨span', args', rfl, -, -⟩ := Expr.call_of_map h'
      exact hb _ _ _ _ rfl
    rw [Expr.dot_of_ne hb, Expr.dot_of_ne hb']
    rcases Text.key?_cases htext with ⟨hkey, rfl⟩ | ⟨hkey, hkey'⟩
    · rw [if_pos hkey, if_pos hkey]
      exact h.field _ h'.mark
    · rw [hkey, hkey']
      exact h.join h'

/-- Keys are extended on both sides or on neither. -/
theorem Exprs.extendKey? (suffix : List Char) {span span' : Span} (h : k.Exprs e e')
    (hspan : k.left span = k.right span') :
    e.extendKey? suffix span = none ∧ e'.extendKey? suffix span' = none ∨
      ∃ a a', e.extendKey? suffix span = some a ∧ e'.extendKey? suffix span' = some a' ∧
        k.Exprs a a' := by
  rcases e.field_or with ⟨mark, base, keyMark, key, rfl⟩ | he
  · obtain ⟨mark', base', keyMark', rfl, hmark, hbase, hkey⟩ := Expr.field_of_map h.symm
    refine .inr ⟨_, _, rfl, rfl, ?_⟩
    simp only [Exprs, Expr.map, k.merge hmark.symm hspan, k.merge hkey.symm hspan, hbase]
  · refine .inl ⟨Expr.extendKey?_of_ne he, Expr.extendKey?_of_ne ?_⟩
    rintro mark base keyMark key rfl
    obtain ⟨_, _, _, rfl, -⟩ := Expr.field_of_map h
    exact he _ _ _ _ rfl

/-- What is called is a lambda on both sides or on neither. -/
theorem Exprs.callOf {span span' : Span} {args args' : List (Expr Span)}
    (hspan : k.left span = k.right span') (h : k.Exprs e e')
    (hargs : Expr.mapItems k.left args = Expr.mapItems k.right args') :
    k.Exprs (Tree.callOf span e args) (Tree.callOf span' e' args') := by
  have map_callOf (f : Span → Mark) (span : Span) (e : Expr Span) (args : List (Expr Span)) :
      (∃ mark params body, e.map f = .lambda mark params body) ∧ (Tree.callOf span e args).map f =
        .lambdaCall (f span) (e.map f) (Expr.mapItems f args) ∨
      (∀ mark params body, e.map f ≠ .lambda mark params body) ∧ (Tree.callOf span e args).map f =
        .funcrefCall (f span) (e.map f) (Expr.mapItems f args) := by
    cases e with
    | lambda => exact .inl ⟨⟨_, _, _, rfl⟩, rfl⟩
    | _ => exact .inr ⟨fun _ _ _ h => by simp only [Expr.map, reduceCtorEq] at h, rfl⟩
  have hcallee : e.map k.left = e'.map k.right := h
  have hleft := map_callOf k.left span e args
  rw [hcallee, hspan, hargs] at hleft
  rcases hleft with ⟨⟨_, _, _, hlambda⟩, hleft⟩ | ⟨hother, hleft⟩ <;>
    rcases map_callOf k.right span' e' args' with ⟨⟨_, _, _, hlambda'⟩, hright⟩ | ⟨hother', hright⟩
  · exact hleft.trans hright.symm
  · exact (hother' _ _ _ hlambda).elim
  · exact (hother _ _ _ hlambda').elim
  · exact hleft.trans hright.symm

/-- New marks may be put on both. -/
theorem Exprs.withMark {span span' : Span} (hspan : k.left span = k.right span')
    (h : k.Exprs e e') : k.Exprs (e.withMark span) (e'.withMark span') := by
  have map_withMark (f : Span → Mark) (span : Span) (e : Expr Span) :
      (e.withMark span).map f = (e.map f).withMark (f span) := by
    cases e <;> rfl
  rw [Exprs, map_withMark, map_withMark, hspan, show e.map _ = e'.map _ from h]

variable {t t' : Tree Tag}

/-- Trees that read alike have one tag. -/
theorem Trees.label (h : k.Trees t t') : t.label = t'.label := by
  obtain ⟨⟩ := t
  obtain ⟨⟩ := t'
  exact h.1

/-- Trees that read alike stand at places with the same mark. -/
theorem Trees.span (h : k.Trees t t') : k.left t.span = k.right t'.span := by
  obtain ⟨⟩ := t
  obtain ⟨⟩ := t'
  exact h.2.1

/-- Tokens that read alike have one text. -/
theorem Trees.text (h : k.Trees t t') (ht : t.label.isToken = true) : t.text = t'.text := by
  obtain ⟨⟩ := t
  obtain ⟨⟩ := t'
  exact h.2.2.1 ht

/-- Trees that read alike are trimmed to the same key, if to any. -/
theorem Trees.key?_text (h : k.Trees t t') :
    Text.key? (Text.trim t.text) = Text.key? (Text.trim t'.text) := by
  obtain ⟨⟩ := t
  obtain ⟨⟩ := t'
  exact h.2.2.2.1

/-- A node is a token of the asked kind on both sides or on neither. -/
theorem Trees.expect_bind {α β : Type} {rel : α → β → Prop} {tag : Tag}
    {next : Unit → Except Error α} {next' : Unit → Except Error β} (h : k.Trees t t')
    (hnext : t.label = tag → k.Results rel (next ()) (next' ())) :
    k.Results rel (Tree.expect tag t >>= next) (Tree.expect tag t' >>= next') := by
  unfold Tree.expect
  rw [← h.label]
  split
  · exact hnext ‹_›
  · exact Results.unexpected h.span

/-- Operator tokens that read alike are the same operator, or refused alike. -/
theorem Trees.binaryOp (h : k.Trees t t') :
    k.Results Eq (Tree.binaryOp t) (Tree.binaryOp t') := by
  unfold Tree.binaryOp
  refine h.expect_bind fun htag => ?_
  rw [← h.text (by rw [htag]; rfl)]
  split
  · exact rfl
  · exact .inl ⟨h.span, rfl⟩

/-- They are applied alike to operands that agree. -/
theorem Trees.applyUnary {e e' : Expr Span} (h : k.Trees t t') (he : k.Exprs e e') :
    k.Results k.Exprs (Tree.applyUnary t e) (Tree.applyUnary t' e') := by
  unfold Tree.applyUnary
  refine h.expect_bind fun htag => ?_
  rw [← h.text (by rw [htag]; rfl)]
  split
  · simp only [Results, Exprs, Expr.map, k.merge h.span he.mark,
      show e.map _ = e'.map _ from he]
  · exact .inl ⟨h.span, rfl⟩

/-- Additive operators are applied alike where both stand tight or both do not. -/
theorem Trees.applyAdditive {tight : Bool} {a b a' b' : Expr Span} {text text' : List Char}
    (h : k.Trees t t') (htag : t.label = .operator) (ha : k.Exprs a a') (hb : k.Exprs b b')
    (htext : Text.key? text = Text.key? text') :
    k.Results k.Exprs (Tree.applyAdditive tight t a b text)
      (Tree.applyAdditive tight t' a' b' text') := by
  have plain : k.Results k.Exprs ((Tree.binaryOp t).map fun op => Expr.join op a b)
      ((Tree.binaryOp t').map fun op => Expr.join op a' b') :=
    h.binaryOp.map fun op _ h => h ▸ ha.join hb
  unfold Tree.applyAdditive
  rw [← h.text (by rw [htag]; rfl), ← ha.couldBeDict]
  dsimp only
  split
  · exact ha.dot hb htext
  · rcases Text.key?_cases htext with ⟨hkey, rfl⟩ | ⟨hkey, hkey'⟩
    · split
      · rcases ha.extendKey? _ hb.mark with ⟨hx, hy⟩ | ⟨c, c', hx, hy, hc⟩
        · rw [hx, hy]
          exact plain
        · rw [hx, hy]
          exact hc
      · exact plain
    · rw [hkey, hkey']
      simpa only [Bool.false_eq_true, and_false, if_false] using plain

/-- Scopes that read alike are the same scope. -/
theorem Trees.scopeOf (h : k.Trees t t') :
    k.Results Eq (Tree.scopeOf t) (Tree.scopeOf t') := by
  unfold Tree.scopeOf
  refine h.expect_bind fun htag => ?_
  rw [← h.text (by rw [htag]; rfl)]
  split
  · exact rfl
  · exact .inl ⟨h.span, rfl⟩

/-- Names that read alike are the same name. -/
theorem Trees.nameOf (h : k.Trees t t') : k.Results Eq (Tree.nameOf t) (Tree.nameOf t') := by
  unfold Tree.nameOf
  refine h.expect_bind fun htag => ?_
  exact h.text (by rw [htag]; rfl)

variable {ts ts' : List (Tree Tag)} {span span' : Span}

/-- Nothing reads like nothing only. -/
theorem Forest.nil_left (h : k.Forest [] ts') : ts' = [] := by
  cases ts' with
  | nil => rfl
  | cons => exact h.elim

/-- A list that reads like one with a first tree has a first tree that reads like it. -/
theorem Forest.cons_left (h : k.Forest (t :: ts) ts') :
    ∃ u us, ts' = u :: us ∧ k.Trees t u ∧ k.Forest ts us := by
  cases ts' with
  | nil => exact h.elim
  | cons => exact ⟨_, _, rfl, h.1, h.2⟩

/-- Lists that read alike are of one length. -/
theorem Forest.length_eq (h : k.Forest ts ts') : ts.length = ts'.length := by
  induction ts generalizing ts' with
  | nil => rw [h.nil_left]
  | cons t ts ih =>
    obtain ⟨u, us, rfl, -, hrest⟩ := h.cons_left
    rw [List.length_cons, List.length_cons, ih hrest]

/-- Only nothing reads like nothing. -/
theorem Forest.nil_right (h : k.Forest ts []) : ts = [] := by
  cases ts with
  | nil => rfl
  | cons => exact h.elim

/-- The same with the sides exchanged. -/
theorem Forest.cons_right (h : k.Forest ts (t' :: ts')) :
    ∃ u us, ts = u :: us ∧ k.Trees u t' ∧ k.Forest us ts' := by
  cases ts with
  | nil => exact h.elim
  | cons => exact ⟨_, _, rfl, h.1, h.2⟩

/-- What holds of all tags on one side holds of them on the other. -/
theorem Forest.all_label (p : Tag → Bool) (h : k.Forest ts ts') :
    (ts.all fun t => p t.label) = ts'.all fun t => p t.label := by
  induction ts generalizing ts' with
  | nil => rw [h.nil_left]
  | cons t ts ih =>
    obtain ⟨u, us, rfl, ht, hrest⟩ := h.cons_left
    rw [List.all_cons, List.all_cons, ih hrest, ht.label]

/-- Names with or without a scope are read alike. -/
theorem Forest.scopedName (h : k.Forest ts ts') (hspan : k.left span = k.right span') :
    k.Results Eq (Tree.scopedName span ts) (Tree.scopedName span' ts') := by
  match ts with
  | [] =>
    obtain rfl := h.nil_left
    exact .unexpected hspan
  | [name] =>
    obtain ⟨name', _, rfl, hname, hnil⟩ := h.cons_left
    obtain rfl := hnil.nil_left
    exact hname.nameOf.bind fun _ _ h => by rw [h]; rfl
  | [scope, name] =>
    obtain ⟨scope', _, rfl, hscope, hrest⟩ := h.cons_left
    obtain ⟨name', _, rfl, hname, hnil⟩ := hrest.cons_left
    obtain rfl := hnil.nil_left
    exact hscope.scopeOf.bind fun _ _ h => hname.nameOf.bind fun _ _ h' => by rw [h, h']; rfl
  | _ :: _ :: _ :: _ =>
    obtain ⟨_, _, rfl, -, hrest⟩ := h.cons_left
    obtain ⟨_, _, rfl, -, hrest⟩ := hrest.cons_left
    obtain ⟨_, _, rfl, -, hrest⟩ := hrest.cons_left
    exact .unexpected hspan

/-- Lists whose nodes give values that go together give lists of such values. -/
theorem Forest.mapM {α β : Type} {R : α → β → Prop} {f : Tree Tag → Except Error α}
    {f' : Tree Tag → Except Error β} (h : k.Forest ts ts')
    (hf : ∀ t ∈ ts, ∀ t', k.Trees t t' → k.Results R (f t) (f' t')) :
    k.Results (List.Forall₂ R) (ts.mapM f) (ts'.mapM f') := by
  induction ts generalizing ts' with
  | nil =>
    obtain rfl := h.nil_left
    exact List.Forall₂.nil
  | cons t ts ih =>
    obtain ⟨u, us, rfl, ht, hrest⟩ := h.cons_left
    rw [List.mapM_cons, List.mapM_cons]
    refine (hf t List.mem_cons_self u ht).bind fun _ _ hvalue => ?_
    exact (ih hrest fun t ht => hf t (List.mem_cons_of_mem _ ht)).bind fun _ _ hvalues =>
      List.Forall₂.cons hvalue hvalues

/-- The children of trees that read alike do. -/
theorem Trees.children (h : k.Trees t t') : k.Forest t.children t'.children := by
  obtain ⟨⟩ := t
  obtain ⟨⟩ := t'
  exact h.2.2.2.2.2

/-- Lists that read alike are both pairs or both none. -/
theorem Forest.pair_or (h : k.Forest ts ts') :
    (∃ a b a' b', ts = [a, b] ∧ ts' = [a', b'] ∧ k.Trees a a' ∧ k.Trees b b') ∨
      (∀ a b, ts ≠ [a, b]) ∧ ∀ a b, ts' ≠ [a, b] := by
  match ts with
  | [a, b] =>
    obtain ⟨a', _, rfl, ha, hrest⟩ := h.cons_left
    obtain ⟨b', _, rfl, hb, hnil⟩ := hrest.cons_left
    obtain rfl := hnil.nil_left
    exact .inl ⟨a, b, a', b', rfl, rfl, ha, hb⟩
  | [] | [_] | _ :: _ :: _ :: _ =>
    refine .inr ⟨fun _ _ h => (by cases h), ?_⟩
    rintro a b rfl
    have := h.length_eq
    simp at this

end Likeness

end Vimscript
