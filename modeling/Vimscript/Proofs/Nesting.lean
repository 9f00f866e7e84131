import Vimscript.Proofs.Grammar.Lays
import Vimscript.Proofs.Reading

/-!
# How deep brackets nest

The check of delimiters before matching counts characters, strings included, and is meant to bound
the nesting of brackets in the parse tree. An opening delimiter inside a string only makes the
count larger. A closing one makes it smaller, though it closes nothing, so the brackets of a tree
can nest deeper than the bound by as many levels as there are closing delimiters inside its
strings, and by no more: this is `Tree.bracketDepth_le`.
-/

namespace Vimscript

open Text

namespace Tree

/-- Whether a node is a pair of brackets with what stands between them. -/
def isBracket : Tree Tag → Bool
  | node .primary _ _ [inner] => decide (inner.label = .conditional)
  | node tag _ _ _ => [Tag.subscript, .callArgs, .list, .dict, .literalDict, .lambda].contains tag

mutual

/-- The most pairs of brackets on a path from a node to a leaf. -/
def bracketDepth : Tree Tag → Nat
  | node tag span excerpt children =>
    (if (node tag span excerpt children).isBracket then 1 else 0) + bracketDepthAmong children

/-- The most pairs of brackets on a path from one of several nodes to a leaf. -/
def bracketDepthAmong : List (Tree Tag) → Nat
  | [] => 0
  | t :: rest => max (bracketDepth t) (bracketDepthAmong rest)

end

mutual

/-- The closing delimiters inside the strings of a tree. -/
def quotedClosers : Tree Tag → Nat
  | node tag _ excerpt children =>
    (if tag = .string then excerpt.toList.countP Nesting.closes else 0) +
      quotedClosersAmong children

/-- The closing delimiters inside the strings of several trees. -/
def quotedClosersAmong : List (Tree Tag) → Nat
  | [] => 0
  | t :: rest => quotedClosers t + quotedClosersAmong rest

end

variable {n : Nat} {t : Tree Tag} {ts us : List (Tree Tag)}

/-- Quoted delimiters are counted tree by tree. -/
theorem quotedClosersAmong_append :
    quotedClosersAmong (ts ++ us) = quotedClosersAmong ts + quotedClosersAmong us := by
  induction ts with
  | nil => exact (Nat.zero_add _).symm
  | cons t ts ih => rw [List.cons_append, quotedClosersAmong, quotedClosersAmong, ih, Nat.add_assoc]

/-- Trees of some depth make a list of that depth. -/
theorem bracketDepthAmong_le (h : ∀ t ∈ ts, t.bracketDepth ≤ n) : bracketDepthAmong ts ≤ n := by
  induction ts with
  | nil => exact Nat.zero_le n
  | cons t ts ih =>
    rw [bracketDepthAmong]
    exact Nat.max_le.mpr ⟨h t List.mem_cons_self, ih fun t ht => h t (List.mem_cons_of_mem _ ht)⟩

end Tree

namespace Nesting

variable {bound level : Nat} {u v : List Char}

/-- The number of counted levels after a text. -/
def levelsAfter (level : Nat) (u : List Char) : Nat := u.foldl levelAfter level

/-- Levels are counted through one text and then through the next. -/
theorem levelsAfter_append : levelsAfter level (u ++ v) = levelsAfter (levelsAfter level u) v :=
  List.foldl_append

/-- Every level that is counted in a text keeps to a bound. -/
def Within (bound level : Nat) (u : List Char) : Prop := ∀ v, v <+: u → levelsAfter level v ≤ bound

/-- Levels within a bound begin within it. -/
theorem Within.level_le (h : Within bound level u) : level ≤ bound := h [] (List.nil_prefix)

/-- They are within it through the first part of the text. -/
theorem Within.left (h : Within bound level (u ++ v)) : Within bound level u :=
  fun w hw => h w (hw.trans (List.prefix_append u v))

/-- They are within it through the rest. -/
theorem Within.right (h : Within bound level (u ++ v)) : Within bound (levelsAfter level u) v := by
  intro w hw
  rw [← levelsAfter_append]
  exact h _ ((List.prefix_append_right_inj u).mpr hw)

/-- Blanks open and close nothing. -/
theorem levelsAfter_blanks (h : u.all isSpace = true) : levelsAfter level u = level := by
  induction u with
  | nil => rfl
  | cons c u ih =>
    obtain ⟨hc, hu⟩ := Bool.and_eq_true_iff.mp (List.all_cons ▸ h)
    have hstep : levelAfter level c = level := by
      rcases (by simpa [isSpace] using hc : c = ' ' ∨ c = '\t') with rfl | rfl <;> rfl
    change levelsAfter (levelAfter level c) u = level
    rw [hstep]
    exact ih hu

/-- What the check lets pass keeps to the bound. -/
theorem within_of_firstExcess? (offset : Nat) (h : firstExcess? bound level offset u = none)
    (hlevel : level ≤ bound) : Within bound level u := by
  induction u generalizing level offset with
  | nil =>
    intro v hv
    rw [List.prefix_nil.mp hv]
    exact hlevel
  | cons c rest ih =>
    rw [firstExcess?] at h
    split at h
    · cases h
    · rename_i hfit
      have hafter : levelAfter level c ≤ bound := by
        by_cases hopens : opens c = true
        · exact Nat.le_of_not_lt fun hlt => hfit ⟨hopens, hlt⟩
        · rw [levelAfter, if_neg hopens]
          split <;> omega
      intro v hv
      cases v with
      | nil => exact hlevel
      | cons d v =>
        obtain ⟨rfl, hrest⟩ := List.cons_prefix_cons.mp hv
        exact ih _ h hafter v hrest

/-- Each closing delimiter takes away one level at most. -/
theorem le_levelsAfter (level : Nat) (u : List Char) :
    level ≤ levelsAfter level u + u.countP closes := by
  induction u generalizing level with
  | nil => exact Nat.le_refl level
  | cons c u ih =>
    have := ih (levelAfter level c)
    rw [List.countP_cons]
    change level ≤ levelsAfter (levelAfter level c) u + _
    have hstep : level ≤ levelAfter level c + if closes c = true then 1 else 0 := by
      unfold levelAfter
      split
      · omega
      · split
        · simp_all
          omega
        · simp_all
    omega

/-- The brackets that are open after a fixed text, if it closes none but open ones. -/
def climb : Nat → List Char → Option Nat
  | level, [] => some level
  | level, c :: u =>
    if opens c then climb (level + 1) u
    else if closes c then
      match level with
      | 0 => none
      | level + 1 => climb level u
    else climb level u

/-- Over a fixed text the count changes as the brackets do. -/
theorem climb_le {inner inner' base quoted : Nat} (h : climb inner u = some inner')
    (hle : base + inner ≤ level + quoted) : base + inner' ≤ levelsAfter level u + quoted := by
  induction u generalizing inner level with
  | nil =>
    cases h
    exact hle
  | cons c u ih =>
    rw [climb.eq_def] at h
    change base + inner' ≤ levelsAfter (levelAfter level c) u + quoted
    dsimp only at h
    unfold levelAfter
    by_cases hopens : opens c = true
    · rw [if_pos hopens] at h ⊢
      exact ih h (by omega)
    · rw [if_neg hopens] at h ⊢
      by_cases hcloses : closes c = true
      · rw [if_pos hcloses] at h ⊢
        cases inner with
        | zero => cases h
        | succ inner => exact ih h (by omega)
      · rw [if_neg hcloses] at h ⊢
        exact ih h hle

end Nesting

/-- The brackets that are open after a pattern, where each rule inside it stands between as many
brackets as it should. -/
def Pattern.climb (inside : Rule → Nat) : Pattern → Nat → Option Nat
  | text chars, level => Nesting.climb level chars
  | rule r, level => if level = inside r then some level else none
  | seq p q, level => (p.climb inside level).bind (q.climb inside)
  | choice p q, level => if p.climb inside level = q.climb inside level then p.climb inside level
    else none
  | many p, level | opt p, level => if p.climb inside level = some level then some level else none
  | counted p, level => p.climb inside level
  | _, level => some level

namespace Pattern

variable {inside : Rule → Nat} {p q : Pattern} {r : Rule} {level level' : Nat}

/-- A rule is entered at its own level. -/
theorem climb_rule_iff :
    (rule r).climb inside level = some level' ↔ level = inside r ∧ level' = level := by
  simp only [climb, Option.ite_none_right_eq_some, Option.some.injEq, eq_comm (a := level)]

/-- Both sides of a choice have to lead to one level. -/
theorem climb_choice_iff : (choice p q).climb inside level = some level' ↔
    p.climb inside level = some level' ∧ q.climb inside level = some level' := by
  simp only [climb, Option.ite_none_right_eq_some]
  constructor
  · rintro ⟨hsame, h⟩
    exact ⟨h, hsame ▸ h⟩
  · rintro ⟨h, h'⟩
    exact ⟨h.trans h'.symm, h⟩

/-- The rounds of a repetition have to keep the level. -/
theorem climb_many_iff : (many p).climb inside level = some level' ↔
    p.climb inside level = some level ∧ level' = level := by
  simp only [climb, Option.ite_none_right_eq_some, Option.some.injEq, eq_comm (a := level)]

/-- An optional part has to keep the level as well. -/
theorem climb_opt_iff : (opt p).climb inside level = some level' ↔
    p.climb inside level = some level ∧ level' = level := climb_many_iff

end Pattern

/-- The text with which a pattern begins, if it is a fixed one. -/
def Pattern.opening : Pattern → List Char
  | text chars => chars
  | seq p _ | counted p => p.opening
  | _ => []

namespace Rule

/-- The rules that are nothing but a pair of brackets and what stands between them. -/
def isBracket (r : Rule) : Bool :=
  [subscript, callArgs, list, dict, literalDict, lambda].contains r

/-- How many brackets of a rule stand around a rule inside it. -/
def inside (r s : Rule) : Nat := if r.isBracket ∨ r = primary ∧ s = expr then 1 else 0

/-- A rule closes the brackets that it opens. -/
theorem climb_pattern {r : Rule} (hr : r.isToken = false) (hr' : r ≠ expression) :
    r.pattern.climb r.inside 0 = some 0 := by
  cases r <;> first | (cases hr; done) | exact (hr' rfl).elim | decide +kernel

/-- Brackets begin with an opening delimiter. -/
theorem levelsAfter_opening {r : Rule} (hr : r.isBracket = true) (level : Nat) :
    Nesting.levelsAfter level r.pattern.opening = level + 1 := by
  cases r <;> first | rfl | cases hr

end Rule

namespace Lays

variable {here stop : Cursor} {p : Pattern} {ts : List (Tree Rule)} {u : List Char}

/-- What a pattern opens first stands at the front of its text. -/
theorem opening_prefix (h : Lays p here stop ts) (hmove : here.Moves u stop) :
    p.opening <+: u := by
  induction h generalizing u with
  | text _ h =>
    rw [h.text_unique hmove]
    exact List.prefix_refl _
  | seq h h' ih _ =>
    obtain ⟨v, w, rfl, hv, -⟩ := h.derives.split_text h'.derives hmove
    exact (ih hv).trans (List.prefix_append v w)
  | counted _ ih => exact ih hmove
  | _ => exact List.nil_prefix

end Lays

namespace Tree

/-- A token is no bracket and has nothing inside. -/
theorem bracketDepth_token {r : Rule} (hr : r.isToken = true) {here stop : Cursor} :
    ((r.node here stop []).map Rule.tag).bracketDepth = 0 := by
  cases r <;> first | rfl | cases hr

/-- The delimiters that close in a token are all quoted. -/
theorem quotedClosers_token {r : Rule} {here stop : Cursor} {u : List Char}
    (hmove : here.Moves u stop) (hu : r.Lexeme u stop.rest) :
    ((r.node here stop []).map Rule.tag).quotedClosers = u.countP Nesting.closes := by
  rw [map_node, List.map_nil, quotedClosers, hmove.excerpt_toList, quotedClosersAmong,
    Nat.add_zero]
  by_cases hr : r = .string
  · rw [hr]
    rfl
  · have hnone : u.countP Nesting.closes = 0 := by
      rw [List.countP_eq_zero]
      intro c hc
      rw [closes_of_isTokenChar
        (List.all_eq_true.mp (Rule.lexeme_all_isTokenChar hr hu) c hc)]
      exact Bool.false_ne_true
    rw [hnone]
    split <;> rfl

/-- In other nodes they are those of the children. -/
theorem quotedClosers_rule {r : Rule} (hr : r.isToken = false) {here stop : Cursor}
    {children : List (Tree Rule)} : ((r.node here stop children).map Rule.tag).quotedClosers =
      quotedClosersAmong (children.map (map Rule.tag)) := by
  have hne : r.tag ≠ .string := by cases r <;> first | (cases hr; done) | exact nofun
  rw [map_node, quotedClosers, if_neg hne, Nat.zero_add]

/-- A node is a pair of brackets by its rule, or for the parentheses around its child. -/
theorem isBracket_rule {r : Rule} {here stop : Cursor} {children : List (Tree Rule)}
    (h : ((r.node here stop children).map Rule.tag).isBracket = true) :
    r.isBracket = true ∨ r = .primary ∧ ∃ t, children = [t] ∧ t.label = .expr := by
  rw [map_node] at h
  by_cases hr : r = .primary
  · subst hr
    match children, h with
    | [t], h =>
      refine .inr ⟨rfl, t, rfl, ?_⟩
      have hlabel : (t.map Rule.tag).label = .conditional := of_decide_eq_true h
      rw [label_map] at hlabel
      revert hlabel
      cases t.label <;> first | exact fun _ => rfl | exact nofun
    | [], h => cases h
    | _ :: _ :: _, h => cases h
  · refine .inl ?_
    cases r <;> first | rfl | exact (hr rfl).elim | cases h

end Tree

open Vimscript.Tree

/-- What is known where a pattern has been laid out: how many brackets may be open behind it, and
that those inside its nodes keep to the bound. -/
def Lays.Nests (inside : Rule → Nat) (bound base inner level quoted : Nat) (u : List Char)
    (ts : List (Tree Rule)) : Prop :=
  base + inner ≤ Nesting.levelsAfter level u +
      (quoted + quotedClosersAmong (ts.map (map Rule.tag))) ∧
    ∀ t ∈ ts, base + inside t.label + (t.map Rule.tag).bracketDepth ≤
      bound + (quoted + quotedClosersAmong (ts.map (map Rule.tag)))

namespace Lays

variable {inside : Rule → Nat} {bound base inner level quoted : Nat} {u v : List Char}
  {ts us vs : List (Tree Rule)} {here stop : Cursor} {r : Rule} {children : List (Tree Rule)}

/-- A part that adds no node. -/
theorem Nests.of_nil (h : base + inner ≤ Nesting.levelsAfter level u + quoted) :
    Nests inside bound base inner level quoted u [] := ⟨h, fun _ ht => nomatch ht⟩

/-- Brackets nest through two parts if the level after the first is the one that the second begins
at. -/
theorem Nests.append {middle : Nat} (h : Nests inside bound base middle level quoted u us)
    (h' : base + middle ≤ Nesting.levelsAfter level u +
        (quoted + quotedClosersAmong (us.map (map Rule.tag))) →
      Nests inside bound base inner (Nesting.levelsAfter level u)
        (quoted + quotedClosersAmong (us.map (map Rule.tag))) v vs) :
    Nests inside bound base inner level quoted (u ++ v) (us ++ vs) := by
  obtain ⟨hopen, hus⟩ := h
  obtain ⟨hafter, hvs⟩ := h' hopen
  unfold Nests
  rw [List.map_append, quotedClosersAmong_append, Nesting.levelsAfter_append]
  refine ⟨by omega, fun t ht => ?_⟩
  rcases List.mem_append.mp ht with ht | ht
  · have := hus t ht
    omega
  · have := hvs t ht
    omega

/-- A token opens no bracket, and those that close in it are paid for. -/
theorem Nests.token (hr : r.isToken = true) (hmove : here.Moves u stop) (hu : r.Lexeme u stop.rest)
    (hopen : base + inside r ≤ level + quoted) (hlevel : level ≤ bound) :
    Nests inside bound base (inside r) level quoted u [r.node here stop []] := by
  have hclosers := Nesting.le_levelsAfter level u
  simp only [Nests, List.map_cons, List.map_nil, quotedClosersAmong, quotedClosers_token hmove hu,
    List.mem_singleton, forall_eq, bracketDepth_token hr, Rule.node_label]
  omega

/-- The brackets of a node are counted as its rule opens them. -/
theorem Nests.rule (hr : r.isToken = false) (hopening : r.pattern.opening <+: u)
    (hopen : base + inside r ≤ level + quoted) (hwithin : Nesting.Within bound level u)
    (h : Nests r.inside bound (base + inside r) 0 level quoted u children) :
    Nests inside bound base (inside r) level quoted u [r.node here stop children] := by
  obtain ⟨hafter, hchildren⟩ := h
  simp only [Nests, List.map_cons, List.map_nil, quotedClosersAmong, quotedClosers_rule hr,
    List.mem_singleton, forall_eq, Rule.node_label, Nat.add_zero] at hafter ⊢
  refine ⟨hafter, ?_⟩
  have hlevel := hwithin.level_le
  have among {k : Nat} (hk : base + inside r + k ≤
      bound + (quoted + quotedClosersAmong (children.map (map Rule.tag))))
      (hin : ∀ t ∈ children, k ≤ r.inside t.label) : base + inside r + k +
        bracketDepthAmong (children.map (map Rule.tag)) ≤
          bound + (quoted + quotedClosersAmong (children.map (map Rule.tag))) := by
    refine Nat.add_le_of_le_sub' hk (bracketDepthAmong_le fun _ hmapped => ?_)
    obtain ⟨t, ht, rfl⟩ := List.mem_map.mp hmapped
    have := hchildren t ht
    have := hin t ht
    omega
  rw [map_node, bracketDepth, ← map_node]
  split
  · rename_i hbracket
    rcases isBracket_rule hbracket with hrule | ⟨rfl, t, rfl, ht⟩
    · -- The opening delimiter is counted, so its level is within the bound.
      have hlift := hwithin _ hopening
      rw [Rule.levelsAfter_opening hrule] at hlift
      have := among (k := 1) (by omega) fun t _ => by simp [Rule.inside, hrule]
      omega
    · have hin : Rule.primary.inside t.label = 1 := by
        rw [ht]
        rfl
      have hchild := hchildren t (List.mem_singleton_self t)
      have := among (k := 1) (by omega) fun s hs => List.mem_singleton.mp hs ▸ Nat.le_of_eq hin.symm
      omega
  · have := among (k := 0) (by omega) fun _ _ => Nat.zero_le _
    omega

/-- Wherever a rule is entered, at most as many brackets are open as levels are counted and closing
delimiters have been met inside strings; so the brackets inside it keep to the bound on the count
and those delimiters. -/
theorem nests {p : Pattern} (h : Lays p here stop ts) {inner' : Nat}
    (hclimb : p.climb inside inner = some inner') (hmove : here.Moves u stop)
    (hopen : base + inner ≤ level + quoted) (hwithin : Nesting.Within bound level u) :
    Nests inside bound base inner' level quoted u ts := by
  induction h generalizing inside inner inner' u base level quoted with
  | empty =>
    cases hclimb
    obtain rfl := (Cursor.Moves.refl _).text_unique hmove
    exact .of_nil hopen
  | absent =>
    obtain ⟨-, rfl⟩ := Pattern.climb_opt_iff.mp hclimb
    obtain rfl := (Cursor.Moves.refl _).text_unique hmove
    exact .of_nil hopen
  | done =>
    obtain ⟨-, rfl⟩ := Pattern.climb_many_iff.mp hclimb
    obtain rfl := (Cursor.Moves.refl _).text_unique hmove
    exact .of_nil hopen
  | @blanks place =>
    obtain ⟨-, rfl⟩ := Pattern.climb_many_iff.mp hclimb
    obtain rfl := place.moves_skipSpaces.text_unique hmove
    exact .of_nil (by rw [Nesting.levelsAfter_blanks List.all_takeWhile]; exact hopen)
  | text _ h =>
    obtain rfl := h.text_unique hmove
    exact .of_nil (Nesting.climb_le hclimb hopen)
  | token hr _ h hu =>
    obtain rfl := h.text_unique hmove
    obtain ⟨rfl, rfl⟩ := Pattern.climb_rule_iff.mp hclimb
    exact .token hr h hu hopen hwithin.level_le
  | rule hr hr' h _ ih =>
    obtain ⟨rfl, rfl⟩ := Pattern.climb_rule_iff.mp hclimb
    exact .rule hr (h.opening_prefix hmove) hopen hwithin
      (ih (Rule.climb_pattern hr hr') hmove hopen hwithin)
  | seq h h' ih ih' =>
    obtain ⟨v, w, rfl, hv, hw⟩ := h.derives.split_text h'.derives hmove
    obtain ⟨mid, hfirst, hsecond⟩ := Option.bind_eq_some_iff.mp hclimb
    exact (ih hfirst hv hopen hwithin.left).append fun hopen' => ih' hsecond hw hopen' hwithin.right
  | again h h' ih ih' =>
    obtain ⟨v, w, rfl, hv, hw⟩ := h.derives.split_text h'.derives hmove
    obtain ⟨hround, rfl⟩ := Pattern.climb_many_iff.mp hclimb
    exact (ih hround hv hopen hwithin.left).append fun hopen' => ih' hclimb hw hopen' hwithin.right
  | left _ ih => exact ih (Pattern.climb_choice_iff.mp hclimb).1 hmove hopen hwithin
  | right _ ih => exact ih (Pattern.climb_choice_iff.mp hclimb).2 hmove hopen hwithin
  | present _ ih =>
    obtain ⟨hpart, rfl⟩ := Pattern.climb_opt_iff.mp hclimb
    exact ih hpart hmove hopen hwithin
  | counted _ ih => exact ih hclimb hmove hopen hwithin

end Lays

namespace Tree

/-- Brackets nest in a parse tree no deeper than the bound on delimiters, except for as many levels
as its strings hold closing delimiters. -/
theorem bracketDepth_le {limits : Limits} {source : List Char} {tree : Tree Tag}
    (h : parseTree limits source = .ok tree) :
    tree.bracketDepth ≤ limits.parseDepth + tree.quotedClosers := by
  unfold parseTree at h
  cases hroot : ofSource limits source with
  | error error =>
    rw [hroot] at h
    cases h
  | ok root =>
    rw [hroot] at h
    cases h
    obtain ⟨hcheck, -⟩ := ofSource_eq_ok_iff.mp hroot
    obtain ⟨stop, hparses⟩ := parses_of_ofSource hroot
    obtain ⟨mid, t, ht, rfl, -, hnode⟩ := Derives.expression_iff.mp hparses.derives
    obtain rfl := List.singleton_inj.mp hnode
    obtain ⟨u, hu⟩ := ht.moves
    have hmove := (Cursor.start source).moves_skipSpaces.trans hu
    have hwithin : Nesting.Within limits.parseDepth 0 source := by
      refine Nesting.within_of_firstExcess? 0 ?_ (Nat.zero_le _)
      unfold Nesting.check at hcheck
      split at hcheck
      · cases hcheck
      · assumption
    rw [show source = (Cursor.start source).rest from rfl, hmove.rest_eq] at hwithin
    have hinner := hwithin.left.right
    rw [Nesting.levelsAfter_blanks List.all_takeWhile] at hinner
    obtain ⟨-, hnests⟩ : Lays.Nests (fun _ => 0) limits.parseDepth 0 0 0 0 u [t] :=
      (ht.lays (.rule ⟨nofun, nofun⟩)).nests (Pattern.climb_rule_iff.mpr ⟨rfl, rfl⟩) hu
        (Nat.le_refl _) hinner
    have hdepth := hnests t (List.mem_singleton_self t)
    rw [quotedClosers_rule rfl, map_node, bracketDepth]
    simp only [List.map_cons, List.map_nil, bracketDepthAmong, quotedClosersAmong,
      bracketDepth_token (r := .endOfInput) rfl] at hdepth ⊢
    have hnone : (node Rule.expression.tag ⟨(Cursor.start source).offset, mid.skipSpaces.offset⟩
      ⟨(Cursor.start source).rest, mid.skipSpaces.offset - (Cursor.start source).offset⟩
        [t.map Rule.tag, (Rule.endOfInput.node mid.skipSpaces mid.skipSpaces []).map
          Rule.tag]).isBracket = false := rfl
    rw [hnone]
    simp only [Bool.false_eq_true, if_false]
    omega

/-- The closing parenthesis in the string makes room for a second pair of brackets. -/
theorem bracketDepth_le_quoted : ∃ tree,
    parseTree ⟨1, 96, 10000000⟩ "[')', [1]]".toList = .ok tree ∧
      tree.bracketDepth ≤ 1 + tree.quotedClosers := by
  have hread : (parseTree ⟨1, 96, 10000000⟩ "[')', [1]]".toList).map (fun _ => ()) = .ok () := by
    decide +kernel
  obtain ⟨tree, h, -⟩ := exists_of_map_eq_ok hread
  exact ⟨tree, h, bracketDepth_le h⟩

/-- The bound on delimiters is none on the nesting of brackets: two pairs inside one another are let
pass where it is one. -/
theorem not_bracketDepth_le_parseDepth : ¬ ∀ (limits : Limits) (source : List Char)
    (tree : Tree Tag), parseTree limits source = .ok tree →
      tree.bracketDepth ≤ limits.parseDepth := by
  intro hbound
  have hdepth : (parseTree ⟨1, 96, 10000000⟩ "[')', [1]]".toList).map bracketDepth = .ok 2 := by
    decide +kernel
  obtain ⟨tree, h, htwo⟩ := exists_of_map_eq_ok hdepth
  have hone : tree.bracketDepth ≤ 1 := hbound _ _ _ h
  omega

end Tree

end Vimscript
