import Vimscript.Proofs.Expr.Weight
import Vimscript.Proofs.Grammar.Stalls

/-!
# The weight of parse trees

In a tree that the grammar makes, the text of a node weighs what its children weigh and what the
brackets of the node itself add: one for the parentheses around an expression and those of
arguments, minus one for the brackets of lists and subscripts. Below an operator stand only nodes
that bind tighter, except between brackets. `Derives.weighed` reads both off the patterns of the
rules.
-/

namespace Vimscript

open Text

namespace Tree

variable {Label : Type}

/-- What the texts of nodes weigh. -/
def weights (ts : List (Tree Label)) : Int := (ts.map fun t => weight t.text).sum

@[simp] theorem weights_nil : weights ([] : List (Tree Label)) = 0 := rfl

@[simp] theorem weights_cons (t : Tree Label) (ts : List (Tree Label)) :
    weights (t :: ts) = weight t.text + weights ts := List.sum_cons

@[simp] theorem weights_append (ts us : List (Tree Label)) :
    weights (ts ++ us) = weights ts + weights us := by
  rw [weights, List.map_append, List.sum_append]
  rfl

/-- Trees without weight weigh nothing together. -/
theorem weights_eq_zero {ts : List (Tree Label)} (h : ∀ t ∈ ts, weight t.text = 0) :
    weights ts = 0 := by
  induction ts with
  | nil => rfl
  | cons t ts ih =>
    rw [weights_cons, h t List.mem_cons_self, ih fun u hu => h u (List.mem_cons_of_mem t hu)]
    rfl

/-- Tags weigh what rules weigh. -/
theorem weights_map_tag (ts : List (Tree Rule)) :
    weights (ts.map (Tree.map Rule.tag)) = weights ts := by
  rw [weights, List.map_map]
  exact congrArg List.sum (List.map_congr_left fun t _ => congrArg weight t.text_map)

end Tree

/-- What a text that a pattern takes weighs without the nodes in it, if each text weighs the
same. -/
def Pattern.weight? : Pattern → Option Int
  | empty | rule _ => some 0
  | text chars => some (weight chars)
  | char accepts => if accepts '(' || accepts '[' then none else some 0
  | seq p q => p.weight?.bind fun w => q.weight?.map (w + ·)
  | choice p q => if p.weight? = q.weight? then p.weight? else none
  | many p | opt p => p.weight?.filter (· = 0)
  | counted p => p.weight?
  | _ => none

/-- A text weighs what its pattern adds and what the nodes over it weigh. -/
theorem Derives.weight_eq {p : Pattern} {here stop : Cursor} {ts : List (Tree Rule)}
    (h : Derives p here stop ts) {u : List Char} (hmove : here.Moves u stop) {w : Int}
    (hp : p.weight? = some w) : weight u = w + Tree.weights ts := by
  induction h generalizing u w with
  | empty =>
    obtain rfl := Option.some.inj hp
    rw [← (Cursor.Moves.refl _).text_unique hmove]
    rfl
  | text h =>
    obtain rfl := Option.some.inj hp
    rw [h.text_unique hmove]
    exact (Int.add_zero _).symm
  | @char _ _ accepts c hc h =>
    rw [Pattern.weight?] at hp
    split at hp
    · cases hp
    · rename_i hnone
      obtain ⟨hparen, hbracket⟩ := Bool.or_eq_false_iff.mp (Bool.eq_false_iff.mpr hnone)
      obtain rfl := Option.some.inj hp
      rw [← h.text_unique hmove]
      exact weight_of_all (show [c].all accepts = true by simpa using hc) hparen hbracket
  | token _ h | rule _ h =>
    obtain rfl := Option.some.inj hp
    simp [hmove.node_text]
  | seq h h' ih ih' =>
    obtain ⟨a, ha, hq⟩ := Option.bind_eq_some_iff.mp hp
    obtain ⟨b, hb, rfl⟩ := Option.map_eq_some_iff.mp hq
    obtain ⟨v, v', rfl, hv, hv'⟩ := h.split_text h' hmove
    rw [weight_append, ih hv ha, ih' hv' hb, Tree.weights_append]
    omega
  | left _ ih =>
    rw [Pattern.weight?] at hp
    split at hp
    · exact ih hmove hp
    · cases hp
  | right _ ih =>
    rw [Pattern.weight?] at hp
    split at hp
    · rename_i hsame
      exact ih hmove (hsame ▸ hp)
    · cases hp
  | absent | done =>
    obtain ⟨-, hzero⟩ := Option.filter_eq_some_iff.mp hp
    obtain rfl : w = 0 := by simpa using hzero
    rw [← (Cursor.Moves.refl _).text_unique hmove]
    rfl
  | present _ ih => exact ih hmove (Option.filter_eq_some_iff.mp hp).1
  | again h h' ih ih' =>
    obtain ⟨hround, hzero⟩ := Option.filter_eq_some_iff.mp hp
    obtain rfl : w = 0 := by simpa using hzero
    obtain ⟨v, v', rfl, hv, hv'⟩ := h.split_text h' hmove
    rw [weight_append, ih hv hround, ih' hv' hp, Tree.weights_append]
    omega
  | counted _ ih => exact ih hmove hp

/-- The nodes that a pattern adds are of rules in it. -/
theorem Labels.mem_rules {p : Pattern} {rs : List Rule} (h : Labels p rs) :
    ∀ r ∈ rs, r ∈ p.rules := by
  induction h with
  | empty | text | char | absent | done => exact fun r hr => (List.not_mem_nil hr).elim
  | rule => exact fun r hr => hr
  | seq _ _ ih ih' =>
    exact fun r hr => List.mem_append.mpr ((List.mem_append.mp hr).imp (ih r) (ih' r))
  | left _ ih => exact fun r hr => List.mem_append_left _ (ih r hr)
  | right _ ih => exact fun r hr => List.mem_append_right _ (ih r hr)
  | present _ ih | counted _ ih => exact ih
  | again _ _ ih ih' => exact fun r hr => (List.mem_append.mp hr).elim (ih r) (ih' r)

namespace Tag

/-- Tokens that are no strings, which take no brackets. -/
def isPlain : Tag → Bool
  | endOfInput | coalesce | operator | sliceSeparator | integer | float | blob | literalDictKey
  | register | scope | name => true
  | _ => false

/-- What the brackets of a node weigh, given what its children are. -/
def brackets : Tag → List Tag → Int
  | callArgs, _ => 1
  | subscript, _ | list, _ => -1
  | primary, [conditional] => 1
  | _, _ => 0

/-- How tightly what is made of a node binds. -/
def level : Tag → Nat
  | root | conditional => 0
  | logicalOr => 1
  | logicalAnd => 2
  | comparison => 3
  | additive => 4
  | multiplicative => 5
  | unary => Expr.unaryBinding
  | _ => Expr.suffixBinding

/-- How tightly a child of a node has to bind. Between parentheses anything may stand. -/
def asks : Tag → Tag → Nat
  | conditional, _ => 1
  | logicalOr, _ => 2
  | logicalAnd, _ => 3
  | comparison, _ => 4
  | additive, _ => 5
  | multiplicative, _ => 6
  | unary, _ | postfixed, _ => Expr.suffixBinding
  | primary, child => if child = conditional then 0 else Expr.suffixBinding
  | _, _ => 0

end Tag

/-- A tree whose texts weigh what their brackets and the texts in them weigh, and in which no
operator stands below another that binds tighter. -/
inductive Tree.Weighed : Tree Tag → Prop where
  | node {tag : Tag} {span : Span} {excerpt : Excerpt} {ts : List (Tree Tag)}
    (plain : tag.isPlain = true → excerpt.toList.all isTokenChar = true)
    (weighs : tag ≠ .string → weight excerpt.toList = tag.brackets (ts.map label) + weights ts)
    (binds : ∀ t ∈ ts, tag.asks t.label ≤ t.label.level)
    (tiers : tag ≠ .unary → ∀ t ∈ ts, t.label = .operator →
      ∀ op, BinaryOp.ofToken? t.text = some op → op.tier = tag.level)
    (single : tag = .callArg → ts.length ≤ 1)
    (parts : ∀ t ∈ ts, Weighed t) : Weighed (.node tag span excerpt ts)

/-- The operators of a tier. -/
theorem BinaryOp.tier_of_lexeme {r : Rule} {tier : Nat} {u rest : List Char} {op : BinaryOp}
    (hr : (r, tier) ∈
      [(.orOp, 1), (.andOp, 2), (.compareOp, 3), (.addOp, 4), (.mulOp, 5)])
    (h : r.Lexeme u rest) (hop : ofToken? u = some op) : op.tier = tier := by
  simp only [List.mem_cons, Prod.mk.injEq, List.not_mem_nil, or_false] at hr
  rcases hr with ⟨rfl, rfl⟩ | ⟨rfl, rfl⟩ | ⟨rfl, rfl⟩ | ⟨rfl, rfl⟩ | ⟨rfl, rfl⟩
  · obtain rfl : u = ['|', '|'] := h
    obtain rfl : BinaryOp.or = op := Option.some.inj hop
    rfl
  · obtain rfl : u = ['&', '&'] := h
    obtain rfl : BinaryOp.and = op := Option.some.inj hop
    rfl
  · obtain ⟨relation, letterCase, rfl, -⟩ := h
    have htext := ofToken?_text (.compare relation letterCase)
    rw [text, hop] at htext
    obtain rfl := Option.some.inj htext
    rfl
  · rcases h with rfl | ⟨rfl, -⟩ | rfl | rfl <;>
      · obtain rfl := Option.some.inj hop
        rfl
  · rcases h with rfl | rfl | rfl <;>
      · obtain rfl := Option.some.inj hop
        rfl

namespace Rule

/-- In the grammar each child binds as tightly as its parent asks. -/
theorem asks_le_level :
    ∀ r ∈ all, ∀ child ∈ r.pattern.rules, r.tag.asks child.tag ≤ child.tag.level := by
  decide

/-- In the grammar each tier has operators of its own. -/
theorem operators_of_tier : ∀ r ∈ all, r ≠ .unary → ∀ child ∈ r.pattern.rules,
    child.tag = .operator → (child, r.tag.level) ∈
      [(orOp, 1), (andOp, 2), (compareOp, 3), (addOp, 4), (mulOp, 5)] := by
  decide

/-- What the text of a rule adds to the weight of its parts. -/
theorem weight?_pattern : ∀ r ∈ all, r.isToken = false → r ≠ .primary →
    r.pattern.weight? = some (r.tag.brackets []) := by
  decide +kernel

end Rule

namespace Derives

variable {here stop : Cursor} {p : Pattern} {r : Rule} {ts : List (Tree Rule)}

/-- The text of a node weighs more than its parts by its brackets. -/
theorem weight_pattern (hr : r.isToken = false) (h : Derives r.pattern here stop ts)
    {u : List Char} (hmove : here.Moves u stop) :
    weight u = r.tag.brackets ((ts.map Tree.label).map Rule.tag) + Tree.weights ts := by
  -- Only a primary has ways to be written that differ in weight.
  by_cases hprimary : r = .primary
  · subst hprimary
    rcases primary_iff.mp h with ⟨r, hr, h⟩ | h
    · obtain ⟨t, rfl⟩ := h.eq_singleton
      have hbrackets : ∀ r ∈ primaryRules, Tag.brackets .primary [r.tag] = 0 := by decide
      rw [h.weight_eq hmove rfl, List.map_singleton, List.map_singleton, h.span_eq.2,
        show Rule.primary.tag = .primary from rfl, hbrackets r hr]
    · rw [Labels.call_iff.mp (Labels.enclosed_iff.mp h.labels)]
      exact h.weight_eq hmove (by decide +kernel)
  · have hbrackets (tags : List Tag) : r.tag.brackets tags = r.tag.brackets [] := by
      cases r <;> first | rfl | exact (hprimary rfl).elim
    rw [hbrackets]
    exact h.weight_eq hmove (Rule.weight?_pattern r r.mem_all hr hprimary)

/-- Trees that the grammar makes are weighed. -/
theorem weighed (h : Derives p here stop ts) : ∀ t ∈ ts, (t.map Rule.tag).Weighed := by
  induction h with
  | empty | text | char | absent | done => exact fun t ht => (List.not_mem_nil ht).elim
  | seq _ _ ih ih' | again _ _ ih ih' =>
    exact fun t ht => (List.mem_append.mp ht).elim (ih t) (ih' t)
  | left _ ih | right _ ih | present _ ih | counted _ ih => exact ih
  | @token here stop r u hr h hu =>
    refine List.forall_mem_singleton.mpr ?_
    rw [Tree.map_node]
    have hplain (hne : r.tag ≠ .string) : u.all isTokenChar = true :=
      Rule.lexeme_all_isTokenChar (by rintro rfl; exact hne rfl) hu
    refine .node (fun htag => ?_) (fun htag => ?_) nofun (fun _ => nofun) (fun _ => Nat.zero_le 1)
      nofun
    · rw [h.excerpt_toList]
      exact hplain fun hstring => by rw [hstring] at htag; cases htag
    · have hbrackets : r.tag.brackets [] = 0 := by
        cases r <;> first | rfl | cases hr
      rw [h.excerpt_toList, weight_of_isTokenChar (hplain htag)]
      exact (Int.add_zero _).symm.trans (congrArg (· + 0) hbrackets.symm)
  | @rule here stop r children hr h _ ih =>
    obtain ⟨u, hu⟩ := h.moves
    refine List.forall_mem_singleton.mpr ?_
    rw [Tree.map_node]
    have hrules {t : Tree Rule} (ht : t ∈ children) : t.label ∈ r.pattern.rules :=
      h.labels.mem_rules _ (List.mem_map_of_mem ht)
    have hlabels : (children.map (Tree.map Rule.tag)).map Tree.label =
        (children.map Tree.label).map Rule.tag := by
      simp only [List.map_map, Function.comp_def, Tree.label_map]
    refine .node (fun htag => ?_) (fun _ => ?_) (List.forall_mem_map.mpr fun t ht => ?_)
      (fun htag => List.forall_mem_map.mpr fun t ht hop op hsome => ?_) (fun htag => ?_)
      (List.forall_mem_map.mpr ih)
    · cases r <;> first | cases hr; done | cases htag
    · rw [hu.excerpt_toList, hlabels, Tree.weights_map_tag]
      exact h.weight_pattern hr hu
    · rw [Tree.label_map]
      exact Rule.asks_le_level r r.mem_all _ (hrules ht)
    · rw [Tree.label_map] at hop
      rw [Tree.text_map] at hsome
      have htier := Rule.operators_of_tier r r.mem_all (by rintro rfl; exact htag rfl) _
        (hrules ht) hop
      have hformed := h.formed t ht
      obtain ⟨label, span, excerpt, parts⟩ := t
      obtain ⟨-, rest, hlexeme⟩ := hformed.lexeme (by
        cases label <;> first | rfl | cases hop)
      exact BinaryOp.tier_of_lexeme htier hlexeme hsome
    · obtain rfl : r = .callArg := by cases r <;> first | rfl | cases htag
      rw [List.length_map, ← List.length_map Tree.label]
      rcases Rule.callArg_labels h.labels with heq | heq <;> rw [heq]
      · exact Nat.zero_le 1
      · exact Nat.le_refl 1

end Derives

namespace Tree

variable {t : Tree Tag} {ts : List (Tree Tag)} {tag : Tag} {span : Span} {excerpt : Excerpt}

/-- The parts of a weighed tree are weighed. -/
theorem Weighed.parts (h : t.Weighed) : ∀ u ∈ t.children, u.Weighed := by
  cases h with
  | node _ _ _ _ _ parts => exact parts

/-- A node other than a string weighs its brackets and its children. -/
theorem Weighed.weight_eq (h : t.Weighed) (tag : Tag) (htag : t.label = tag) (hne : tag ≠ .string) :
    weight t.text = tag.brackets (t.children.map label) + weights t.children := by
  subst htag
  cases h with
  | node _ weighs => exact weighs hne

/-- Its children bind as tightly as it asks. -/
theorem Weighed.asks_le (h : t.Weighed) :
    ∀ u ∈ t.children, t.label.asks u.label ≤ u.label.level := by
  cases h with
  | node _ _ binds => exact binds

/-- A plain token is made of the characters of tokens. -/
theorem Weighed.all_isTokenChar (h : t.Weighed) (htag : t.label.isPlain = true) :
    t.text.all isTokenChar = true := by
  cases h with
  | node plain => exact plain htag

/-- So it weighs nothing. -/
theorem Weighed.weight_eq_zero (h : t.Weighed) (htag : t.label.isPlain = true) :
    weight t.text = 0 := weight_of_isTokenChar (h.all_isTokenChar htag)

/-- A node in a run of one tier: an operand that binds tighter, or an operator of the tier. -/
structure InTier (tier : Nat) (t : Tree Tag) : Prop where
  weighed : t.Weighed
  tighter : tier < t.label.level
  tier_eq : t.label = .operator → ∀ op, BinaryOp.ofToken? t.text = some op → op.tier = tier

/-- The children of a tier are operands and operators of that tier. -/
theorem Weighed.inTier (h : (Tree.node tag span excerpt ts).Weighed)
    (htag : tag ∈ [.logicalOr, .logicalAnd, .comparison, .additive, .multiplicative]) :
    ∀ t ∈ ts, t.InTier tag.level := by
  have hasks : ∀ tag ∈ [Tag.logicalOr, .logicalAnd, .comparison, .additive, .multiplicative],
      tag ≠ .unary ∧ ∀ child, tag.asks child = tag.level + 1 := by
    simp [Tag.asks, Tag.level]
  obtain ⟨hunary, hasks⟩ := hasks tag htag
  cases h with
  | node _ _ binds tiers _ parts =>
    intro t ht
    have hlevel := binds t ht
    rw [hasks] at hlevel
    exact ⟨parts t ht, hlevel, tiers hunary t ht⟩

end Tree

end Vimscript
