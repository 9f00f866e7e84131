import Vimscript.Proofs.Expr.Compounds
import Vimscript.Proofs.Expr.Lexemes
import Vimscript.Proofs.Grammar.Shape

/-!
# What is built

What is built from a tree that the grammar makes can be written as a text again, and a lambda that
is called is called as a lambda. The steps that join built expressions keep this. Tokens of the
grammar are read without any refusal: operators, scopes, names and parameters.
-/

namespace Vimscript

open Text

namespace Expr

variable {Mark : Type}

/-- Whether an expression is a lambda. -/
def isLambda : Expr Mark → Bool
  | lambda _ _ _ => true
  | _ => false

/-- What every node that is built satisfies: it can be written, and a lambda that is called is
called as a lambda. -/
def Built : Expr Mark → Prop
  | funcrefCall _ callee _ => callee.isLambda = false
  | e => e.WellSpelled

/-- What is built can be written as a text again. -/
theorem Built.wellSpelled {e : Expr Mark} (h : e.Built) : e.WellSpelled := by
  cases e with
  | funcrefCall => trivial
  | _ => exact h

variable {p : Expr Mark → Prop} {e : Expr Mark}

/-- A node without parts has a property at every node if it has it itself. -/
theorem Every.leaf (h : p e) (hparts : e.parts = []) : e.Every p :=
  .node h (by rw [hparts]; simp)

/-- A node has a property at every node if it and its parts do. -/
theorem Every.of_parts (es : List (Expr Mark)) (h : p e) (hparts : e.parts = es)
    (hes : ∀ a ∈ es, a.Every p) : e.Every p := .node h (hparts ▸ hes)

/-- The mark of a node is no part of what is asked of it. -/
theorem every_withMark {mark : Mark} (h : e.Every Built) : (e.withMark mark).Every Built := by
  cases h with
  | node here parts =>
    cases e with
    | literal _ value => cases value <;> exact .node here parts
    | var _ scope _ => cases scope <;> exact .node here parts
    | _ => exact .node here parts

end Expr

namespace Tree

variable {left right : Expr Span} {text suffix : List Char} {span : Span}

/-- Joining keeps what is built. -/
theorem every_join {op : BinaryOp} (h : left.Every Expr.Built) (h' : right.Every Expr.Built) :
    (Expr.join op left right).Every Expr.Built :=
  .of_parts [left, right] trivial rfl (by simp [h, h'])

/-- So does taking a field. -/
theorem every_field (h : left.Every Expr.Built) : (left.field text span).Every Expr.Built :=
  .of_parts [left, .literal span (.string text)] trivial rfl
    (by simpa [h] using Expr.Every.leaf trivial rfl)

/-- So does a point, whether it makes a field, a call of a field or a concatenation. -/
theorem every_dot (h : left.Every Expr.Built) (h' : right.Every Expr.Built) :
    (left.dot right text).Every Expr.Built := by
  unfold Expr.dot
  split
  · refine .of_parts (_ :: _) rfl rfl fun a ha => ?_
    rcases List.mem_cons.mp ha with rfl | ha
    · exact every_field h
    · exact h'.part ha
  · split
    · exact every_field h
    · exact every_join h h'

/-- So does a dash that extends a key. -/
theorem every_extendKey? {extended : Expr Span} (h : left.Every Expr.Built)
    (hextended : left.extendKey? suffix span = some extended) : extended.Every Expr.Built := by
  unfold Expr.extendKey? at hextended
  split at hextended
  · obtain rfl := Option.some.inj hextended
    refine .of_parts [_, _] trivial rfl ?_
    simpa [h.part (List.mem_cons_self ..)] using Expr.Every.leaf trivial rfl
  · cases hextended

/-- So does a call: a lambda is called as a lambda and nothing else is. -/
theorem every_callOf {callee : Expr Span} {args : List (Expr Span)} (h : callee.Every Expr.Built)
    (h' : ∀ a ∈ args, a.Every Expr.Built) : (callOf span callee args).Every Expr.Built := by
  unfold callOf
  split
  · refine .of_parts (_ :: _) ⟨_, _, _, rfl⟩ rfl ?_
    simpa [h] using h'
  · rename_i hne
    refine .of_parts (_ :: _) ?_ rfl (by simpa [h] using h')
    cases callee with
    | lambda mark params body => exact (hne _ _ _ rfl).elim
    | _ => rfl

end Tree

namespace Tree

section

variable {r : Rule} {span : Span} {excerpt : Excerpt} {children : List (Tree Rule)} {t : Tree Rule}

/-- The node of a token has no children, and its text is a lexeme. -/
theorem Formed.lexeme (h : (node r span excerpt children).Formed) (hr : r.isToken = true) :
    children = [] ∧ ∃ rest, r.Lexeme excerpt.toList rest := by
  cases h with
  | token _ h => exact ⟨rfl, _, h⟩
  | rule hr' =>
    rw [hr] at hr'
    cases hr'

/-- The node of another rule has the children that the pattern of the rule gives it. -/
theorem Formed.labels (h : (node r span excerpt children).Formed) (hr : r.isToken = false) :
    Labels r.pattern (children.map label) ∧ ∀ t ∈ children, t.Formed := by
  cases h with
  | token hr' =>
    rw [hr] at hr'
    cases hr'
  | rule _ h parts => exact ⟨h, parts⟩

/-- Children are smaller than their node. -/
theorem sizeOf_lt (h : t ∈ children) : sizeOf t < sizeOf (node r span excerpt children) := by
  have := List.sizeOf_lt_of_mem h
  rw [node.sizeOf_spec]
  omega

/-- Rules become tags at every node. -/
theorem map_tag : (node r span excerpt children).map Rule.tag =
    node r.tag span excerpt (children.map (map Rule.tag)) := by
  rw [map, mapAll_eq_map]

/-- A node of a rule is given with its rule. -/
theorem exists_node (h : t.label = r) :
    ∃ span excerpt children, t = node r span excerpt children := by
  obtain ⟨label, span, excerpt, children⟩ := t
  obtain rfl : label = r := h
  exact ⟨span, excerpt, children, rfl⟩

end

/-- A list of two labels is that of two trees. -/
theorem pair_of_labels {r r' : Rule} {ts : List (Tree Rule)} (h : ts.map label = [r, r']) :
    ∃ a b, ts = [a, b] ∧ a.label = r ∧ b.label = r' := by
  obtain ⟨a, _, rfl, ha, h⟩ := List.map_eq_cons_iff.mp h
  obtain ⟨b, rfl, hb⟩ := List.map_eq_singleton_iff.mp h
  exact ⟨a, b, rfl, ha, hb⟩

/-- The rules whose nodes stand for expressions. -/
def isOperand (r : Rule) : Bool :=
  r ∈ [.expr, .logicalOr, .logicalAnd, .comparison, .additive, .multiplicative, .unary, .postfixed,
    .primary] ∨ r ∈ Derives.primaryRules

namespace ReportsBelow

variable {t : Tree Rule}

/-- A token calls for no refusal unless it is a number or a blob. -/
theorem faultsBelow_token {r : Rule} (hlabel : t.label = r) (hf : t.Formed)
    (h : r.isToken = true ∧ isFaultless r.tag = true) :
    ∀ budget root above, faultsBelow budget root above (t.map Rule.tag) = [] := by
  intro budget root above
  obtain ⟨span, excerpt, children, rfl⟩ := exists_node hlabel
  obtain ⟨rfl, -⟩ := hf.lexeme h.1
  rw [map_tag, faultsBelow_node h.2]
  rfl

/-- The rules of the binary operators. -/
def operatorRules : List Rule := [.orOp, .andOp, .compareOp, .addOp, .mulOp]

/-- An operator of the grammar is read as one. -/
theorem binaryOp_isSome {r : Rule} (hlabel : t.label = r) (hf : t.Formed)
    (hr : r ∈ operatorRules) : (∃ op, (t.map Rule.tag).binaryOp = .ok op) ∧
      (t.map Rule.tag).label = .operator ∧
        ∀ budget root above, faultsBelow budget root above (t.map Rule.tag) = [] := by
  have hspec : r.isToken = true ∧ r.tag = .operator := by
    simp only [operatorRules, List.mem_cons, List.not_mem_nil, or_false] at hr
    rcases hr with rfl | rfl | rfl | rfl | rfl <;> exact ⟨rfl, rfl⟩
  refine ⟨?_, by rw [label_map, hlabel, hspec.2],
    faultsBelow_token hlabel hf ⟨hspec.1, by rw [hspec.2]; rfl⟩⟩
  obtain ⟨span, excerpt, children, rfl⟩ := exists_node hlabel
  obtain ⟨-, rest, hlexeme⟩ := hf.lexeme hspec.1
  obtain ⟨op, hop⟩ := BinaryOp.ofToken?_isSome hr hlexeme
  rw [map_tag]
  exact ⟨op, binaryOp_of_text hspec.2 hop⟩

/-- Additive operators can always be applied. -/
theorem applyAdditive_isSome {tight : Bool} {op : Tree Tag} {o : BinaryOp} {a b : Expr Span}
    {text : List Char} (hop : op.binaryOp = .ok o) (ha : a.Every Expr.Built)
    (hb : b.Every Expr.Built) : ∃ e, applyAdditive tight op a b text = .ok e ∧
      e.Every Expr.Built := by
  have hplain : op.binaryOp.map (fun op => Expr.join op a b) = .ok (.join o a b) := by
    rw [hop]
    rfl
  unfold applyAdditive
  simp only [hplain]
  split
  · exact ⟨_, rfl, every_dot ha hb⟩
  · split
    · split
      · exact ⟨_, rfl, every_extendKey? ha ‹_›⟩
      · exact ⟨_, rfl, every_join ha hb⟩
    · exact ⟨_, rfl, every_join ha hb⟩

/-- A prefix operator of the grammar applies to any operand. -/
theorem applyUnary_isSome {e : Expr Span} (hlabel : t.label = .unaryOp) (hf : t.Formed)
    (he : e.Every Expr.Built) :
    ∃ e', (t.map Rule.tag).applyUnary e = .ok e' ∧ e'.Every Expr.Built := by
  obtain ⟨span, excerpt, children, rfl⟩ := exists_node hlabel
  obtain ⟨-, rest, hlexeme⟩ := hf.lexeme rfl
  obtain ⟨op, hop⟩ := UnaryOp.ofToken?_isSome hlexeme
  rw [map_tag]
  refine ⟨.unary (span.merge e.mark) op e, ?_, .of_parts [e] trivial rfl (by simp [he])⟩
  simp only [applyUnary, expect, label, show Rule.unaryOp.tag = .operator from rfl, if_pos,
    text, hop, bind, Except.bind]
  rfl

/-- What is built from the entries of a dictionary. -/
def EveryEntry (entries : List (Expr Span × Expr Span)) : Prop :=
  ∀ entry ∈ entries, entry.1.Every Expr.Built ∧ entry.2.Every Expr.Built

/-- A name token is read as its text. -/
theorem nameOf_isSome (h : t.label.tag = .name) : nameOf (t.map Rule.tag) = .ok t.text := by
  rw [nameOf_eq_ok (by rw [label_map]; exact h), text_map]

/-- The parameters of a lambda are names, and nothing in them is refused. -/
theorem paramNames_isSome (hlabel : t.label = .lambdaParams) (hf : t.Formed) :
    (∃ names, paramNames (t.map Rule.tag) = .ok names ∧
      ∀ name ∈ names, IsName isNameStart isWordChar name) ∧
        ∀ budget root above, faultsBelow budget root above (t.map Rule.tag) = [] := by
  obtain ⟨span, excerpt, params, rfl⟩ := exists_node hlabel
  obtain ⟨hlabels, hparts⟩ := hf.labels rfl
  have hparam : ∀ u ∈ params, u.label = .lambdaParam := fun u hu =>
    Rule.lambdaParams_labels hlabels _ (List.mem_map_of_mem hu)
  rw [map_tag]
  constructor
  · refine ⟨(params.map (map Rule.tag)).map text, ?_, fun name hname => ?_⟩
    · have hnames : (params.map (map Rule.tag)).mapM nameOf =
          .ok ((params.map (map Rule.tag)).map text) := by
        refine mapM_nameOf_eq_ok fun u hu => ?_
        obtain ⟨v, hv, rfl⟩ := List.mem_map.mp hu
        rw [label_map, hparam v hv]
        rfl
      exact hnames
    · obtain ⟨u, hu, rfl⟩ := List.mem_map.mp hname
      obtain ⟨v, hv, rfl⟩ := List.mem_map.mp hu
      have hformed := hparts v hv
      obtain ⟨span, excerpt, children, rfl⟩ := exists_node (hparam v hv)
      obtain ⟨-, rest, hlexeme⟩ := hformed.lexeme rfl
      rw [text_map]
      exact hlexeme.1
  · intro budget root above
    rw [faultsBelow_node rfl]
    clear hlabels hf
    induction params with
    | nil => rfl
    | cons u us ih =>
      rw [List.map_cons, faultsAmong_cons, faultsBelow_token (hparam u (by simp))
        (hparts u (by simp)) ⟨rfl, rfl⟩, List.nil_append]
      exact ih rfl (fun v hv => hparts v (by simp [hv])) fun v hv => hparam v (by simp [hv])

/-- What is built from the parts of a call by name. -/
def EveryPart (parts : Option Scope × List Char × List (Expr Span)) : Prop :=
  IsName isNameStart isNameChar parts.2.1 ∧ ∀ e ∈ parts.2.2, e.Every Expr.Built

/-- The name of a function is read without refusal and made of the characters of such names. -/
theorem functionName_isSome (hlabel : t.label = .functionName) (hf : t.Formed) :
    nameOf (t.map Rule.tag) = .ok t.text ∧ IsName isNameStart isNameChar t.text ∧
      ∀ budget root above, faultsBelow budget root above (t.map Rule.tag) = [] := by
  refine ⟨nameOf_isSome (by rw [hlabel]; rfl), ?_, faultsBelow_token hlabel hf ⟨rfl, rfl⟩⟩
  obtain ⟨span, excerpt, children, rfl⟩ := exists_node hlabel
  obtain ⟨-, rest, hlexeme⟩ := hf.lexeme rfl
  exact hlexeme.1

/-- The scope of a name is read as one of the scopes. -/
theorem scopeOf_isSome (hlabel : t.label = .scope) (hf : t.Formed) :
    (∃ s, scopeOf (t.map Rule.tag) = .ok s) ∧
      ∀ budget root above, faultsBelow budget root above (t.map Rule.tag) = [] := by
  refine ⟨?_, faultsBelow_token hlabel hf ⟨rfl, rfl⟩⟩
  obtain ⟨span, excerpt, children, rfl⟩ := exists_node hlabel
  obtain ⟨-, rest, hlexeme⟩ := hf.lexeme rfl
  obtain ⟨s, hs⟩ := Scope.ofText?_isSome hlexeme
  rw [map_tag]
  refine ⟨s, ?_⟩
  simp only [scopeOf, expect, label, show Rule.scope.tag = .scope from rfl, if_pos, text, hs, bind,
    Except.bind]

/-- A lambda with arguments. -/
theorem every_lambdaCall {callee : Expr Span} {args : List (Expr Span)} {mark : Span}
    (h : callee.Every Expr.Built ∧ callee.isLambda = true) (h' : ∀ e ∈ args, e.Every Expr.Built) :
    (Expr.lambdaCall mark callee args).Every Expr.Built := by
  refine .of_parts (callee :: args) ?_ rfl (by simpa [h.1] using h')
  cases callee with
  | lambda => exact ⟨_, _, _, rfl⟩
  | _ => cases h.2

end ReportsBelow

end Tree

end Vimscript
