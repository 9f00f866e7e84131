import Vimscript.Proofs.Expr.Layout

/-!
# Parentheses weighed against brackets

A text weighs one for each opening parenthesis and minus one for each opening bracket. Printing adds
a parenthesis only around what binds too loosely; so a part weighs at most one more where a tighter
one is wanted, and a field costs no more with its base between parentheses and its key in brackets
than it did behind a point.
-/

namespace Vimscript

open Text

namespace Text

/-- The opening parentheses of a text without as many opening brackets. -/
def weight (u : List Char) : Int := u.count '(' - u.count '['

variable {u v : List Char}

@[simp] theorem weight_nil : weight [] = 0 := rfl

/-- Texts weigh what they weigh one after the other. -/
@[simp] theorem weight_append : weight (u ++ v) = weight u + weight v := by
  simp only [weight, List.count_append, Nat.cast_add]
  omega

@[simp] theorem weight_openParen : weight ['('] = 1 := rfl

@[simp] theorem weight_closeParen : weight [')'] = 0 := rfl

@[simp] theorem weight_openBracket : weight ['['] = -1 := rfl

@[simp] theorem weight_closeBracket : weight [']'] = 0 := rfl

@[simp] theorem weight_openBrace : weight ['\x7b'] = 0 := rfl

@[simp] theorem weight_closeBrace : weight ['\x7d'] = 0 := rfl

/-- A text weighs what its first character and the rest weigh. -/
theorem weight_cons {c : Char} : weight (c :: u) = weight [c] + weight u := weight_append (u := [c])

/-- What is made of other characters has no weight. -/
theorem weight_of_all {accepts : Char → Bool} (h : u.all accepts = true)
    (hparen : accepts '(' = false) (hbracket : accepts '[' = false) : weight u = 0 := by
  have hnone {c : Char} (hc : accepts c = false) : u.count c = 0 :=
    List.count_eq_zero.mpr fun hmem => by
      rw [List.all_eq_true.mp h c hmem] at hc
      cases hc
  rw [weight, hnone hparen, hnone hbracket]
  rfl

/-- The characters of tokens weigh nothing. -/
theorem weight_of_isTokenChar (h : u.all isTokenChar = true) : weight u = 0 :=
  weight_of_all h (by decide) (by decide)

/-- Backwards a text weighs the same. -/
theorem weight_reverse : weight u.reverse = weight u := by
  rw [weight, weight, List.count_reverse, List.count_reverse]

/-- What is trimmed off a text has no weight. -/
theorem weight_trim : weight (trim u) = weight u := by
  have hdrop (v : List Char) : weight (v.dropWhile isBlank) = weight v := by
    have hsum := weight_append (u := v.takeWhile isBlank) (v := v.dropWhile isBlank)
    rw [List.takeWhile_append_dropWhile, weight_of_all List.all_takeWhile (by decide) (by decide),
      Int.zero_add] at hsum
    exact hsum.symm
  rw [trim, trimEnd, weight_reverse, hdrop, weight_reverse, hdrop]

namespace Quoted

/-- Doubled quotes weigh nothing. -/
theorem weight_escapeSingle : weight (escapeSingle u) = weight u := by
  induction u with
  | nil => rfl
  | cons c u ih =>
    rw [escapeSingle, List.flatMap_cons, weight_append, ← escapeSingle, ih, weight_cons (c := c)]
    by_cases hc : c = '\''
    · rw [if_pos hc, hc]
      rfl
    · rw [if_neg hc]

/-- Quotes have no weight. -/
@[simp] theorem weight_encode : weight (encode u) = weight u := by
  rw [encode, List.cons_append, weight_cons, weight_append, weight_escapeSingle]
  exact (Int.zero_add _).trans (Int.add_zero _)

/-- A character for a pair of the same weight. -/
theorem weight_pair {c d d' : Char} (hpair : weight [c] = weight [d, d'])
    (h : weight v = weight u) :
    weight (c :: v) = weight (d :: d' :: u) := by
  rw [weight_cons, hpair, h, ← weight_append]
  rfl

/-- Escapes in double quotes hide no parenthesis and no bracket. -/
theorem weight_unescapeDouble : weight (unescapeDouble u) = weight u := by
  fun_induction unescapeDouble u with
  | case1 => rfl
  | case2 rest ih => exact weight_pair rfl ih
  | case3 rest ih => exact weight_pair rfl ih
  | case4 c rest _ _ ih => rw [weight_cons, ih, ← weight_cons]

/-- Neither do those in single quotes. -/
theorem weight_unescapeSingle : weight (unescapeSingle u) = weight u := by
  fun_induction unescapeSingle u with
  | case1 => rfl
  | case2 rest ih => exact weight_pair rfl ih
  | case3 c rest _ ih => rw [weight_cons, ih, ← weight_cons]

/-- Between quotes stands what the whole weighs, since quotes weigh nothing. -/
theorem weight_body? {quote : Char} (hquote : weight [quote] = 0) (h : body? quote u = some v) :
    weight v = weight u := by
  cases u with
  | nil => cases h
  | cons c rest =>
    rw [body?] at h
    split at h
    · rename_i hends
      obtain ⟨w, rfl⟩ := List.getLast?_eq_some_iff.mp hends.2
      obtain rfl := Option.some.inj h
      rw [weight_cons, hends.1, List.dropLast_concat, weight_append, hquote]
      omega
    · cases h

/-- A string weighs what its text weighs. -/
theorem weight_decode {value : List Char} (h : decode u = some value) :
    weight value = weight u := by
  rw [decode] at h
  split at h
  · rename_i body hbody
    obtain rfl := Option.some.inj h
    rw [weight_unescapeDouble, weight_body? rfl hbody]
  · obtain ⟨body, hbody, rfl⟩ := Option.map_eq_some_iff.mp h
    rw [weight_unescapeSingle, weight_body? rfl hbody]

end Quoted

end Text

/-- A scope weighs nothing. -/
@[simp] theorem Scope.weight_optionalText (scope : Option Scope) :
    weight (Scope.optionalText scope) = 0 := by
  cases scope with
  | none => rfl
  | some scope => cases scope <;> rfl

/-- A binary operator weighs nothing. -/
@[simp] theorem BinaryOp.weight_text (op : BinaryOp) : weight op.text = 0 := by
  cases op with
  | compare relation letterCase => cases relation <;> cases letterCase <;> rfl
  | _ => rfl

/-- A prefix operator weighs nothing. -/
@[simp] theorem UnaryOp.weight_text (op : UnaryOp) : weight op.text = 0 := by
  cases op <;> rfl

/-- A printed whole number has no weight. -/
@[simp] theorem Text.weight_integer (n : Int) : weight (integer n) = 0 :=
  weight_of_all (integer_isRun n).2 (by decide) (by decide)

/-- A printed finite number has no weight. -/
theorem Binary64.weight_sourceText {x : Binary64} (h : x.isFinite = true) :
    weight x.sourceText = 0 := by
  have hpositive (rank : Fin ranks) : weight (finite false rank).sourceText = 0 := by
    obtain ⟨whole, fraction, u, htext, hwhole, hfraction, hu, -⟩ := ofText?_sourceText rank
    have hexponent : IsExponent u ∨ u = [] ∧ ∀ v, IsExponent v → ¬ v <+: [] := by
      refine hu.symm.imp_right fun hnil => ⟨hnil, ?_⟩
      rintro v ⟨mark, sign, digits, rfl, -⟩ hprefix
      cases List.prefix_nil.mp hprefix
    have hlexeme : Rule.float.Lexeme (finite false rank).sourceText [] :=
      ⟨whole, fraction, u, htext, hwhole, hfraction, endsBefore_nil _, hexponent⟩
    exact weight_of_isTokenChar (Rule.lexeme_all_isTokenChar (by decide) hlexeme)
  match x, h with
  | finite false rank, _ => exact hpositive rank
  | finite true rank, _ =>
    have hsign : (finite true rank).sourceText = '-' :: (finite false rank).sourceText := by
      simp only [sourceText, text, signed]
      split <;> simp
    rw [hsign, weight_cons, hpositive]
    rfl

namespace Expr

variable {Mark : Type} {e : Expr Mark} {level level' : Nat}

open Stretch

/-- What an expression weighs where it is printed at a level. -/
def cost (level : Nat) (e : Expr Mark) : Int := weight (part level e).source

/-- Where a tighter level is wanted an expression costs a parenthesis more than its text. -/
theorem cost_eq (level : Nat) (e : Expr Mark) :
    e.cost level = weight e.source + if e.binding < level then 1 else 0 := by
  rw [cost, source_part, opening, closing]
  by_cases h : e.binding < level
  · simp only [if_pos h, weight_append, weight_openParen, weight_closeParen]
    omega
  · simp only [if_neg h, weight_append, weight_nil]
    omega

/-- Anything may stand at the loosest level. -/
theorem cost_zero (e : Expr Mark) : e.cost 0 = weight e.source := by
  rw [cost, source_part_zero]

/-- Where an expression binds tightly enough it costs its text. -/
theorem cost_of_le (h : level ≤ e.binding) : e.cost level = weight e.source := by
  rw [cost_eq, if_neg (by omega), Int.add_zero]

/-- A tighter level costs no less. -/
theorem cost_mono (h : level ≤ level') : e.cost level ≤ e.cost level' := by
  rw [cost_eq, cost_eq]
  split <;> split <;> omega

/-- Parentheses cost one at most. -/
theorem cost_le_succ (level level' : Nat) (e : Expr Mark) : e.cost level ≤ e.cost level' + 1 := by
  rw [cost_eq, cost_eq]
  split <;> split <;> omega

/-- What expressions in a row weigh. -/
def costs (es : List (Expr Mark)) : Int := (es.map (cost 0)).sum

@[simp] theorem costs_nil : costs ([] : List (Expr Mark)) = 0 := rfl

@[simp] theorem costs_cons (es : List (Expr Mark)) : costs (e :: es) = e.cost 0 + costs es :=
  List.sum_cons

/-- Lists cost what they cost one after the other. -/
theorem costs_append (es es' : List (Expr Mark)) : costs (es ++ es') = costs es + costs es' := by
  rw [costs, List.map_append, List.sum_append]
  rfl

/-- So do lists that are made of each element of another. -/
theorem costs_flatMap {α : Type} (as : List α) (f : α → List (Expr Mark)) :
    costs (as.flatMap f) = (as.map fun a => costs (f a)).sum := by
  induction as with
  | nil => rfl
  | cons a as ih => rw [List.flatMap_cons, costs_append, ih, List.map_cons, List.sum_cons]

section

variable {stretches : List (Stretch Mark)}

theorem weight_print_nil : weight (print ([] : List (Stretch Mark))) = 0 := rfl

/-- Stretches weigh what they weigh one after the other. -/
theorem weight_print_cons (s : Stretch Mark) :
    weight (print (s :: stretches)) = weight s.source + weight (print stretches) := by
  rw [print_cons, weight_append]

/-- So do lists of stretches. -/
theorem weight_print_append (more : List (Stretch Mark)) :
    weight (print (stretches ++ more)) = weight (print stretches) + weight (print more) := by
  rw [print_append, weight_append]

end

/-- Separators weigh nothing. -/
theorem weight_row (groups : List (List (Stretch Mark))) :
    weight (print (row groups)) = (groups.map fun group => weight (print group)).sum := by
  induction groups with
  | nil => rfl
  | cons group rest ih =>
    cases rest with
    | nil => simp [row]
    | cons next rest =>
      have hcomma : weight ", ".toList = 0 := rfl
      rw [row, print_append, print_cons, weight_append, weight_append, source_text, hcomma, ih,
        Int.zero_add]
      · rfl
      · simp

/-- Items weigh what they cost. -/
theorem weight_items (es : List (Expr Mark)) : weight (print (items es)) = costs es := by
  rw [items, weight_row, List.map_map]
  refine congrArg List.sum (List.map_congr_left fun e _ => ?_)
  simp [cost]

/-- Entries weigh what their keys and values cost. -/
theorem weight_entries (es : List (Expr Mark × Expr Mark)) :
    weight (print (entries es)) = costs (es.flatMap fun entry => [entry.1, entry.2]) := by
  rw [entries, weight_row, List.map_map, costs_flatMap]
  refine congrArg List.sum (List.map_congr_left fun entry _ => ?_)
  have hcolon : weight ": ".toList = 0 := rfl
  simp only [Function.comp_apply, weight_print_cons, weight_print_nil, source_text, hcolon, cost,
    costs_cons, costs_nil, Int.zero_add]

/-- Names between commas weigh nothing. -/
theorem weight_commaSeparated {names : List (List Char)} (h : ∀ name ∈ names, weight name = 0) :
    weight (commaSeparated names) = 0 := by
  induction names with
  | nil => rfl
  | cons name rest ih =>
    have hname := h name List.mem_cons_self
    cases rest with
    | nil => simpa [commaSeparated] using hname
    | cons next rest =>
      have hrest : weight (", ".toList ++ commaSeparated (next :: rest)) = 0 := by
        rw [weight_append, ih fun name hmem => h name (List.mem_cons_of_mem _ hmem)]
        rfl
      rw [commaSeparated_cons_cons, weight_append, hname, Int.zero_add]
      exact hrest

section

variable (mark : Mark) (a b c : Expr Mark) (es : List (Expr Mark)) (scope : Option Scope)
  {name : List Char}

/-- A list has a bracket around its items. -/
theorem weight_list : weight (list mark es).source = costs es - 1 := by
  rw [source_eq, layout]
  simp only [List.cons_append, weight_print_cons, weight_print_append, weight_print_nil,
    weight_items, source_text, weight_openBracket, weight_closeBracket]
  omega

/-- A dictionary has braces around its entries, which weigh nothing. -/
theorem weight_dict (entries : List (Expr Mark × Expr Mark)) : weight (dict mark entries).source =
    costs (entries.flatMap fun entry => [entry.1, entry.2]) := by
  rw [source_eq, layout]
  simp only [List.cons_append, weight_print_cons, weight_print_append, weight_print_nil,
    weight_entries, source_text, weight_openBrace, weight_closeBrace]
  omega

/-- A prefix operator costs its operand where that stands. -/
theorem weight_unary (op : UnaryOp) : weight (unary mark op a).source = a.cost unaryBinding := by
  rw [source_eq, layout]
  simp only [weight_print_cons, weight_print_nil, source_text, op.weight_text, cost]
  omega

/-- A binary operator costs its sides, the right one at a tighter level. -/
theorem weight_binary (op : BinaryOp) :
    weight (binary mark op a b).source = a.cost op.tier + b.cost (op.tier + 1) := by
  have hblank : weight [' '] = 0 := rfl
  rw [source_eq, layout]
  simp only [weight_print_cons, weight_print_nil, source_text, cost]
  rw [List.cons_append, weight_cons, weight_append, op.weight_text, hblank]
  omega

/-- A conditional costs its parts, of which only the first has to bind. -/
theorem weight_ternary :
    weight (ternary mark a b c).source = a.cost looseBinding + b.cost 0 + c.cost 0 := by
  have hmark : weight " ? ".toList = 0 := rfl
  have hcolon : weight " : ".toList = 0 := rfl
  rw [source_eq, layout]
  simp only [weight_print_cons, weight_print_nil, source_text, cost, hmark, hcolon]
  omega

/-- So does a coalescing operator. -/
theorem weight_falsy : weight (falsy mark a b).source = a.cost looseBinding + b.cost 0 := by
  have hmark : weight " ?? ".toList = 0 := rfl
  rw [source_eq, layout]
  simp only [weight_print_cons, weight_print_nil, source_text, cost, hmark]
  omega

/-- A call by name has a parenthesis in front of its arguments. -/
theorem weight_call : weight (call mark scope name es).source = weight name + 1 + costs es := by
  rw [source_eq, layout]
  simp only [List.cons_append, weight_print_cons, weight_print_append, weight_print_nil,
    weight_items, source_text, weight_append, Scope.weight_optionalText, weight_openParen,
    weight_closeParen]
  omega

/-- A lambda costs its body. -/
theorem weight_lambda {params : List (List Char)} (h : ∀ name ∈ params, weight name = 0) :
    weight (lambda mark params a).source = a.cost 0 := by
  have harrow : weight "-> ".toList = 0 := rfl
  have hparams : weight (if params = [] then [] else commaSeparated params ++ [' ']) = 0 := by
    split
    · rfl
    · rw [weight_append, weight_commaSeparated h]
      rfl
  rw [source_eq, layout]
  simp only [weight_print_cons, weight_print_nil, source_text, cost, weight_closeBrace]
  rw [List.cons_append, weight_cons, weight_append, hparams, weight_openBrace, harrow]
  omega

/-- A call of a value costs its callee, a parenthesis and its arguments. -/
theorem weight_funcrefCall :
    weight (funcrefCall mark a es).source = a.cost suffixBinding + 1 + costs es := by
  rw [source_eq, layout]
  simp only [List.cons_append, weight_print_cons, weight_print_append, weight_print_nil,
    weight_items, source_text, cost, weight_openParen, weight_closeParen]
  omega

/-- A lambda that is called is printed like any other callee. -/
theorem weight_lambdaCall :
    weight (lambdaCall mark a es).source = a.cost suffixBinding + 1 + costs es :=
  weight_funcrefCall mark a es

/-- A slice costs its base and its bounds, less a bracket. -/
theorem weight_slice (lower upper : Option (Expr Mark)) : weight (slice mark a lower upper).source =
    a.cost suffixBinding - 1 + costs (lower.toList ++ upper.toList) := by
  have hcolon : weight [':'] = 0 := rfl
  have hblank : weight [' '] = 0 := rfl
  rw [source_eq, layout, costs_append]
  cases lower <;> cases upper <;>
    simp only [Option.toList, List.flatMap_nil, List.flatMap_singleton, List.cons_append,
      List.nil_append, weight_print_cons, weight_print_nil, source_text, cost, costs_cons,
      costs_nil, weight_openBracket, hcolon, weight_closeBracket, hblank] <;> omega

/-- A subscript costs its base and its key, less a bracket. -/
theorem weight_index :
    weight (index mark a b).source = a.cost suffixBinding - 1 + b.cost 0 := by
  rw [source_eq, layout]
  simp only [weight_print_cons, weight_print_nil, source_text, cost, weight_openBracket,
    weight_closeBracket]
  omega

end

/-- What an expression costs shows no mark. -/
theorem cost_withMark (mark : Mark) : (e.withMark mark).cost level = e.cost level := by
  cases e <;> rfl

variable {left right : Expr Span} {text : List Char} {span : Span}

/-- Joining costs both sides. -/
theorem cost_join {op : BinaryOp} (h : op.tier = level) :
    (join op left right).cost level = left.cost level + right.cost (level + 1) := by
  subst h
  have hbinding : op.tier ≤ (join op left right).binding := Nat.le_refl _
  rw [cost_of_le hbinding, join, weight_binary]

/-- A field has a bracket more than its base, which may need parentheses for that. -/
theorem cost_field (h : level ≤ suffixBinding) :
    (left.field text span).cost level = left.cost suffixBinding - 1 + weight text := by
  rw [field, cost_of_le h, weight_index, cost_zero]
  exact congrArg _ Text.Quoted.weight_encode

/-- What a point makes of the expressions beside it weighs no more than their texts. -/
theorem cost_dot_le {w : Int} (hright : right.cost 5 ≤ w) (htext : weight text ≤ w) :
    (left.dot right text).cost 4 ≤ left.cost 4 + w := by
  have hbase := left.cost_le_succ suffixBinding 4
  unfold dot
  split
  · rename_i span scope name args
    -- The parentheses of the call are there before and after; the bracket of the field is new.
    rw [cost_of_le (show 5 ≤ atomBinding by decide), weight_call] at hright
    rw [cost_of_le (show 4 ≤ suffixBinding by decide), weight_funcrefCall,
      cost_field (Nat.le_refl _)]
    omega
  · split
    · rw [cost_field (by decide)]
      omega
    · rw [cost_join (show BinaryOp.concat.tier = 4 from rfl)]
      exact Int.add_le_add_left hright _

/-- A key that goes on behind a dash weighs what is added to it. -/
theorem cost_extendKey? {suffix : List Char} {extended : Expr Span}
    (h : left.extendKey? suffix span = some extended) :
    extended.cost 4 = left.cost 4 + weight suffix := by
  unfold extendKey? at h
  split at h
  · rename_i whole base keySpan key
    obtain rfl := Option.some.inj h
    have hkey (mark : Span) (key : List Char) :
        (literal mark (.string key)).cost 0 = weight key := by
      rw [cost_zero]
      exact Text.Quoted.weight_encode
    have hdash : weight ['-'] = 0 := rfl
    have hlevel : 4 ≤ suffixBinding := by decide
    rw [cost_of_le hlevel, cost_of_le hlevel, weight_index, weight_index, hkey, hkey, weight_append,
      weight_cons, hdash]
    omega
  · cases h

/-- A call costs its callee, a parenthesis and its arguments, whatever is called. -/
theorem cost_callOf (callee : Expr Span) (args : List (Expr Span)) :
    (Tree.callOf span callee args).cost suffixBinding =
      callee.cost suffixBinding + 1 + costs args := by
  unfold Tree.callOf
  split
  · rw [cost_of_le (Nat.le_refl suffixBinding), weight_lambdaCall]
  · rw [cost_of_le (Nat.le_refl suffixBinding), weight_funcrefCall]

end Expr

end Vimscript
