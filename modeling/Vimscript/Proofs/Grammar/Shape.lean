import Vimscript.Proofs.Grammar.Compose
import Vimscript.Proofs.Grammar.Opening

/-!
# Shapes of nodes

Which nodes can stand right below a node, without regard to where they lie. A pattern adds nodes of
certain rules in a certain order, so the children of a node are known from its rule alone, and the
texts of tokens are lexemes.
-/

namespace Vimscript

open Pattern

/-- The rules of the nodes that a pattern adds, in their order. -/
inductive Labels : Pattern → List Rule → Prop where
  | empty : Labels .empty []
  | text {chars : List Char} : Labels (.text chars) []
  | char {accepts : Char → Bool} : Labels (.char accepts) []
  | rule {r : Rule} : Labels (.rule r) [r]
  | seq {p q : Pattern} {us vs : List Rule} (h : Labels p us) (h' : Labels q vs) :
    Labels (.seq p q) (us ++ vs)
  | left {p q : Pattern} {rs : List Rule} (h : Labels p rs) : Labels (.choice p q) rs
  | right {p q : Pattern} {rs : List Rule} (h : Labels q rs) : Labels (.choice p q) rs
  | absent {p : Pattern} : Labels (.opt p) []
  | present {p : Pattern} {rs : List Rule} (h : Labels p rs) : Labels (.opt p) rs
  | done {p : Pattern} : Labels (.many p) []
  | again {p : Pattern} {us vs : List Rule} (h : Labels p us) (h' : Labels (.many p) vs) :
    Labels (.many p) (us ++ vs)
  | counted {p : Pattern} {rs : List Rule} (h : Labels p rs) : Labels (.counted p) rs

/-- The nodes that a pattern derives have the labels that it gives. -/
theorem Derives.labels {p : Pattern} {here stop : Cursor} {ts : List (Tree Rule)}
    (h : Derives p here stop ts) : Labels p (ts.map Tree.label) := by
  induction h with
  | empty => exact .empty
  | text => exact .text
  | char => exact .char
  | token | rule => exact .rule
  | seq _ _ ih ih' =>
    rw [List.map_append]
    exact .seq ih ih'
  | left _ ih => exact .left ih
  | right _ ih => exact .right ih
  | absent => exact .absent
  | present _ ih => exact .present ih
  | done => exact .done
  | again _ _ ih ih' =>
    rw [List.map_append]
    exact .again ih ih'
  | counted _ ih => exact .counted ih

/-- A node that the grammar can make: a token over a lexeme, or a node with the children that its
rule gives it. -/
inductive Tree.Formed : Tree Rule → Prop where
  | token {r : Rule} {span : Span} {excerpt : Excerpt} {rest : List Char} (hr : r.isToken = true)
    (h : r.Lexeme excerpt.toList rest) : Formed (.node r span excerpt [])
  | rule {r : Rule} {span : Span} {excerpt : Excerpt} {children : List (Tree Rule)}
    (hr : r.isToken = false) (h : Labels r.pattern (children.map label))
    (parts : ∀ t ∈ children, Formed t) : Formed (.node r span excerpt children)

/-- Whatever derives is formed. -/
theorem Derives.formed {p : Pattern} {here stop : Cursor} {ts : List (Tree Rule)}
    (h : Derives p here stop ts) : ∀ t ∈ ts, t.Formed := by
  induction h with
  | empty | text | char | absent | done => simp
  | @token here stop r u hr hmove hu =>
    simp only [List.mem_singleton, forall_eq]
    exact .token hr (by rw [hmove.excerpt_toList]; exact hu)
  | rule hr h _ ih =>
    simp only [List.mem_singleton, forall_eq]
    exact .rule hr h.labels ih
  | seq _ _ ih ih' | again _ _ ih ih' =>
    intro t ht
    rcases List.mem_append.mp ht with ht | ht
    · exact ih t ht
    · exact ih' t ht
  | left _ ih | right _ ih | present _ ih | counted _ ih => exact ih

namespace Labels

variable {p q : Pattern} {r : Rule} {rs : List Rule}

@[simp] theorem empty_iff : Labels .empty rs ↔ rs = [] :=
  ⟨fun h => by cases h; rfl, fun h => h ▸ .empty⟩

@[simp] theorem text_iff {chars : List Char} : Labels (.text chars) rs ↔ rs = [] :=
  ⟨fun h => by cases h; rfl, fun h => h ▸ .text⟩

@[simp] theorem char_iff {accepts : Char → Bool} : Labels (.char accepts) rs ↔ rs = [] :=
  ⟨fun h => by cases h; rfl, fun h => h ▸ .char⟩

@[simp] theorem rule_iff : Labels (.rule r) rs ↔ rs = [r] :=
  ⟨fun h => by cases h; rfl, fun h => h ▸ .rule⟩

@[simp] theorem seq_iff :
    Labels (.seq p q) rs ↔ ∃ us vs, Labels p us ∧ Labels q vs ∧ rs = us ++ vs :=
  ⟨fun h => by cases h with | seq h h' => exact ⟨_, _, h, h', rfl⟩,
    fun ⟨_, _, h, h', e⟩ => e ▸ .seq h h'⟩

@[simp] theorem choice_iff : Labels (.choice p q) rs ↔ Labels p rs ∨ Labels q rs := by
  constructor
  · intro h
    cases h with
    | left h => exact .inl h
    | right h => exact .inr h
  · rintro (h | h)
    · exact .left h
    · exact .right h

@[simp] theorem opt_iff : Labels (.opt p) rs ↔ rs = [] ∨ Labels p rs := by
  constructor
  · intro h
    cases h with
    | absent => exact .inl rfl
    | present h => exact .inr h
  · rintro (rfl | h)
    · exact .absent
    · exact .present h

@[simp] theorem counted_iff : Labels (.counted p) rs ↔ Labels p rs :=
  ⟨fun h => by cases h with | counted h => exact h, .counted⟩

@[simp] theorem call_iff : Labels (call r) rs ↔ rs = [r] := by
  unfold call
  split <;> simp

/-- Rounds that add one node of some kind each add nodes of that kind. -/
theorem many_cases {kind : Rule → Prop} (hp : ∀ rs, Labels p rs → ∀ r ∈ rs, kind r)
    (h : Labels (.many p) rs) : ∀ r ∈ rs, kind r := by
  generalize hq : Pattern.many p = q at h
  induction h with
  | done => simp
  | again h _ _ ih =>
    cases hq
    intro r hr
    rcases List.mem_append.mp hr with hr | hr
    · exact hp _ h r hr
    · exact ih rfl r hr
  | _ => cases hq

theorem blanks_iff : Labels blanks rs ↔ rs = [] := by
  refine ⟨fun h => ?_, fun h => h ▸ .counted .done⟩
  have : ∀ r ∈ rs, False := many_cases (fun rs h => by simp_all) (counted_iff.mp h)
  exact List.eq_nil_iff_forall_not_mem.mpr this

/-- Blanks between two patterns add nothing. -/
theorem spaced_iff : Labels (.seq p (.seq blanks q)) rs ↔
    ∃ us vs, Labels p us ∧ Labels q vs ∧ rs = us ++ vs := by
  simp only [seq_iff, blanks_iff]
  constructor
  · rintro ⟨us, _, h, ⟨_, vs, rfl, h', rfl⟩, rfl⟩
    exact ⟨us, _, h, h', rfl⟩
  · rintro ⟨us, vs, h, h', rfl⟩
    exact ⟨us, _, h, ⟨[], vs, rfl, h', rfl⟩, rfl⟩

/-- Blanks in front of a part give no labels. -/
theorem afterBlanks_iff : Labels (.counted (.seq blanks p)) rs ↔ Labels p rs := by
  simp [blanks_iff]

/-- A repetition with blanks between its rounds gives what its rounds give. -/
theorem spacedStar_iff : Labels (spacedStar p) rs ↔
    rs = [] ∨ ∃ us vs, Labels p us ∧ Labels (.many (.counted (.seq blanks p))) vs ∧
      rs = us ++ vs := by
  simp only [spacedStar, counted_iff, opt_iff, seq_iff]

/-- Spaced rounds that add nodes of some kind add only nodes of that kind. -/
theorem spacedStar_cases {kind : Rule → Prop} (hp : ∀ rs, Labels p rs → ∀ r ∈ rs, kind r)
    (h : Labels (spacedStar p) rs) : ∀ r ∈ rs, kind r := by
  rcases spacedStar_iff.mp h with rfl | ⟨us, vs, hfirst, hmore, rfl⟩
  · simp
  · intro r hr
    rcases List.mem_append.mp hr with hr | hr
    · exact hp us hfirst r hr
    · exact many_cases (fun rs hrs => hp rs (afterBlanks_iff.mp hrs)) hmore r hr

end Labels

/-- Members of one kind with members of another kind between any two. -/
inductive Alternates {α : Type} (p q : α → Prop) : List α → Prop where
  | one {a : α} (h : p a) : Alternates p q [a]
  | more {a b : α} {rest : List α} (h : p a) (hlink : q b) (more : Alternates p q rest) :
    Alternates p q (a :: b :: rest)

namespace Alternates

variable {α β : Type} {p q : α → Prop} {as : List α}

/-- An alternating list goes on with one of each kind. -/
theorem snoc {a b : α} (h : Alternates p q as) (hb : q b) (ha : p a) :
    Alternates p q (as ++ [b, a]) := by
  induction h with
  | one h => exact .more h hb (.one ha)
  | more h hlink _ ih => exact .more h hlink ih

/-- It begins with one of the first kind. -/
theorem head (h : Alternates p q as) : ∃ a rest, as = a :: rest ∧ p a := by
  cases h with
  | one h => exact ⟨_, _, rfl, h⟩
  | more h => exact ⟨_, _, rfl, h⟩

/-- What a function is applied to alternates as its values do. -/
theorem of_map {f : β → α} {bs : List β} (h : Alternates p q (bs.map f)) :
    Alternates (fun b => p (f b)) (fun b => q (f b)) bs := by
  generalize has : bs.map f = as at h
  induction h generalizing bs with
  | one h =>
    obtain ⟨b, rfl, rfl⟩ := List.map_eq_singleton_iff.mp has
    exact .one h
  | more h hlink _ ih =>
    obtain ⟨b, _, rfl, rfl, htail⟩ := List.map_eq_cons_iff.mp has
    obtain ⟨b', rest, rfl, rfl, hrest⟩ := List.map_eq_cons_iff.mp htail
    exact .more h hlink (ih hrest)

/-- Kinds may be widened. -/
theorem mono {p' q' : α → Prop} (h : Alternates p q as) (hp : ∀ a ∈ as, p a → p' a)
    (hq : ∀ a ∈ as, q a → q' a) : Alternates p' q' as := by
  induction h with
  | one h => exact .one (hp _ (by simp) h)
  | more h hlink _ ih =>
    exact .more (hp _ (by simp) h) (hq _ (by simp) hlink)
      (ih (fun a ha => hp a (by simp [ha])) fun a ha => hq a (by simp [ha]))

/-- An alternating list has one more of the first kind than of the second. -/
theorem odd (h : Alternates p q as) : as.length % 2 = 1 := by
  induction h with
  | one => rfl
  | more _ _ _ ih =>
    simp only [List.length_cons]
    omega

end Alternates

namespace Labels

variable {rs : List Rule}

/-- The children of a chain alternate. -/
theorem chained_alternates {operand : Rule} {link : Pattern} {kind : Rule → Prop}
    (hlink : ∀ rs, Labels link rs → ∃ r, rs = [r] ∧ kind r)
    (h : Labels (chained operand link) rs) : Alternates (· = operand) kind rs := by
  have round {us as : List Rule} (hus : Labels (spaced [link, call operand]) us)
      (has : Alternates (· = operand) kind as) : Alternates (· = operand) kind (as ++ us) := by
    obtain ⟨vs, ws, hvs, hws, rfl⟩ := spaced_iff.mp (counted_iff.mp hus)
    obtain ⟨r, rfl, hr⟩ := hlink vs hvs
    rw [call_iff.mp hws]
    exact has.snoc hr rfl
  have rounds {us as : List Rule}
      (hus : Labels (.many (.counted (.seq blanks (spaced [link, call operand])))) us)
      (has : Alternates (· = operand) kind as) : Alternates (· = operand) kind (as ++ us) := by
    generalize hp : Pattern.many _ = p at hus
    induction hus generalizing as with
    | done => rwa [List.append_nil]
    | again hround _ _ ih =>
      cases hp
      rw [← List.append_assoc]
      exact ih (round (afterBlanks_iff.mp hround) has) rfl
    | _ => cases hp
  obtain ⟨us, vs, hus, hvs, rfl⟩ := spaced_iff.mp (counted_iff.mp h)
  rw [call_iff.mp hus]
  rcases spacedStar_iff.mp hvs with rfl | ⟨ws, xs, hws, hxs, rfl⟩
  · exact .one rfl
  · rw [← List.append_assoc]
    exact rounds hxs (round hws (.one rfl))

/-- Rounds behind a comma add a node of their rule each. -/
theorem commaRound_cases {part : Rule} (h : Labels (spaced [.token ",", call part]) rs) :
    ∀ r ∈ rs, r = part := by
  obtain ⟨us, vs, hus, hvs, rfl⟩ := spaced_iff.mp (counted_iff.mp h)
  rw [text_iff.mp hus, call_iff.mp hvs]
  simp

/-- Parts between commas have one label. -/
theorem commaList_cases {part : Rule} (h : Labels (commaList part) rs) : ∀ r ∈ rs, r = part := by
  rcases opt_iff.mp (counted_iff.mp h) with rfl | h
  · simp
  · obtain ⟨us, _, hus, hrest, rfl⟩ := spaced_iff.mp (counted_iff.mp h)
    obtain ⟨vs, ws, hvs, hws, rfl⟩ := spaced_iff.mp hrest
    have hlast : ws = [] := by
      rcases opt_iff.mp (counted_iff.mp hws) with rfl | hws
      · rfl
      · exact text_iff.mp hws
    have hrounds := spacedStar_cases (fun _ => commaRound_cases) hvs
    rw [call_iff.mp hus, hlast, List.append_nil]
    simpa using hrounds

/-- Between brackets. -/
theorem enclosed_iff {opening closing : List Char} {p : Pattern} :
    Labels (spaced [.text opening, p, .text closing]) rs ↔ Labels p rs := by
  simp only [spaced, spacedChain, counted_iff, spaced_iff, text_iff]
  constructor
  · rintro ⟨_, _, rfl, ⟨us, _, h, rfl, rfl⟩, rfl⟩
    simpa using h
  · intro h
    exact ⟨[], rs, rfl, ⟨rs, [], h, rfl, by simp⟩, rfl⟩

end Labels

namespace Rule

variable {rs : List Rule}

/-- A source holds an expression and the end of the input. -/
theorem expression_labels (h : Labels expression.pattern rs) : rs = [expr, endOfInput] := by
  obtain ⟨us, _, hus, hrest, rfl⟩ := Labels.spaced_iff.mp (Labels.counted_iff.mp h)
  obtain ⟨vs, ws, hvs, hws, rfl⟩ := Labels.spaced_iff.mp hrest
  rw [Labels.empty_iff.mp hus, Labels.call_iff.mp hvs, Labels.call_iff.mp hws]
  rfl

/-- An expression alternates between disjunctions and what links them. -/
theorem expr_labels (h : Labels expr.pattern rs) :
    Alternates (· = logicalOr) (fun r => r = coalesce ∨ r = ternaryThen) rs := by
  refine Labels.chained_alternates (fun rs hrs => ?_) h
  rcases Labels.choice_iff.mp hrs with hrs | hrs
  · exact ⟨_, Labels.call_iff.mp hrs, .inl rfl⟩
  · exact ⟨_, Labels.call_iff.mp hrs, .inr rfl⟩

/-- A tier alternates between its operands and its operators. -/
theorem tier_labels {operand operator : Rule} (h : Labels (tier operand operator) rs) :
    Alternates (· = operand) (· = operator) rs :=
  Labels.chained_alternates (fun _ hrs => ⟨_, Labels.call_iff.mp hrs, rfl⟩) h

/-- Prefix operators stand in front of a postfix chain. -/
theorem unary_labels (h : Labels unary.pattern rs) :
    ∃ ops, rs = ops ++ [postfixed] ∧ ∀ r ∈ ops, r = unaryOp := by
  obtain ⟨us, vs, hus, hvs, rfl⟩ := Labels.spaced_iff.mp (Labels.counted_iff.mp h)
  rw [Labels.call_iff.mp hvs]
  refine ⟨us, rfl, Labels.spacedStar_cases (fun rs hrs => ?_) hus⟩
  rw [Labels.call_iff.mp hrs]
  simp

/-- A primary stands in front of what is attached to it. -/
theorem postfixed_labels (h : Labels postfixed.pattern rs) :
    ∃ more, rs = primary :: more ∧ ∀ r ∈ more, r ∈ Derives.attachments := by
  obtain ⟨us, vs, hus, hvs, rfl⟩ := Labels.seq_iff.mp (Labels.counted_iff.mp h)
  rw [Labels.call_iff.mp hus]
  refine ⟨vs, rfl, Labels.many_cases (fun rs hrs => ?_) (Labels.counted_iff.mp hvs)⟩
  simp only [firstOf, Labels.choice_iff, Labels.call_iff] at hrs
  rcases hrs with rfl | rfl | rfl <;> decide

/-- The middle of a conditional is an expression. -/
theorem ternaryThen_labels (h : Labels ternaryThen.pattern rs) : rs = [expr] :=
  Labels.call_iff.mp (Labels.enclosed_iff.mp h)

/-- A subscript holds a key, or a separator with a bound on either side or none. -/
theorem subscript_labels (h : Labels subscript.pattern rs) :
    rs = [expr] ∨ rs = [expr, sliceSep] ∨ rs = [expr, sliceSep, expr] ∨ rs = [sliceSep] ∨
      rs = [sliceSep, expr] := by
  have upper {rs : List Rule}
      (h : Labels (spaced [call sliceSep, .optional (call expr)]) rs) :
      rs = [sliceSep] ∨ rs = [sliceSep, expr] := by
    obtain ⟨us, vs, hus, hvs, rfl⟩ := Labels.spaced_iff.mp (Labels.counted_iff.mp h)
    rw [Labels.call_iff.mp hus]
    rcases Labels.opt_iff.mp (Labels.counted_iff.mp hvs) with rfl | hvs
    · exact .inl rfl
    · rw [Labels.call_iff.mp hvs]
      exact .inr rfl
  rcases Labels.choice_iff.mp (Labels.enclosed_iff.mp h) with h | h
  · obtain ⟨us, vs, hus, hvs, rfl⟩ := Labels.spaced_iff.mp (Labels.counted_iff.mp h)
    rw [Labels.call_iff.mp hus]
    rcases Labels.opt_iff.mp (Labels.counted_iff.mp hvs) with rfl | hvs
    · exact .inl rfl
    · rcases upper hvs with rfl | rfl
      · exact .inr (.inl rfl)
      · exact .inr (.inr (.inl rfl))
  · rcases upper h with rfl | rfl
    · exact .inr (.inr (.inr (.inl rfl)))
    · exact .inr (.inr (.inr (.inr rfl)))

/-- A method is a call by name, or a lambda with arguments. -/
theorem methodCall_labels (h : Labels methodCall.pattern rs) :
    rs = [functionCall] ∨ rs = [lambda, callArgs] := by
  obtain ⟨us, vs, hus, hvs, rfl⟩ := Labels.spaced_iff.mp (Labels.counted_iff.mp h)
  rw [Labels.text_iff.mp hus, List.nil_append]
  rcases Labels.choice_iff.mp hvs with h | h
  · obtain ⟨ws, xs, hws, hxs, rfl⟩ := Labels.spaced_iff.mp (Labels.counted_iff.mp h)
    rw [Labels.call_iff.mp hws, Labels.call_iff.mp hxs]
    exact .inr rfl
  · exact .inl (Labels.call_iff.mp h)

/-- Arguments are places for one each. -/
theorem callArgs_labels (h : Labels callArgs.pattern rs) : ∀ r ∈ rs, r = callArg := by
  obtain ⟨us, _, hus, hrest, rfl⟩ := Labels.spaced_iff.mp (Labels.counted_iff.mp h)
  obtain ⟨vs, _, hvs, hclose, rfl⟩ := Labels.spaced_iff.mp hrest
  obtain ⟨ws, xs, hws, hxs, rfl⟩ := Labels.spaced_iff.mp hclose
  have hrounds := Labels.spacedStar_cases (fun _ => Labels.commaRound_cases) hws
  rw [Labels.text_iff.mp hus, Labels.call_iff.mp hvs, Labels.text_iff.mp hxs]
  simpa using hrounds

/-- A place for an argument holds an expression or nothing. -/
theorem callArg_labels (h : Labels callArg.pattern rs) : rs = [] ∨ rs = [expr] :=
  (Labels.opt_iff.mp (Labels.counted_iff.mp h)).imp_right Labels.call_iff.mp

/-- A primary holds one of the constants and references, or an expression between parentheses. -/
theorem primary_labels (h : Labels primary.pattern rs) :
    ∃ r, rs = [r] ∧ (r ∈ Derives.primaryRules ∨ r = expr) := by
  simp only [pattern, firstOf, Labels.choice_iff, Labels.call_iff, Pattern.token,
    Labels.enclosed_iff] at h
  rcases h with rfl | rfl | rfl | rfl | rfl | rfl | rfl | rfl | rfl | rfl | rfl | rfl | rfl | rfl <;>
    exact ⟨_, rfl, by decide⟩

/-- A list holds expressions. -/
theorem list_labels (h : Labels list.pattern rs) : ∀ r ∈ rs, r = expr :=
  Labels.commaList_cases (Labels.enclosed_iff.mp h)

/-- A dictionary holds entries. -/
theorem dict_labels (h : Labels dict.pattern rs) : ∀ r ∈ rs, r = dictEntry :=
  Labels.commaList_cases (Labels.enclosed_iff.mp h)

/-- A literal dictionary holds literal entries. -/
theorem literalDict_labels (h : Labels literalDict.pattern rs) : ∀ r ∈ rs, r = literalDictEntry :=
  Labels.commaList_cases (Labels.enclosed_iff.mp h)

/-- An entry holds a key and an expression. -/
theorem pair_labels {key : Rule} {chars : List Char}
    (h : Labels (spaced [call key, .text chars, call expr]) rs) : rs = [key, expr] := by
  obtain ⟨us, _, hus, hrest, rfl⟩ := Labels.spaced_iff.mp (Labels.counted_iff.mp h)
  obtain ⟨vs, ws, hvs, hws, rfl⟩ := Labels.spaced_iff.mp hrest
  rw [Labels.call_iff.mp hus, Labels.text_iff.mp hvs, Labels.call_iff.mp hws]
  rfl

/-- A lambda may have arguments behind it. -/
theorem lambdaExpr_labels (h : Labels lambdaExpr.pattern rs) :
    rs = [lambda] ∨ rs = [lambda, callArgs] := by
  obtain ⟨us, vs, hus, hvs, rfl⟩ := Labels.seq_iff.mp (Labels.counted_iff.mp h)
  rw [Labels.call_iff.mp hus]
  rcases Labels.opt_iff.mp (Labels.counted_iff.mp hvs) with rfl | hvs
  · exact .inl rfl
  · rw [Labels.call_iff.mp hvs]
    exact .inr rfl

/-- A lambda holds its parameters and its body. -/
theorem lambda_labels (h : Labels lambda.pattern rs) : rs = [lambdaParams, expr] := by
  obtain ⟨us, _, hus, hparams, rfl⟩ := Labels.spaced_iff.mp (Labels.counted_iff.mp h)
  obtain ⟨vs, _, hvs, harrow, rfl⟩ := Labels.spaced_iff.mp hparams
  obtain ⟨ws, _, hws, hbody, rfl⟩ := Labels.spaced_iff.mp harrow
  obtain ⟨xs, ys, hxs, hys, rfl⟩ := Labels.spaced_iff.mp hbody
  rw [Labels.text_iff.mp hus, Labels.call_iff.mp hvs, Labels.text_iff.mp hws,
    Labels.call_iff.mp hxs, Labels.text_iff.mp hys]
  rfl

/-- Parameters are names. -/
theorem lambdaParams_labels (h : Labels lambdaParams.pattern rs) : ∀ r ∈ rs, r = lambdaParam := by
  rcases Labels.opt_iff.mp (Labels.counted_iff.mp h) with rfl | h
  · simp
  · obtain ⟨us, vs, hus, hvs, rfl⟩ := Labels.spaced_iff.mp (Labels.counted_iff.mp h)
    have hrounds := Labels.spacedStar_cases (fun _ => Labels.commaRound_cases) hvs
    rw [Labels.call_iff.mp hus]
    simpa using hrounds

/-- An option has a name, and a scope or none. -/
theorem option_labels (h : Labels option.pattern rs) :
    rs = [optionName] ∨ rs = [optionScope, optionName] := by
  obtain ⟨us, _, hus, hrest, rfl⟩ := Labels.seq_iff.mp (Labels.counted_iff.mp h)
  obtain ⟨vs, ws, hvs, hws, rfl⟩ := Labels.seq_iff.mp hrest
  rw [Labels.text_iff.mp hus, Labels.call_iff.mp hws]
  rcases Labels.opt_iff.mp (Labels.counted_iff.mp hvs) with rfl | hvs
  · exact .inl rfl
  · rw [Labels.call_iff.mp hvs]
    exact .inr rfl

/-- An environment variable has a name. -/
theorem envVariable_labels (h : Labels envVariable.pattern rs) : rs = [envName] := by
  obtain ⟨us, vs, hus, hvs, rfl⟩ := Labels.seq_iff.mp (Labels.counted_iff.mp h)
  rw [Labels.text_iff.mp hus, Labels.call_iff.mp hvs]
  rfl

/-- A call by name has a name and arguments, and a scope or none. -/
theorem functionCall_labels (h : Labels functionCall.pattern rs) :
    rs = [functionName, callArgs] ∨ rs = [scope, functionName, callArgs] := by
  obtain ⟨us, _, hus, hrest, rfl⟩ := Labels.seq_iff.mp (Labels.counted_iff.mp h)
  obtain ⟨vs, ws, hvs, hws, rfl⟩ := Labels.seq_iff.mp hrest
  rw [Labels.call_iff.mp hvs, Labels.call_iff.mp hws]
  rcases Labels.opt_iff.mp (Labels.counted_iff.mp hus) with rfl | hus
  · exact .inl rfl
  · rw [Labels.call_iff.mp hus]
    exact .inr rfl

/-- A variable has a name, and a scope or none. -/
theorem variableRef_labels (h : Labels variableRef.pattern rs) :
    rs = [variableName] ∨ rs = [scope, scopedName] := by
  rcases Labels.choice_iff.mp h with h | h
  · obtain ⟨us, vs, hus, hvs, rfl⟩ := Labels.seq_iff.mp (Labels.counted_iff.mp h)
    rw [Labels.call_iff.mp hus, Labels.call_iff.mp hvs]
    exact .inr rfl
  · exact .inl (Labels.call_iff.mp h)

end Rule

end Vimscript
