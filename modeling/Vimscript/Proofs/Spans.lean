import Vimscript.Proofs.Expr.Fits
import Vimscript.Proofs.Expr.Refusals
import Vimscript.Proofs.Expr.Whole
import Vimscript.Proofs.Grammar.Furthest
import Vimscript.Proofs.Grammar.Lays

/-!
# The places that a reading names

Where a reading gives an expression, every node of it is over a text of the source without blanks
at its ends and has its parts inside it. Where a reading is refused at a place, the place is one of
the source, and the text of a literal that is refused is what stands there. The trees that the
grammar derives are placed, so both follow from what is built from placed trees.
-/

namespace Vimscript

open Text

/-- Whether a pattern holds no fixed text, so that it takes nothing but its rules and blanks. -/
def Pattern.isBare : Pattern → Bool
  | empty | char _ | rule _ => true
  | seq p q | choice p q => p.isBare && q.isBare
  | many p | opt p | counted p => p.isBare
  | _ => false

namespace Rule

variable {r : Rule}

/-- Only the whole source is a root. -/
theorem tag_ne_root (h : r ≠ .expression) : r.tag ≠ .root := by
  cases r <;> first | exact (h rfl).elim | decide

/-- A bare tag stands for a rule whose pattern reads no text. -/
theorem pattern_isBare (h : r.tag.isBare = true) : r.pattern.isBare = true := by
  cases r <;> first | (cases h; done) | rfl

/-- The texts of tight rules are not empty and have no blank at their ends. -/
theorem tight_ends (h : r.tag.isTight = true) :
    r.endsTight = true ∧ r.mayBeEmpty = false ∧ r.starts ' ' = false ∧ r.starts '\t' = false := by
  cases r <;> first | (cases h; done) | decide

/-- What begins a node with a tight tag is no blank. -/
theorem starts_of_isTight {c : Char} (h : r.tag.isTight = true) (hc : r.starts c = true) :
    isSpace c = false := by
  obtain ⟨-, -, hspace, htab⟩ := tight_ends h
  cases hblank : isSpace c with
  | false => rfl
  | true =>
    rcases (by simpa [isSpace] using hblank : c = ' ' ∨ c = '\t') with rfl | rfl
    · cases hspace.symm.trans hc
    · cases htab.symm.trans hc

end Rule

namespace Tree

variable {tag : Tag} {span : Span} {excerpt : Excerpt} {ts : List (Tree Tag)}

/-- A node is bare for its tag, or as a primary that is no more than what it holds. -/
theorem isBare_node (h : (node tag span excerpt ts).isBare = true) :
    tag.isBare = true ∨ tag = .primary ∧ ∃ inner, ts = [inner] ∧ inner.label ≠ .conditional := by
  unfold isBare at h
  split at h
  · rename_i inner heq
    cases heq
    exact .inr ⟨rfl, inner, rfl, bne_iff_ne.mp h⟩
  · rename_i heq
    cases heq
    exact .inl h

end Tree

namespace Lays

variable {source : List Char} {here stop : Cursor} {p : Pattern} {r : Rule} {ts : List (Tree Rule)}

/-- What is laid out in a source ends in it. -/
theorem stop_in (h : Lays p here stop ts) (hhere : here.In source) : stop.In source := by
  obtain ⟨u, hu⟩ := h.moves
  exact hhere.move hu

/-- A node with a tight tag has a tight span. -/
theorem tight (h : Lays (.rule r) here stop ts) (hhere : here.In source)
    (hr : r.tag.isTight = true) : Span.Tight source ⟨here.offset, stop.offset⟩ := by
  obtain ⟨hends, hempty, -⟩ := Rule.tight_ends hr
  obtain ⟨c, u, hmove, hc⟩ := h.derives.starts_cons hempty
  exact ⟨c :: u, hhere.between hmove, ⟨c, u, rfl, Rule.starts_of_isTight hr hc⟩,
    (h.endsInk hends hmove).resolve_left (List.cons_ne_nil c u)⟩

/-- A node takes all of the text of its derivation. -/
theorem gapped_singleton (h : Derives (.rule r) here stop ts) (hhere : here.In source) :
    Tree.Gapped source here.offset stop.offset (ts.map (Tree.map Rule.tag)) := by
  obtain ⟨t, rfl⟩ := h.eq_singleton
  obtain ⟨u, hu⟩ := h.moves
  rw [List.map_singleton, Tree.Gapped, Tree.Gapped, Tree.span_map, h.span_eq.1]
  exact ⟨hhere.boundary.gap, (hhere.move hu).boundary.gap⟩

/-- Only an expression between parentheses leaves something of a primary beside its part. -/
theorem gapped_of_primary {inner : Tree Tag} (h : Derives Rule.primary.pattern here stop ts)
    (hhere : here.In source) (hts : ts.map (Tree.map Rule.tag) = [inner])
    (hinner : inner.label ≠ .conditional) :
    Tree.Gapped source here.offset stop.offset (ts.map (Tree.map Rule.tag)) := by
  rcases Derives.primary_iff.mp h with ⟨r, -, h⟩ | h
  · exact gapped_singleton h hhere
  · obtain ⟨mid, us, _, hopen, h', rfl⟩ := Derives.spaced_iff.mp (Derives.counted_iff.mp h)
    obtain ⟨mid', vs, ws, hexpr, hclose, rfl⟩ := Derives.spaced_iff.mp h'
    obtain ⟨-, rfl⟩ := Derives.text_iff.mp hopen
    obtain ⟨-, rfl⟩ := Derives.text_iff.mp hclose
    have hexpr := Derives.call_iff.mp hexpr
    obtain ⟨t, rfl⟩ := hexpr.eq_singleton
    obtain rfl : t.map Rule.tag = inner := by simpa using hts
    rw [Tree.label_map, hexpr.span_eq.2] at hinner
    exact (hinner rfl).elim

/-- What is laid out in a source is placed there, one node after the other. -/
theorem placed (h : Lays p here stop ts) (hhere : here.In source) :
    (∀ t ∈ ts.map (Tree.map Rule.tag), t.Placed source) ∧
      Tree.InOrder here.offset stop.offset (ts.map (Tree.map Rule.tag)) ∧
        (p.isBare = true →
          Tree.Gapped source here.offset stop.offset (ts.map (Tree.map Rule.tag))) := by
  have single {here stop : Cursor} {r : Rule} {children : List (Tree Rule)} (hhere : here.In source)
      (h : Lays (.rule r) here stop [r.node here stop children])
      (hplaced : ((r.node here stop children).map Rule.tag).Placed source) :
      (∀ t ∈ [r.node here stop children].map (Tree.map Rule.tag), t.Placed source) ∧
        Tree.InOrder here.offset stop.offset
            ([r.node here stop children].map (Tree.map Rule.tag)) ∧
          ((Pattern.rule r).isBare = true → Tree.Gapped source here.offset stop.offset
            ([r.node here stop children].map (Tree.map Rule.tag))) := by
    have hgapped := gapped_singleton h.derives hhere
    exact ⟨List.forall_mem_singleton.mpr hplaced, hgapped.inOrder, fun _ => hgapped⟩
  induction h with
  | empty | absent | done =>
    exact ⟨fun t ht => (List.not_mem_nil ht).elim, Nat.le_refl _, fun _ => hhere.boundary.gap⟩
  | text _ h =>
    exact ⟨fun t ht => (List.not_mem_nil ht).elim, (hhere.between h).le, nofun⟩
  | @blanks here =>
    have hgap : Gap source here.offset here.skipSpaces.offset :=
      ⟨_, hhere.between here.moves_skipSpaces, List.all_takeWhile⟩
    exact ⟨fun t ht => (List.not_mem_nil ht).elim, hgap.le, fun _ => hgap⟩
  | @token here stop r u hr hr' h hu =>
    have hlays : Lays (.rule r) here stop [r.node here stop []] := .token hr hr' h hu
    refine single hhere hlays ?_
    rw [Tree.map_node]
    exact .node (Rule.tag_ne_root (by rintro rfl; cases hr))
      (h.excerpt_toList.symm ▸ hhere.between h) (hlays.tight hhere) (hhere.between h).le
      (by cases r <;> first | (cases hr; done) | nofun)
      fun t ht => (List.not_mem_nil ht).elim
  | @rule here stop r children hr hr' h settled ih =>
    have hlays : Lays (.rule r) here stop [r.node here stop children] := .rule hr hr' h settled
    obtain ⟨u, hu⟩ := h.moves
    obtain ⟨hparts, horder, hgapped⟩ := ih hhere
    refine single hhere hlays ?_
    rw [Tree.map_node]
    refine .node (Rule.tag_ne_root hr') (hu.excerpt_toList.symm ▸ hhere.between hu)
      (hlays.tight hhere) horder (fun hbare => ?_) hparts
    · rcases Tree.isBare_node hbare with hbare | ⟨htag, inner, hinner, hlabel⟩
      · exact hgapped (Rule.pattern_isBare hbare)
      · obtain rfl : r = .primary := by cases r <;> first | rfl | cases htag
        exact gapped_of_primary h.derives hhere hinner hlabel
  | seq h h' ih ih' =>
    obtain ⟨hparts, horder, hgapped⟩ := ih hhere
    obtain ⟨hparts', horder', hgapped'⟩ := ih' (h.stop_in hhere)
    rw [List.map_append]
    refine ⟨List.forall_mem_append.mpr ⟨hparts, hparts'⟩, horder.append horder', fun hbare => ?_⟩
    obtain ⟨hp, hq⟩ := Bool.and_eq_true_iff.mp hbare
    exact (hgapped hp).append (hgapped' hq)
  | again h h' ih ih' =>
    obtain ⟨hparts, horder, hgapped⟩ := ih hhere
    obtain ⟨hparts', horder', hgapped'⟩ := ih' (h.stop_in hhere)
    rw [List.map_append]
    exact ⟨List.forall_mem_append.mpr ⟨hparts, hparts'⟩, horder.append horder', fun hbare =>
      (hgapped hbare).append (hgapped' hbare)⟩
  | left _ ih =>
    obtain ⟨hparts, horder, hgapped⟩ := ih hhere
    exact ⟨hparts, horder, fun hbare => hgapped (Bool.and_eq_true_iff.mp hbare).1⟩
  | right _ ih =>
    obtain ⟨hparts, horder, hgapped⟩ := ih hhere
    exact ⟨hparts, horder, fun hbare => hgapped (Bool.and_eq_true_iff.mp hbare).2⟩
  | present _ ih | counted _ ih => exact ih hhere

end Lays

/-- The place of a refusal, if it has one, is a stretch of the source, and a literal that is refused
is the text there. -/
def Error.Located (source : List Char) (error : Error) : Prop :=
  ∀ span, error.span? = some span → ∃ text, Between source span.start span.stop text ∧
    ∀ kind literal, error = .invalidLiteral span kind literal → literal = text

namespace Error.Located

variable {source : List Char} {error : Error} {m n : Nat}

/-- What is refused up to some place for another cause than a literal. -/
theorem of_boundary (hm : Boundary source m) (hn : Boundary source n) (hle : m ≤ n)
    (hspan : error.span? = some ⟨m, n⟩)
    (hcause : ∀ span kind literal, error ≠ .invalidLiteral span kind literal) :
    error.Located source := by
  intro span hsome
  obtain rfl := Option.some.inj (hspan.symm.trans hsome)
  obtain ⟨text, htext⟩ := hm.between hn hle
  exact ⟨text, htext, fun kind literal heq => (hcause _ kind literal heq).elim⟩

/-- What is refused from some place on. -/
theorem of_start (hm : Boundary source m) (hspan : error.span? = some ⟨m, byteLength source⟩)
    (hcause : ∀ span kind literal, error ≠ .invalidLiteral span kind literal) :
    error.Located source :=
  of_boundary hm (boundary_byteLength source) hm.le_byteLength hspan hcause

end Error.Located

/-- Levels are exceeded at a place between characters. -/
theorem Nesting.firstExcess?_boundary {bound place depth : Nat} {u rest : List Char} (level : Nat)
    (h : firstExcess? bound level (byteLength u) rest = some (place, depth)) :
    Boundary (u ++ rest) place := by
  induction rest generalizing u level with
  | nil => cases h
  | cons c rest ih =>
    simp only [firstExcess?] at h
    split at h
    · cases h
      exact ⟨u, c :: rest, rfl, rfl⟩
    · rw [List.append_cons]
      refine ih (levelAfter level c) ?_
      rwa [byteLength_append, byteLength_cons, byteLength_nil, Nat.add_zero]

namespace Tree

variable {source : List Char} {limits : Limits} {error : Error}

/-- A mismatch is located where the furthest failure is. -/
theorem mismatch_located {calls : Nat} {trace : Trace} (h : Boundary source trace.furthest) :
    (mismatch calls (byteLength source) trace).Located source := by
  unfold mismatch
  split
  · refine .of_start (m := min trace.furthest (byteLength source)) ?_ rfl nofun
    rwa [Nat.min_eq_left h.le_byteLength]
  · split
    · intro span hspan
      cases hspan
    · exact .of_start h rfl nofun

/-- A source without a parse tree is refused at a place of it. -/
theorem ofSource_located (h : ofSource limits source = .error error) : error.Located source := by
  cases hcheck : Nesting.check limits.parseDepth source with
  | error refusal =>
    rw [ofSource_of_check_eq_error hcheck] at h
    cases h
    unfold Nesting.check at hcheck
    split at hcheck
    · rename_i place depth hexcess
      cases hcheck
      exact .of_start (Nesting.firstExcess?_boundary (u := []) 0 hexcess) rfl nofun
    · cases hcheck
  | ok =>
    rw [ofSource_eq_ofOutcome hcheck] at h
    unfold ofOutcome at h
    split at h
    · cases h
    · cases h
      exact .of_boundary (boundary_zero source) (boundary_zero source) (Nat.le_refl 0) rfl nofun
    · rename_i hrun
      cases h
      exact mismatch_located (Rule.furthest_boundary hrun)
    · cases h
      exact .of_start (boundary_zero source) rfl nofun

/-- A node of a list of trees is a node of one of them. -/
theorem mem_leveledAll {above : Nat} {place : Nat × Tree Tag} {ts : List (Tree Tag)}
    (h : place ∈ leveledAll above ts) : ∃ t ∈ ts, place ∈ leveled above t := by
  induction ts with
  | nil => exact (List.not_mem_nil h).elim
  | cons t ts ih =>
    rw [leveledAll] at h
    rcases List.mem_append.mp h with h | h
    · exact ⟨t, List.mem_cons_self, h⟩
    · obtain ⟨u, hu, h⟩ := ih h
      exact ⟨u, List.mem_cons_of_mem t hu, h⟩

/-- Every node of a tree covers its text if the root does and the trees below it are placed. -/
theorem leveled_between {t : Tree Tag} (h : Between source t.span.start t.span.stop t.text)
    (hparts : ∀ u ∈ t.children, u.Placed source) {above : Nat} {place : Nat × Tree Tag}
    (hplace : place ∈ leveled above t) :
    Between source place.2.span.start place.2.span.stop place.2.text := by
  have below {u : Tree Tag} (hu : u.Placed source) {above : Nat} (hplace : place ∈ leveled above u) :
      Between source place.2.span.start place.2.span.stop place.2.text := by
    induction hu generalizing above with
    | node _ covers _ _ _ _ ih =>
      rcases List.mem_cons.mp hplace with rfl | hplace
      · exact covers
      · obtain ⟨v, hv, hplace⟩ := mem_leveledAll hplace
        exact ih v hv hplace
  obtain ⟨tag, span, excerpt, children⟩ := t
  rcases List.mem_cons.mp hplace with rfl | hplace
  · exact h
  · obtain ⟨u, hu, hplace⟩ := mem_leveledAll hplace
    exact below (hparts u hu) hplace

/-- A fault is located at the node or at the root. -/
theorem fault?_located {budget level : Nat} {root : Span} {rootText : List Char} {t : Tree Tag}
    (hroot : Between source root.start root.stop rootText)
    (ht : Between source t.span.start t.span.stop t.text)
    (h : fault? budget root level t = some error) : error.Located source := by
  unfold fault? at h
  intro span hspan
  split at h
  · cases h
    cases hspan
    exact ⟨_, ht, nofun⟩
  · split at h <;> cases h
    cases hspan
    exact ⟨_, ht, fun kind literal heq => by cases heq; rfl⟩
  · split at h <;> cases h
    cases hspan
    exact ⟨_, ht, fun kind literal heq => by cases heq; rfl⟩
  · split at h <;> cases h
    cases hspan
    split
    · exact ⟨_, hroot, nofun⟩
    · exact ⟨_, ht, nofun⟩
  · cases h

end Tree

/-- A span over a text without the blanks around it. -/
def Span.Strips (source : List Char) (span : Span) : Prop :=
  ∃ b u b', source = b ++ (u ++ b') ∧ b.all isSpace = true ∧ b'.all isSpace = true ∧
    BeginsInk u ∧ EndsInk u ∧ span = ⟨byteLength b, byteLength b + byteLength u⟩

/-- A tight span between two gaps strips the source of its blanks. -/
theorem Span.Tight.strips {source : List Char} {span : Span} (h : span.Tight source)
    (hstart : Gap source 0 span.start) (hstop : Gap source span.stop (byteLength source)) :
    span.Strips source := by
  obtain ⟨b, hb, hblank⟩ := hstart
  obtain ⟨b', hb', hblank'⟩ := hstop
  obtain ⟨u, hu, hbegins, hends⟩ := h
  have hsource := ((hb.trans hu).trans hb').eq_source
  obtain ⟨_, _, -, hzero, hfirst⟩ := hb
  obtain ⟨_, _, -, hsecond, hlast⟩ := hu
  refine ⟨b, u, b', by rw [hsource, List.append_assoc], hblank, hblank', hbegins, hends, ?_⟩
  rw [show byteLength b = span.start by omega, show span.start + byteLength u = span.stop by omega]

/-- The root of a parse tree holds an expression between blanks and the end of the source. -/
theorem Tree.exists_root {limits : Limits} {source : List Char} {tree : Tree Tag}
    (h : parseTree limits source = .ok tree) :
    ∃ (mid : Cursor) (t : Tree Rule),
      Derives (.rule .expr) (Cursor.start source).skipSpaces mid [t] ∧ mid.skipSpaces.rest = [] ∧
        tree = (Rule.expression.node (.start source) mid.skipSpaces
          [t, Rule.endOfInput.node mid.skipSpaces mid.skipSpaces []]).map Rule.tag := by
  unfold parseTree at h
  cases hroot : ofSource limits source with
  | error error =>
    rw [hroot] at h
    cases h
  | ok root =>
    rw [hroot] at h
    cases h
    obtain ⟨stop, hparses⟩ := parses_of_ofSource hroot
    obtain ⟨mid, t, hexpr, rfl, hend, hnodes⟩ := Derives.expression_iff.mp hparses.derives
    exact ⟨mid, t, hexpr, hend, congrArg _ (List.singleton_inj.mp hnodes)⟩

namespace Derives

variable {source : List Char} {mid : Cursor} {t : Tree Rule}
  (h : Derives (.rule .expr) (Cursor.start source).skipSpaces mid [t])

include h

/-- The expression of a source is placed in it. -/
theorem expr_placed : mid.In source ∧ (t.map Rule.tag).Placed source := by
  have hlays := h.lays (.rule ⟨nofun, nofun⟩)
  have hfirst := (Cursor.In.start source).move (Cursor.moves_skipSpaces _)
  exact ⟨hlays.stop_in hfirst, (hlays.placed hfirst).1 _ (List.mem_singleton_self _)⟩

/-- Only blanks stand around the expression of a source. -/
theorem expr_gaps (hend : mid.skipSpaces.rest = []) :
    Gap source 0 (t.map Rule.tag).span.start ∧
      Gap source (t.map Rule.tag).span.stop (byteLength source) := by
  obtain ⟨hmid, -⟩ := h.expr_placed
  have hstart := Cursor.In.start source
  rw [Tree.span_map, h.span_eq.1]
  constructor
  · exact ⟨_, hstart.between (Cursor.moves_skipSpaces _), List.all_takeWhile⟩
  · rw [← (hmid.move (Cursor.moves_skipSpaces _)).offset_eq hend]
    exact ⟨_, hmid.between (Cursor.moves_skipSpaces _), List.all_takeWhile⟩

/-- The root covers the source, and the nodes below it are placed. -/
theorem root_placed {tree : Tree Tag} (htree : tree = (Rule.expression.node (.start source)
    mid.skipSpaces [t, Rule.endOfInput.node mid.skipSpaces mid.skipSpaces []]).map Rule.tag) :
    Between source tree.span.start tree.span.stop tree.text ∧
      ∀ u ∈ tree.children, u.Placed source := by
  obtain ⟨hmid, hplaced⟩ := h.expr_placed
  have hlast := hmid.move (Cursor.moves_skipSpaces mid)
  have ⟨u, hu⟩ := hlast
  subst htree
  constructor
  · rw [Tree.text_map, hu.node_text, Tree.span_map]
    exact (Cursor.In.start source).between hu
  · rw [Tree.map_node]
    refine List.forall_mem_cons.mpr ⟨hplaced, List.forall_mem_singleton.mpr ?_⟩
    rw [Tree.map_node]
    exact .node nofun
      ((Cursor.Moves.refl mid.skipSpaces).excerpt_toList.symm ▸ hlast.between (.refl _))
      nofun (Nat.le_refl _) nofun fun u hu => (List.not_mem_nil hu).elim

end Derives

/-- A refusal that is reported is one of those that are called for. -/
theorem Reports.mem_of_error {α : Type} {q : α → Prop} {error : Error} {errors : List Error}
    (h : Reports q (.error error) errors) : error ∈ errors := by
  cases errors with
  | nil =>
    obtain ⟨_, heq, -⟩ := h
    cases heq
  | cons first more =>
    cases h
    exact List.mem_cons_self

/-- A tree is refused at a place in its source. -/
theorem Tree.toExpr_located {limits : Limits} {source : List Char} {tree : Tree Tag}
    (h : parseTree limits source = .ok tree) {budget : Nat} {error : Error}
    (herror : tree.toExpr budget = .error error) : error.Located source := by
  obtain ⟨mid, t, hexpr, -, htree⟩ := exists_root h
  obtain ⟨hcovers, hparts⟩ := hexpr.root_placed htree
  obtain ⟨root, rfl, hformed, hlabel⟩ := exists_formed_of_parseTree h
  have hreports := toExpr_reports budget hformed hlabel
  rw [herror] at hreports
  obtain ⟨place, hplace, hfault⟩ := List.mem_filterMap.mp hreports.mem_of_error
  exact fault?_located hcovers (leveled_between hcovers hparts hplace) hfault

/-- Whatever a source is read as lies in it, with no more than blanks beside it. -/
theorem Tree.toExpr_fits {limits : Limits} {source : List Char} {tree : Tree Tag}
    (h : parseTree limits source = .ok tree) (budget : Nat) :
    Yields (Fits source 0 (byteLength source)) (tree.toExpr budget) := by
  obtain ⟨mid, t, hexpr, hend, rfl⟩ := exists_root h
  obtain ⟨hstart, hstop⟩ := hexpr.expr_gaps hend
  refine .charge fun budget => ?_
  rw [map_node, List.map_cons, List.map_singleton, show Rule.expression.tag = .root from rfl,
    exprWithin_root (by rw [label_map, hexpr.span_eq.2]; decide) (by rw [label_map]; rfl)]
  exact (hexpr.expr_placed.2.fits budget).mono fun e he => he.widen hstart hstop

/-- An expression that is read is over the source without the blanks around it. Each node of it is
over a text of the source without blanks at its ends, and around its parts. A refusal at a place is
at a stretch of the source, and the text of a literal that is refused is what stands there. -/
theorem parseWithin_spans (limits : Limits) (source : List Char) :
    (∀ e, parseWithin limits source = .ok e →
      e.mark.Strips source ∧ e.Every (Expr.Spanned source)) ∧
        ∀ error, parseWithin limits source = .error error → error.Located source := by
  unfold parseWithin
  cases htree : parseTree limits source with
  | error error =>
    refine ⟨nofun, fun error' h => ?_⟩
    cases h
    unfold parseTree at htree
    cases hroot : Tree.ofSource limits source with
    | error refusal =>
      rw [hroot] at htree
      cases htree
      exact Tree.ofSource_located hroot
    | ok root =>
      rw [hroot] at htree
      cases htree
  | ok tree =>
    refine ⟨fun e he => ?_, fun error herror => Tree.toExpr_located htree herror⟩
    have hfits := Tree.toExpr_fits htree limits.exprDepth
    rw [show tree.toExpr limits.exprDepth = .ok e from he] at hfits
    exact ⟨hfits.tight.strips hfits.start hfits.stop, hfits.every⟩

/-- A field whose key goes on behind a dash, between blanks. -/
theorem parseWithin_spans_dash : ∃ e, parseWithin Limits.default " d.b-c ".toList = .ok e ∧
    e.mark = ⟨1, 6⟩ ∧ e.Every (Expr.Spanned " d.b-c ".toList) := by
  have hmark : (parseWithin Limits.default " d.b-c ".toList).map Expr.mark = .ok ⟨1, 6⟩ := by
    decide +kernel
  obtain ⟨e, he, hmark⟩ := exists_of_map_eq_ok hmark
  exact ⟨e, he, hmark, ((parseWithin_spans _ _).1 e he).2⟩

end Vimscript
