import Vimscript.Proofs.Expr.Called

/-!
# Keys behind points

A tight point names a field or calls one, and the key is taken from what stands behind it. The key
of a field is the text right behind the point, up to the end of the operand. A call of a field is
made of whatever comes out as a call by name, and its key is the text in front of the parenthesis
that opens the arguments. Only where the operand is such a call by itself, with no scope in front
of the name, no receiver and no parentheses around it, does that text begin right behind the point.
What stands between the two otherwise is lost, or becomes an argument.
-/

namespace Vimscript

open Pattern Text

namespace Text

variable {source u v w g : List Char} {c : Char} {m n k : Nat}

/-- A text that begins in no blank goes on behind what trimming leaves of it with blanks only. -/
theorem exists_blanks_of_trim (hc : isBlank c = false) :
    ∃ w, c :: u = trim (c :: u) ++ w ∧ w.all isBlank = true := by
  refine ⟨((c :: u).reverse.takeWhile isBlank).reverse, ?_, ?_⟩
  · rw [trim, List.dropWhile_cons_of_neg (by rw [hc]; exact Bool.false_ne_true), trimEnd,
      ← List.reverse_append, List.takeWhile_append_dropWhile, List.reverse_reverse]
  · rw [List.all_reverse]
    exact List.all_takeWhile

/-- What ends in no blank is told from the blanks behind it. -/
theorem EndsInk.eq_of_append (hu : EndsInk u) (hv : EndsInk v) (hw : w.all isSpace = true)
    (hg : g.all isSpace = true) (h : u ++ w = v ++ g) : u = v := by
  have none {x y : List Char} (hxy : EndsInk (x ++ y)) (hy : y.all isSpace = true) : y = [] := by
    refine (ink_of_append (.inr hxy)).resolve_right ?_
    rintro ⟨z, c, rfl, hc⟩
    cases hc.symm.trans (List.all_eq_true.mp hy c (by simp))
  rcases List.append_eq_append_iff.mp h with ⟨a, rfl, rfl⟩ | ⟨a, rfl, rfl⟩
  · rw [none hv (Bool.and_eq_true_iff.mp (List.all_append.symm.trans hw)).1, List.append_nil]
  · rw [none hu (Bool.and_eq_true_iff.mp (List.all_append.symm.trans hg)).1, List.append_nil]

/-- No blanks stand where a text begins that begins in none. -/
theorem Between.eq_of_gap (h : Between source m n (c :: u)) (hc : isBlank c = false)
    (hgap : Gap source m k) : k = m := by
  obtain ⟨gap, hbetween, hspaces⟩ := hgap
  cases gap with
  | nil => exact hbetween.eq_of_nil.symm
  | cons d gap =>
    obtain ⟨b, hb, hspace⟩ := h.byteAt?
    obtain ⟨b', hb', hspace'⟩ := hbetween.byteAt?
    obtain rfl := Option.some.inj (hb.symm.trans hb')
    have hd : isSpace d = true := List.all_eq_true.mp hspaces d List.mem_cons_self
    rw [isSpace_of_isBlank_eq_false hc, hspace', hd] at hspace
    cases hspace

end Text

/-- If what is left of a text by trimming can be a key, it is what an expression over the text stands
over. -/
theorem Fits.between_of_trim {source u : List Char} {c : Char} {m n : Nat} {e : Expr Span}
    (h : Fits source m n e) (hcovers : Between source m n (c :: u)) (hc : isBlank c = false)
    (hplain : PlainEnds (c :: u)) (hkey : isLiteralKey (trim (c :: u)) = true) :
    e.mark.start = m ∧ Between source e.mark.start e.mark.stop (trim (c :: u)) := by
  have hstart := hcovers.eq_of_gap hc h.start
  obtain ⟨w, hsplit, hblanks⟩ := exists_blanks_of_trim (u := u) hc
  obtain ⟨v, hv, -, hends⟩ := h.tight
  obtain ⟨gap, hgap, hspaces⟩ := h.stop
  have hwhole : trim (c :: u) ++ w = v ++ gap :=
    hsplit.symm.trans (hcovers.text_unique (hstart ▸ hv.trans hgap))
  obtain ⟨hne, hall⟩ := Bool.and_eq_true_iff.mp hkey
  have hink : EndsInk (trim (c :: u)) :=
    (endsOpen_of_all (by simpa using hne) (all_of_all hall fun _ => isTokenChar_of_isKeyChar)).endsInk
  -- Both end in no blank, and what is cut off behind either is spaces and tabs.
  rw [hink.eq_of_append hends (hplain.2 _ w hsplit hblanks) hspaces hwhole]
  exact ⟨hstart, hv⟩

/-- Fields of one base are told by their keys. -/
theorem Expr.field_inj {base : Expr Span} {key key' : List Char} {span span' : Span}
    (h : base.field key span = base.field key' span') : key = key' ∧ span = span' := by
  obtain ⟨-, -, h⟩ := Expr.index.inj h
  obtain ⟨hspan, hkey⟩ := Expr.literal.inj h
  exact ⟨Literal.string.inj hkey, hspan⟩

namespace Tree

/-- What comes out of two steps comes out of both. -/
theorem bind_eq_ok {α β : Type} {x : Except Error α} {f : α → Except Error β} {b : β}
    (h : x >>= f = .ok b) : ∃ a, x = .ok a ∧ f a = .ok b := by
  cases x with
  | error error => cases h
  | ok a => exact ⟨a, rfl, h⟩

/-- One operator more in a run that is read. -/
theorem additiveWithin_snoc {budget : Nat} {span : Span} {text : List Char}
    {last op operand : Tree Tag} {base result : Expr Span} {front : List (Tree Tag)}
    (h : additiveWithin budget span text (front ++ [last]) = .ok base)
    (h' : additiveWithin budget span text (front ++ [last, op, operand]) = .ok result) :
    op.label = .operator ∧ ∃ right, operand.exprWithin budget = .ok right ∧
      applyAdditive (!blankAmong span.start text [last, op, operand]) op base right
        (Text.trim operand.text) = .ok result := by
  rw [additiveWithin_eq] at h h'
  obtain ⟨_, hlast, hrun⟩ := runWithin_append h fun _ _ _ _ _ _ _ => rfl
  obtain rfl := Option.some.inj (List.getLast?_concat.symm.trans hlast)
  rw [show front ++ [last, op, operand] = front ++ [last] ++ [op, operand] by simp, hrun] at h'
  obtain ⟨_, hop, h'⟩ := bind_eq_ok h'
  obtain ⟨right, hright, hjoined⟩ := bind_eq_ok h'
  have hlabel := Yields.expect .operator op
  rw [hop] at hlabel
  exact ⟨hlabel, right, hright, hjoined⟩

/-- A field or a call of a field is made by a tight point only. -/
theorem applyAdditive_of_point {tight : Bool} {op : Tree Tag} {left right result : Expr Span}
    {text : List Char} (hop : op.text = ['.'])
    (h : applyAdditive tight op left right text = .ok result) :
    tight = true ∧ result = left.dot right text ∨ result = .join .concat left right := by
  unfold applyAdditive at h
  dsimp only at h
  split at h
  · rename_i htight
    exact .inl ⟨htight.1, (Except.ok.inj h).symm⟩
  · rw [if_neg (by rw [hop]; exact fun h => by cases h.2.1)] at h
    have hplain : binaryOp op = .ok .concat ∨ ∃ error, binaryOp op = .error error := by
      unfold binaryOp
      cases expect .operator op with
      | error error => exact .inr ⟨error, rfl⟩
      | ok => rw [hop]; exact .inl rfl
    rcases hplain with hplain | ⟨error, hplain⟩ <;> rw [hplain] at h <;> cases h
    exact .inr rfl

/-- Behind a tight operator its operand begins, and not in a blank. -/
theorem Laid.begins_of_tight {source : List Char} {t last op operand : Tree Tag}
    {front back : List (Tree Tag)} (h : t.Laid source) (ht : t.label = .additive)
    (hchildren : t.children = front ++ last :: op :: operand :: back) (hop : op.label = .operator)
    (htight : blankAmong t.span.start t.text [last, op, operand] = false) :
    operand.Laid source ∧ op.span.stop = operand.span.start ∧ PlainEnds operand.text ∧
      ∃ c u, operand.text = c :: u ∧ isBlank c = false := by
  obtain ⟨t, rfl, hlaid⟩ := h
  rw [label_map] at ht
  rw [children_map, List.append_cons] at hchildren
  obtain ⟨_, _, hsplit, hfront, hmore⟩ := List.map_eq_append_iff.mp hchildren
  obtain ⟨op, _, rfl, rfl, hback⟩ := List.map_eq_cons_iff.mp hmore
  rw [label_map] at hop
  obtain ⟨_, left, right, _, rfl, rfl, ⟨-, -, hright⟩, ⟨-, -, hr⟩, -, -, hblank⟩ :=
    hlaid.exists_operands (Rule.eq_of_tag ht (by decide)) hsplit
      fun hmul => by rw [hmul] at hop; cases hop
  rw [List.map_append, List.map_singleton] at hfront
  obtain ⟨-, rfl⟩ := List.append_singleton_inj.mp hfront
  obtain ⟨rfl, -⟩ := List.cons.inj hback
  have hmap := blankAmong_map t.span.start t.text [left, op, right]
  rw [List.map_cons, List.map_cons, List.map_singleton, hblank] at hmap
  rw [span_map, text_map, hmap] at htight
  have hapart := (Bool.or_eq_false_iff.mp htight).2
  rw [apart] at hapart
  obtain ⟨hends, hgap⟩ := Bool.or_eq_false_iff.mp hapart
  obtain ⟨c, u, hu⟩ := List.exists_cons_of_ne_nil (hright.text_ne_nil (by rw [hr]; rfl))
  refine ⟨⟨right, rfl, hright⟩, ?_, ?_, c, u, ?_, ?_⟩
  · rw [span_map, span_map]
    exact bne_eq_false_iff_eq.mp hgap
  · rw [text_map]
    exact hright.plainEnds
  · rw [text_map, hu]
  · have hbegins := (Bool.or_eq_false_iff.mp hends).2
    rw [hu] at hbegins
    exact hbegins

/-- What a point makes of the expressions beside it in a run that was derived where it stands. The key
of a field is the text right behind the point, up to the end of the operand. The key of a field that
is called is the name in front of the parenthesis at which the arguments of some call in the operand
open, and it is the text right behind the point exactly if the name stands first in the operand. -/
theorem parseTree_keyBehindPoint {limits : Limits} {source : List Char}
    {tree node last op operand : Tree Tag} {front back : List (Tree Tag)} {budget : Nat}
    {base result : Expr Span} (h : parseTree limits source = .ok tree) (hnode : node ∈ tree.nodes)
    (hadditive : node.label = .additive)
    (hchildren : node.children = front ++ last :: op :: operand :: back) (hpoint : op.text = ['.'])
    (hbase : additiveWithin budget node.span node.text (front ++ [last]) = .ok base)
    (hresult : additiveWithin budget node.span node.text (front ++ [last, op, operand]) = .ok result) :
    (∀ key span, result = base.field key span → span.start = op.span.stop ∧
      Between source span.start span.stop key ∧ Gap source span.stop operand.span.stop) ∧
        ∀ mark key span args, result = .funcrefCall mark (base.field key span) args →
          ∃ first name slots, operand.Calls first name slots ∧ slots.text.head? = some '(' ∧
            Between source name.span.start slots.span.start key ∧
              (Between source op.span.stop slots.span.start key ↔ first = true) := by
  obtain ⟨t, rfl, hlaid⟩ :=
    exists_laidIn h hnode (by rw [hadditive]; nofun) (by rw [hadditive]; nofun)
  obtain ⟨hop, right, hright, hjoined⟩ := additiveWithin_snoc hbase hresult
  rcases applyAdditive_of_point hpoint hjoined with ⟨htight, rfl⟩ | rfl
  · obtain ⟨hlaid, hstart, hplain, c, u, hu, hc⟩ := Laid.begins_of_tight ⟨t, rfl, hlaid⟩ hadditive
      hchildren hop (by simpa using htight)
    have hcovers := hlaid.between
    have hfits := hlaid.placed.fits budget
    have hnames := hlaid.placed.names budget
    rw [hright] at hfits hnames
    rw [hu] at hcovers hplain
    rw [hu]
    unfold Expr.dot
    split
    · rename_i mark scope name args
      refine ⟨fun _ _ => nofun, fun mark' key span args' heq => ?_⟩
      obtain ⟨rfl, rfl⟩ := Expr.field_inj (Expr.funcrefCall.inj heq).2.1
      obtain ⟨first, token, slots, hcalls, rfl⟩ := hnames name rfl
      obtain ⟨hname, hopen, -, hfirst, hbehind⟩ := hcalls.stands hlaid
      -- One text of one length ends at the parenthesis, so the key is there if it begins there.
      refine ⟨first, token, slots, hcalls, hopen, hname, fun hkey => ?_, fun h => ?_⟩
      · have hsame := hkey.start_unique hname
        cases first with
        | true => rfl
        | false =>
          have := hbehind rfl
          omega
      · rw [hstart, ← hcovers.eq_of_gap hc (hfirst h)]
        exact hname
    · split
      · rename_i hkey
        refine ⟨fun key span heq => ?_, fun _ _ _ _ => nofun⟩
        obtain ⟨rfl, rfl⟩ := Expr.field_inj heq
        obtain ⟨hmark, hbetween⟩ := hfits.between_of_trim hcovers hc hplain hkey
        exact ⟨hmark.trans hstart.symm, hbetween, hfits.stop⟩
      · exact ⟨fun _ _ => nofun, fun _ _ _ _ => nofun⟩
  · exact ⟨fun _ _ => nofun, fun _ _ _ _ => nofun⟩

/-- A point in a source that calls a field of a variable. -/
theorem exists_point (source name : List Char) (place : Nat)
    (h : (parseTree Limits.default source).map (fun tree => tree.nodes.any fun node =>
      node.label == .additive && match node.children with
        | [last, op, operand] => op.text == ['.'] && op.span.stop == place &&
          match additiveWithin 95 node.span node.text [last],
            additiveWithin 95 node.span node.text [last, op, operand] with
          | .ok (.var m s n), .ok (.funcrefCall _ (.index w (.var m' s' n')
              (.literal span (.string key))) _) =>
            m == m' && s == s' && n == n' && w == m.merge span && key == name
          | _, _ => false
        | _ => false) = .ok true) :
    ∃ tree node last op operand base mark span args, parseTree Limits.default source = .ok tree ∧
      node ∈ tree.nodes ∧ node.label = .additive ∧ node.children = [last, op, operand] ∧
        op.text = ['.'] ∧ op.span.stop = place ∧
          additiveWithin 95 node.span node.text [last] = .ok base ∧
            additiveWithin 95 node.span node.text [last, op, operand] =
              .ok (.funcrefCall mark (base.field name span) args) := by
  cases htree : parseTree Limits.default source with
  | error error =>
    rw [htree] at h
    cases h
  | ok tree =>
    rw [htree] at h
    obtain ⟨node, hnode, hshape⟩ := List.any_eq_true.mp (Except.ok.inj h)
    obtain ⟨hadditive, hshape⟩ := Bool.and_eq_true_iff.mp hshape
    split at hshape
    · rename_i last op operand hchildren
      obtain ⟨hop, hshape⟩ := Bool.and_eq_true_iff.mp hshape
      split at hshape
      · rename_i m s n mark w m' s' n' span key args hbase hresult
        simp only [Bool.and_eq_true, beq_iff_eq] at hadditive hop hshape
        obtain ⟨⟨⟨⟨rfl, rfl⟩, rfl⟩, rfl⟩, rfl⟩ := hshape
        exact ⟨tree, node, last, op, operand, _, mark, span, args, rfl, hnode, hadditive, hchildren,
          hop.1, hop.2, hbase, hresult⟩
      · cases hshape
    · cases hshape

/-- In `d.f(1)` the key of the field that is called is the text between the point and the
parenthesis. -/
theorem parseTree_keyBehindPoint_call : ∃ tree node last op operand base mark span args,
    parseTree Limits.default "d.f(1)".toList = .ok tree ∧ node ∈ tree.nodes ∧
      node.children = [last, op, operand] ∧ op.span.stop = 2 ∧
        additiveWithin 95 node.span node.text [last] = .ok base ∧
        additiveWithin 95 node.span node.text [last, op, operand] =
          .ok (.funcrefCall mark (base.field ['f'] span) args) ∧
        ∃ first name slots, operand.Calls first name slots ∧ slots.text.head? = some '(' ∧
          Between "d.f(1)".toList name.span.start slots.span.start ['f'] ∧
            (Between "d.f(1)".toList op.span.stop slots.span.start ['f'] ↔ first = true) := by
  obtain ⟨tree, node, last, op, operand, base, mark, span, args, htree, hnode, hadditive, hchildren,
    hop, hplace, hbase, hresult⟩ := exists_point "d.f(1)".toList ['f'] 2
      (by decide +kernel)
  exact ⟨tree, node, last, op, operand, base, mark, span, args, htree, hnode, hchildren, hplace,
    hbase, hresult, (parseTree_keyBehindPoint htree hnode hadditive
      (show node.children = [] ++ last :: op :: operand :: [] from hchildren) hop hbase
      hresult).2 mark ['f'] span args rfl⟩

/-- In `d.(f(1))` a field is called whose key does not stand behind the point. -/
theorem not_keyBehindPoint_enclosed : ∃ tree node last op operand base mark span args,
    parseTree Limits.default "d.(f(1))".toList = .ok tree ∧ node ∈ tree.nodes ∧
      node.children = [last, op, operand] ∧ op.text = ['.'] ∧
        additiveWithin 95 node.span node.text [last] = .ok base ∧
        additiveWithin 95 node.span node.text [last, op, operand] =
          .ok (.funcrefCall mark (base.field ['f'] span) args) ∧
        ∀ stop, ¬ Between "d.(f(1))".toList op.span.stop stop ['f'] := by
  obtain ⟨tree, node, last, op, operand, base, mark, span, args, htree, hnode, -, hchildren, hop,
    hplace, hbase, hresult⟩ := exists_point "d.(f(1))".toList ['f'] 2
      (by decide +kernel)
  refine ⟨tree, node, last, op, operand, base, mark, span, args, htree, hnode, hchildren, hop, hbase,
    hresult, fun stop hkey => ?_⟩
  rw [hplace] at hkey
  have hparen : Between "d.(f(1))".toList 2 3 ['('] := ⟨"d.".toList, "f(1))".toList, rfl, rfl, rfl⟩
  obtain rfl : stop = 3 := by
    obtain ⟨x, y, -, hstart, hstop⟩ := hkey
    rw [← hstart] at hstop
    exact hstop
  cases hkey.text_unique hparen

end Tree

end Vimscript
