import Vimscript.Proofs.Expr.Fields
import Vimscript.Proofs.Spans

/-!
# Tight operators

Blanks around an operator are looked for in the gaps beside it and at the edges of the texts of its
neighbours, by the Unicode class of blanks. What is found depends on two bytes of the source alone:
an additive operator is tight exactly if the byte in front of it and the byte behind it are neither
spaces nor tabs. Three facts carry this. Every node of a parse tree was derived where it stands, no
text that the grammar takes begins or ends in a blank other than a space or a tab, and between the
nodes of a run there are spaces and tabs only.
-/

namespace Vimscript

open Pattern Text

namespace Text

variable {source u : List Char} {c : Char} {b : UInt8} {k l m n : Nat}

/-- The bytes of a text in UTF-8. -/
def utf8 (text : List Char) : List UInt8 := text.flatMap String.utf8EncodeChar

/-- Whether a byte is a space or a tab. -/
def isSpaceByte (b : UInt8) : Bool := b == 0x20 || b == 0x09

/-- The byte of a text at an offset. -/
def byteAt? (text : List Char) (offset : Nat) : Option UInt8 := (utf8 text)[offset]?

/-- The byte of a text in front of an offset. -/
def byteBefore? (text : List Char) : Nat → Option UInt8
  | 0 => none
  | offset + 1 => byteAt? text offset

/-- The octets of a string are those that it is stored in. -/
theorem utf8_toList (s : String) : (utf8 s.toList).toByteArray = s.toByteArray := by
  conv => rhs; rw [← String.ofList_toList (s := s)]
  exact String.toByteArray_ofList.symm

/-- Octets of texts follow one another. -/
theorem utf8_append (x y : List Char) : utf8 (x ++ y) = utf8 x ++ utf8 y := List.flatMap_append

/-- The octets of a text begin with those of its first character. -/
theorem utf8_cons (c : Char) (y : List Char) : utf8 (c :: y) = String.utf8EncodeChar c ++ utf8 y :=
  List.flatMap_cons

/-- There are as many octets as the text has bytes. -/
theorem length_utf8 (text : List Char) : (utf8 text).length = byteLength text := by
  induction text with
  | nil => rfl
  | cons c rest ih =>
    rw [byteLength_cons, ← ih, ← String.length_utf8EncodeChar, ← List.length_append, utf8_cons]

/-- A character of more than one byte has no byte that is a space or a tab. -/
theorem isSpaceByte_of_mem (h : b ∈ String.utf8EncodeChar c) : isSpaceByte b = isSpace c := by
  have hspace : isSpace c = (c.val.toNat == 32 || c.val.toNat == 9) := by
    rw [isSpace, Bool.eq_iff_iff]
    simp only [Bool.or_eq_true, beq_iff_eq, Char.ext_iff, UInt32.ext_iff]
    rfl
  have hbyte : isSpaceByte b = (b.toNat == 32 || b.toNat == 9) := by
    rw [isSpaceByte, Bool.eq_iff_iff]
    simp only [Bool.or_eq_true, beq_iff_eq, UInt8.ext_iff]
    rfl
  rw [hspace, hbyte, Bool.eq_iff_iff]
  simp only [String.utf8EncodeChar] at h
  simp only [Bool.or_eq_true, beq_iff_eq]
  split at h
  · obtain rfl := List.mem_singleton.mp h
    rw [UInt8.toNat_ofNat']
    omega
  · have hlarge : 128 ≤ b.toNat := by
      split at h
      on_goal 2 => split at h
      all_goals
        simp only [List.mem_cons, List.not_mem_nil, or_false] at h
        rcases h with rfl | rfl | rfl | rfl <;> rw [UInt8.toNat_ofNat'] <;> omega
    omega

/-- The byte at which a character begins. -/
theorem Between.byteAt? (h : Between source m n (c :: u)) :
    ∃ b, byteAt? source m = some b ∧ isSpaceByte b = isSpace c := by
  obtain ⟨x, y, rfl, rfl, -⟩ := h
  obtain ⟨b, bs, hbs⟩ := List.exists_cons_of_ne_nil (String.utf8EncodeChar_ne_nil (c := c))
  refine ⟨b, ?_, isSpaceByte_of_mem (hbs ▸ List.mem_cons_self)⟩
  rw [Text.byteAt?, utf8_append, ← length_utf8, List.getElem?_append_right (Nat.le_refl _),
    Nat.sub_self, List.cons_append, utf8_cons, hbs]
  rfl

/-- The byte in front of which a character ends. -/
theorem Between.byteBefore? (h : Between source m n (u ++ [c])) :
    ∃ b, byteBefore? source n = some b ∧ isSpaceByte b = isSpace c := by
  obtain ⟨x, y, rfl, rfl, rfl⟩ := h
  obtain ⟨bs, b, hbs⟩ : ∃ bs b, String.utf8EncodeChar c = bs ++ [b] :=
    ⟨_, _, (List.dropLast_concat_getLast String.utf8EncodeChar_ne_nil).symm⟩
  have hsource : utf8 (x ++ (u ++ [c] ++ y)) = utf8 (x ++ u) ++ bs ++ b :: utf8 y := by
    simp only [utf8_append, utf8_cons, hbs, List.append_assoc, List.singleton_append]
  have hstop : byteLength x + byteLength (u ++ [c]) = (utf8 (x ++ u) ++ bs).length + 1 := by
    have hsize : (bs ++ [b]).length = byteLength [c] := by
      rw [← hbs, String.length_utf8EncodeChar]
      rfl
    rw [List.length_append, List.length_singleton] at hsize
    rw [List.length_append, length_utf8, byteLength_append, byteLength_append]
    omega
  refine ⟨b, ?_, isSpaceByte_of_mem (hbs ▸ List.mem_append_right bs (List.mem_singleton_self b))⟩
  rw [hstop, Text.byteBefore?, Text.byteAt?, hsource, List.getElem?_append_right (Nat.le_refl _),
    Nat.sub_self]
  rfl

/-- No text stands between equal offsets only. -/
theorem Between.eq_of_nil (h : Between source m n []) : m = n := by
  obtain ⟨x, y, -, rfl, rfl⟩ := h
  rfl

/-- Some text stands between different offsets. -/
theorem Between.ne_of_ne_nil (h : Between source m n u) (hu : u ≠ []) : m ≠ n := by
  obtain ⟨x, y, -, rfl, rfl⟩ := h
  have : byteLength u ≠ 0 := fun h => hu (byteLength_eq_zero_iff.mp h)
  omega

/-- The byte in front of what stands behind a text and perhaps blanks. -/
theorem Between.byteBefore?_gap (h : Between source k l (u ++ [c])) (hgap : Gap source l m) :
    ∃ b, Text.byteBefore? source m = some b ∧ (isSpace c || l != m) = isSpaceByte b := by
  obtain ⟨gap, hbetween, hspaces⟩ := hgap
  rcases List.eq_nil_or_concat gap with rfl | ⟨gap, d, hd⟩
  · obtain rfl := hbetween.eq_of_nil
    obtain ⟨b, hb, hspace⟩ := h.byteBefore?
    exact ⟨b, hb, by rw [hspace, bne_self_eq_false, Bool.or_false]⟩
  · rw [List.concat_eq_append] at hd
    subst hd
    obtain ⟨b, hb, hspace⟩ := hbetween.byteBefore?
    have hd : isSpace d = true := List.all_eq_true.mp hspaces d (by simp)
    exact ⟨b, hb, by rw [hspace, hd, bne_iff_ne.mpr (hbetween.ne_of_ne_nil (by simp)), Bool.or_true]⟩

/-- The byte behind what stands in front of a text and perhaps blanks. -/
theorem Between.byteAt?_gap (h : Between source m n (c :: u)) (hgap : Gap source l m) :
    ∃ b, Text.byteAt? source l = some b ∧ (isSpace c || l != m) = isSpaceByte b := by
  obtain ⟨gap, hbetween, hspaces⟩ := hgap
  cases gap with
  | nil =>
    obtain rfl := hbetween.eq_of_nil
    obtain ⟨b, hb, hspace⟩ := h.byteAt?
    exact ⟨b, hb, by rw [hspace, bne_self_eq_false, Bool.or_false]⟩
  | cons d gap =>
    obtain ⟨b, hb, hspace⟩ := hbetween.byteAt?
    have hd : isSpace d = true := List.all_eq_true.mp hspaces d List.mem_cons_self
    exact ⟨b, hb, by rw [hspace, hd, bne_iff_ne.mpr (hbetween.ne_of_ne_nil (by simp)), Bool.or_true]⟩

end Text

namespace Text

variable {u v : List Char} {c : Char}

/-- A text that does not begin in a blank other than a space or a tab, and that has no other blanks
at its end. -/
def PlainEnds (u : List Char) : Prop :=
  (∀ c, u.head? = some c → isBlank c = isSpace c) ∧
    ∀ v w, u = v ++ w → w.all isBlank = true → w.all isSpace = true

/-- Where all blanks are spaces and tabs the ends are plain. -/
theorem plainEnds_of_forall (h : ∀ c ∈ u, isBlank c = isSpace c) : PlainEnds u :=
  ⟨fun c hc => h c (List.mem_of_head? hc), fun v w hu hw => List.all_eq_true.mpr fun c hc => by
    rw [← h c (hu ▸ List.mem_append_right v hc)]
    exact List.all_eq_true.mp hw c hc⟩

/-- A text without blanks has plain ends. -/
theorem plainEnds_of_all (h : u.all (fun c => !isBlank c) = true) : PlainEnds u :=
  plainEnds_of_forall fun c hc => by
    have hblank : isBlank c = false := by simpa using List.all_eq_true.mp h c hc
    rw [hblank, isSpace_of_isBlank_eq_false hblank]

/-- Texts with plain ends have plain ends together. -/
theorem PlainEnds.append (hu : PlainEnds u) (hv : PlainEnds v) : PlainEnds (u ++ v) := by
  constructor
  · intro c hc
    rw [List.head?_append, Option.or_eq_some_iff] at hc
    exact hc.elim (hu.1 c) fun hc => hv.1 c hc.2
  · intro x w hx hw
    rcases List.append_eq_append_iff.mp hx with ⟨a, -, hsplit⟩ | ⟨a, hsplit, rfl⟩
    · exact hv.2 a w hsplit hw
    · obtain ⟨ha, hrest⟩ := Bool.and_eq_true_iff.mp (List.all_append.symm.trans hw)
      rw [List.all_append, hu.2 x a hsplit ha, hv.2 [] v rfl hrest, Bool.and_self]

/-- At plain ends a blank in front is a space or a tab. -/
theorem PlainEnds.beginsBlank (h : PlainEnds u) (hu : u = c :: v) :
    Tree.beginsBlank u = isSpace c := by
  subst hu
  exact h.1 c rfl

/-- So is a blank at the end. -/
theorem PlainEnds.endsBlank (h : PlainEnds u) (hu : u = v ++ [c]) :
    Tree.endsBlank u = isSpace c := by
  subst hu
  rw [Tree.endsBlank, List.getLast?_concat]
  change isBlank c = isSpace c
  cases hc : isBlank c with
  | false => exact (isSpace_of_isBlank_eq_false hc).symm
  | true =>
    have hspace := h.2 v [c] rfl (by rw [List.all_cons, hc]; rfl)
    rw [List.all_cons, List.all_nil, Bool.and_true] at hspace
    exact hspace.symm

/-- What begins in ink with plain ends begins with no blank. -/
theorem PlainEnds.beginsBlank_of_ink (h : PlainEnds u) (hu : BeginsInk u) :
    Tree.beginsBlank u = false := by
  obtain ⟨c, v, hu, hc⟩ := hu
  exact (h.beginsBlank hu).trans hc

/-- What ends in ink with plain ends ends with no blank. -/
theorem PlainEnds.endsBlank_of_ink (h : PlainEnds u) (hu : EndsInk u) :
    Tree.endsBlank u = false := by
  obtain ⟨v, c, hu, hc⟩ := hu
  exact (h.endsBlank hu).trans hc

end Text

namespace Rule

variable {r : Rule} {u rest : List Char}

/-- The texts of tokens have no blanks at their ends. -/
theorem lexeme_plainEnds (hu : r.Lexeme u rest) : PlainEnds u := by
  by_cases hstring : r = .string
  · subst hstring
    have quoted {mark : Char} {body : List Char} (hmark : isBlank mark = false) :
        PlainEnds (mark :: body ++ [mark]) := by
      constructor
      · intro c hc
        obtain rfl : mark = c := Option.some.inj hc
        rw [hmark, isSpace_of_isBlank_eq_false hmark]
      · intro v w hsplit hw
        rcases List.eq_nil_or_concat w with rfl | ⟨w, c, rfl⟩
        · rfl
        · rw [List.concat_eq_append, ← List.append_assoc] at hsplit
          obtain ⟨-, rfl⟩ := List.append_singleton_inj.mp hsplit
          have hblank := List.all_eq_true.mp hw mark (by simp)
          cases hmark.symm.trans hblank
    rcases hu with ⟨body, -, rfl⟩ | ⟨body, -, rfl, -⟩
    · exact quoted (by decide)
    · exact quoted (by decide)
  · refine plainEnds_of_all (all_of_all (lexeme_all_isTokenChar hstring hu) fun c hc => ?_)
    rw [isBlank_of_isTokenChar hc]
    rfl

end Rule

/-- Whether the fixed texts of a pattern hold no blanks. -/
def Pattern.isBlankFree : Pattern → Bool
  | text chars => chars.all fun c => !isBlank c
  | seq p q | choice p q => p.isBlankFree && q.isBlankFree
  | many p | opt p | counted p => p.isBlankFree
  | _ => true

/-- Outside tokens the grammar reads no blanks. -/
theorem Rule.pattern_isBlankFree (r : Rule) : r.pattern.isBlankFree = true := by
  cases r <;> decide

namespace Lays

variable {source : List Char} {here stop : Cursor} {p : Pattern} {ts : List (Tree Rule)}

/-- What the grammar takes begins in no blank other than a space or a tab, and ends in no other. -/
theorem plainEnds (h : Lays p here stop ts) (hp : p.isBlankFree = true) {u : List Char}
    (hmove : here.Moves u stop) : PlainEnds u := by
  -- The induction is on the derivation: every part has plain ends, and so have parts in a row.
  induction h generalizing u with
  | empty | absent | done =>
    rw [← (Cursor.Moves.refl _).text_unique hmove]
    exact plainEnds_of_all rfl
  | @text _ _ chars _ h => exact h.text_unique hmove ▸ plainEnds_of_all (u := chars) hp
  | @blanks here =>
    rw [← here.moves_skipSpaces.text_unique hmove]
    refine plainEnds_of_forall fun c hc => ?_
    have hspace : isSpace c = true := List.all_eq_true.mp List.all_takeWhile c hc
    rw [hspace, isBlank_of_isSpace hspace]
  | token _ _ h hu => exact h.text_unique hmove ▸ Rule.lexeme_plainEnds hu
  | rule _ _ _ _ ih => exact ih (Rule.pattern_isBlankFree _) hmove
  | seq h h' ih ih' =>
    obtain ⟨v, w, rfl, hv, hw⟩ := h.derives.split_text h'.derives hmove
    obtain ⟨hp, hq⟩ := Bool.and_eq_true_iff.mp hp
    exact (ih hp hv).append (ih' hq hw)
  | again h h' ih ih' =>
    obtain ⟨v, w, rfl, hv, hw⟩ := h.derives.split_text h'.derives hmove
    exact (ih hp hv).append (ih' hp hw)
  | left _ ih => exact ih (Bool.and_eq_true_iff.mp hp).1 hmove
  | right _ ih => exact ih (Bool.and_eq_true_iff.mp hp).2 hmove
  | present _ ih | counted _ ih => exact ih hp hmove

end Lays

namespace Tree

/-- A node that was derived where it stands in a source. -/
def LaidIn (source : List Char) (t : Tree Rule) : Prop :=
  ∃ here stop, here.In source ∧ Lays (.rule t.label) here stop [t]

namespace LaidIn

variable {source : List Char} {t : Tree Rule}

/-- What is laid out in a source stands in it. -/
theorem between (h : t.LaidIn source) : Between source t.span.start t.span.stop t.text := by
  obtain ⟨here, stop, hhere, hlays⟩ := h
  rw [hlays.derives.span_eq.1]
  exact hhere.between hlays.derives.moves_text

/-- It has plain ends. -/
theorem plainEnds (h : t.LaidIn source) : PlainEnds t.text := by
  obtain ⟨here, stop, -, hlays⟩ := h
  exact hlays.plainEnds rfl hlays.derives.moves_text

/-- It is not empty unless its rule may be. -/
theorem text_ne_nil (h : t.LaidIn source) (ht : t.label.mayBeEmpty = false) : t.text ≠ [] := by
  obtain ⟨here, stop, -, hlays⟩ := h
  obtain ⟨c, u, hmove, -⟩ := hlays.derives.starts_cons ht
  rw [hlays.derives.moves_text.text_unique hmove]
  exact List.cons_ne_nil c u

/-- A tight node has no blank at either end of its text. -/
theorem ends (h : t.LaidIn source) (ht : t.label.tag.isTight = true) :
    BeginsInk t.text ∧ EndsInk t.text := by
  have hne := h.text_ne_nil (Rule.tight_ends ht).2.1
  obtain ⟨here, stop, -, hlays⟩ := h
  obtain ⟨hends, hempty, -⟩ := Rule.tight_ends ht
  have hmove := hlays.derives.moves_text
  obtain ⟨c, u, hmove', hc⟩ := hlays.derives.starts_cons hempty
  exact ⟨⟨c, u, hmove.text_unique hmove', Rule.starts_of_isTight ht hc⟩,
    (hlays.endsInk hends hmove).resolve_left hne⟩

end LaidIn

/-- Children stay when rules become tags. -/
theorem children_map (t : Tree Rule) :
    (t.map Rule.tag).children = t.children.map (map Rule.tag) := by
  obtain ⟨r, span, excerpt, ts⟩ := t
  rw [map_tag]
  rfl

/-- So do nodes. -/
theorem nodes_map (t : Tree Rule) : (t.map Rule.tag).nodes = t.nodes.map (map Rule.tag) := by
  have all (ts : List (Tree Rule)) (ih : ∀ u ∈ ts, (u.map Rule.tag).nodes = u.nodes.map (map Rule.tag)) :
      nodesAll (ts.map (map Rule.tag)) = (nodesAll ts).map (map Rule.tag) := by
    induction ts with
    | nil => rfl
    | cons u us ihs =>
      rw [List.map_cons, nodesAll, nodesAll, ih u List.mem_cons_self,
        ihs fun v hv => ih v (List.mem_cons_of_mem u hv), List.map_append]
  obtain ⟨r, span, excerpt, ts⟩ := t
  rw [map_tag, nodes, nodes, List.map_cons, map_tag, all ts fun u hu => nodes_map u]
termination_by t
decreasing_by exact sizeOf_lt hu

end Tree

/-- A tree is one of its nodes. -/
theorem Tree.mem_nodesAll {Label : Type} {t : Tree Label} {ts : List (Tree Label)} (h : t ∈ ts) :
    t ∈ nodesAll ts := by
  induction ts with
  | nil => cases h
  | cons u us ih =>
    rcases List.mem_cons.mp h with rfl | h
    · cases t
      exact List.mem_append_left _ List.mem_cons_self
    · exact List.mem_append_right _ (ih h)

/-- Every node of what is laid out in a source was derived where it stands. -/
theorem Lays.laidIn {source : List Char} {here stop : Cursor} {p : Pattern} {ts : List (Tree Rule)}
    (h : Lays p here stop ts) (hhere : here.In source) :
    ∀ t ∈ Tree.nodesAll ts, t.LaidIn source := by
  induction h with
  | empty | absent | done | text | blanks => exact fun t ht => (List.not_mem_nil ht).elim
  | token hr hr' h hu =>
    intro t ht
    obtain rfl : t = _ := List.mem_singleton.mp ht
    exact ⟨_, _, hhere, .token hr hr' h hu⟩
  | rule hr hr' h settled ih =>
    intro t ht
    rcases List.mem_cons.mp ht with rfl | ht
    · exact ⟨_, _, hhere, .rule hr hr' h settled⟩
    · exact ih hhere t ((List.append_nil (Tree.nodesAll _)).subst ht)
  | seq h h' ih ih' | again h h' ih ih' =>
    rw [Tree.nodesAll_append]
    exact List.forall_mem_append.mpr ⟨ih hhere, ih' (h.stop_in hhere)⟩
  | left _ ih | right _ ih | present _ ih | counted _ ih => exact ih hhere

namespace Tree

/-- A node of a parse tree other than its root and the end of input was derived where it stands. -/
theorem exists_laidIn {limits : Limits} {source : List Char} {tree node : Tree Tag}
    (h : parseTree limits source = .ok tree) (hnode : node ∈ tree.nodes)
    (hroot : node.label ≠ .root) (hend : node.label ≠ .endOfInput) :
    ∃ t : Tree Rule, node = t.map Rule.tag ∧ t.LaidIn source := by
  obtain ⟨mid, t, hexpr, -, rfl⟩ := exists_root h
  have hlays := hexpr.lays (.rule ⟨nofun, nofun⟩)
  have hfirst := (Cursor.In.start source).move (Cursor.moves_skipSpaces _)
  rw [nodes_map] at hnode
  obtain ⟨u, hu, rfl⟩ := List.mem_map.mp hnode
  refine ⟨u, rfl, hlays.laidIn hfirst u ?_⟩
  rcases List.mem_cons.mp hu with rfl | hu
  · exact (hroot rfl).elim
  · rw [nodesAll] at hu ⊢
    rcases List.mem_append.mp hu with hu | hu
    · exact List.mem_append_left _ hu
    · obtain rfl : u = _ := List.mem_singleton.mp hu
      exact (hend rfl).elim

namespace LaidIn

variable {source : List Char} {t a b : Tree Rule}

/-- The children of a node are laid out from where it begins. -/
theorem below (h : t.LaidIn source) (ht : t.label.isToken = false) :
    ∃ here stop, here.In source ∧ here.offset = t.span.start ∧ here.Moves t.text stop ∧
      Lays t.label.pattern here stop t.children := by
  obtain ⟨here, stop, hhere, hlays⟩ := h
  refine ⟨here, stop, hhere, congrArg Span.start hlays.derives.span_eq.1.symm,
    hlays.derives.moves_text, ?_⟩
  generalize hts : [t] = ts at hlays
  generalize hr : t.label = r at ht hlays ⊢
  cases hlays with
  | token htoken => cases htoken.symm.trans ht
  | rule _ _ h =>
    obtain rfl := List.singleton_inj.mp hts
    exact h

/-- The children of what is laid out are laid out. -/
theorem child {u : Tree Rule} (h : t.LaidIn source) (hu : u ∈ t.children) : u.LaidIn source := by
  cases htoken : t.label.isToken with
  | false =>
    obtain ⟨here, stop, hhere, -, -, hlays⟩ := h.below htoken
    exact hlays.laidIn hhere u (mem_nodesAll hu)
  | true =>
    obtain ⟨here, stop, -, hlays⟩ := h
    obtain ⟨-, -, -, hts⟩ := (Derives.token_iff htoken).mp hlays.derives
    rw [List.singleton_inj.mp hts] at hu
    cases hu

/-- The byte in front of a tight node tells whether a blank separates it from the node before. -/
theorem apart_before (ha : a.LaidIn source) (hne : a.text ≠ []) (hb : b.LaidIn source)
    (htight : b.label.tag.isTight = true) (hgap : Gap source a.span.stop b.span.start) :
    ∃ byte, byteBefore? source b.span.start = some byte ∧ apart a b = isSpaceByte byte := by
  obtain ⟨u, c, hu⟩ : ∃ u c, a.text = u ++ [c] := ⟨_, _, (List.dropLast_concat_getLast hne).symm⟩
  have hcovers := ha.between
  rw [hu] at hcovers
  obtain ⟨byte, hbyte, hspace⟩ := hcovers.byteBefore?_gap hgap
  refine ⟨byte, hbyte, ?_⟩
  rw [apart, hb.plainEnds.beginsBlank_of_ink (hb.ends htight).1, ha.plainEnds.endsBlank hu,
    Bool.or_false, hspace]

/-- The byte behind a tight node tells whether a blank separates it from the node after. -/
theorem apart_behind (ha : a.LaidIn source) (htight : a.label.tag.isTight = true)
    (hb : b.LaidIn source) (hne : b.text ≠ []) (hgap : Gap source a.span.stop b.span.start) :
    ∃ byte, byteAt? source a.span.stop = some byte ∧ apart a b = isSpaceByte byte := by
  obtain ⟨c, u, hu⟩ := List.exists_cons_of_ne_nil hne
  have hcovers := hb.between
  rw [hu] at hcovers
  obtain ⟨byte, hbyte, hspace⟩ := hcovers.byteAt?_gap hgap
  refine ⟨byte, hbyte, ?_⟩
  rw [apart, ha.plainEnds.endsBlank_of_ink (ha.ends htight).2, hb.plainEnds.beginsBlank hu,
    Bool.false_or, hspace]

end LaidIn

end Tree

/-- Some tags are those of one rule only. -/
theorem Rule.eq_of_tag {r r' : Rule} (h : r.tag = r'.tag)
    (hr : r' ∈ [additive, postfixed, primary, functionCall]) : r = r' := by
  simp only [List.mem_cons, List.not_mem_nil, or_false] at hr
  rcases hr with rfl | rfl | rfl | rfl <;> cases r <;> first | rfl | cases h

/-- A member of a run that is no operand stands between two operands. -/
theorem Alternates.exists_between {α : Type} {p q : α → Prop} {front back : List α} {b : α}
    (h : Alternates p q (front ++ b :: back)) (hb : ¬ p b) :
    ∃ front' a a' back', front = front' ++ [a] ∧ back = a' :: back' ∧ p a ∧ q b ∧ p a' := by
  generalize has : front ++ b :: back = as at h
  induction h generalizing front with
  | @one a h =>
    have hmem : b ∈ [a] := has ▸ List.mem_append_right front List.mem_cons_self
    exact (hb (List.mem_singleton.mp hmem ▸ h)).elim
  | @more a link rest h hlink hmore ih =>
    match front with
    | [] =>
      obtain ⟨rfl, -⟩ := List.cons.inj has
      exact (hb h).elim
    | [x] =>
      obtain ⟨rfl, hlast⟩ := List.cons.inj has
      obtain ⟨a', back', hrest, ha'⟩ := hmore.head
      obtain ⟨rfl, hback⟩ := List.cons.inj hlast
      exact ⟨[], x, a', back', rfl, hback.trans hrest, h, hlink, ha'⟩
    | x :: y :: front =>
      obtain ⟨front', c, c', back', rfl, rfl, h⟩ := ih (List.cons.inj (List.cons.inj has).2).2
      exact ⟨x :: y :: front', c, c', back', rfl, rfl, h⟩

namespace Tree

/-- In an additive run derived where it stands, an operator stands between two operands with
nothing but blanks between them, and blanks are where the nodes are apart. -/
theorem LaidIn.exists_operands {source : List Char} {t op : Tree Rule} {front back : List (Tree Rule)}
    (h : t.LaidIn source) (ht : t.label = .additive) (hchildren : t.children = front ++ op :: back)
    (hop : op.label ≠ .multiplicative) :
    ∃ front' left right back', front = front' ++ [left] ∧ back = right :: back' ∧
      (left.LaidIn source ∧ op.LaidIn source ∧ right.LaidIn source) ∧
        (left.label = .multiplicative ∧ op.label = .addOp ∧ right.label = .multiplicative) ∧
          Gap source left.span.stop op.span.start ∧ Gap source op.span.stop right.span.start ∧
            blankAmong t.span.start t.text [left, op, right] = (apart left op || apart op right) := by
  obtain ⟨here, stop, hhere, hstart, hmove, hlays⟩ := h.below (ht ▸ rfl)
  rw [ht, hchildren] at hlays
  have halternates : Alternates (fun u => u.label = .multiplicative) (fun u => u.label = .addOp)
      (front ++ op :: back) := .of_map (Rule.tier_labels hlays.derives.labels)
  obtain ⟨front', left, right, back', rfl, rfl, hleft, hop, hright⟩ := halternates.exists_between hop
  have hchain : [left, op, right].IsChain (Adjacent here stop) :=
    hlays.derives.chained_isChain.infix ⟨front', back', by simp⟩
  have hlaid := fun u hu => hlays.laidIn hhere u (mem_nodesAll hu)
  have gap {a b : Tree Rule} (h : Adjacent here stop a b) : Gap source a.span.stop b.span.start := by
    obtain ⟨u, gap, v, mid, next, hu, hgap, -, hspaces, hstop, hnext⟩ := h
    exact hstop ▸ hnext ▸ ⟨gap, (hhere.move hu).between hgap, hspaces⟩
  have hblank := blankAmong_eq hchain hmove
  have hlast : anyApart [right] = false := rfl
  rw [hstart, anyApart, anyApart, hlast, Bool.or_false] at hblank
  obtain ⟨hbefore, hbehind⟩ := List.isChain_cons_cons.mp hchain
  exact ⟨front', left, right, back', rfl, rfl,
    ⟨hlaid left (by simp), hlaid op (by simp), hlaid right (by simp)⟩, ⟨hleft, hop, hright⟩,
    gap hbefore, gap (List.isChain_cons_cons.mp hbehind).1, hblank⟩

/-- Whether a node has three operands, and operators at these two places between them. -/
def hasOperatorsAt (first second : Span) (t : Tree Tag) : Bool :=
  match t.children with
  | [_, op, _, op', _] => op.label == .operator && op.span == first &&
    op'.label == .operator && op'.span == second
  | _ => false

/-- Operators at two spans are the second and the fourth of five children. -/
theorem exists_of_hasOperatorsAt {first second : Span} {t : Tree Tag}
    (h : t.hasOperatorsAt first second = true) : ∃ a op b op' c,
      t.children = [a, op, b, op', c] ∧ op.label = .operator ∧ op.span = first ∧
        op'.label = .operator ∧ op'.span = second := by
  unfold hasOperatorsAt at h
  split at h
  · rename_i a op b op' c hchildren
    simp only [Bool.and_eq_true, beq_iff_eq] at h
    obtain ⟨⟨⟨hop, hspan⟩, hop'⟩, hspan'⟩ := h
    exact ⟨a, op, b, op', c, hchildren, hop, hspan, hop', hspan'⟩
  · cases h

/-- Every operator in an additive run stands between two operands. It is tight there if and only if
neither the byte in front of it nor the byte behind it is a space or a tab. -/
theorem parseTree_tight_iff {limits : Limits} {source : List Char} {tree node op : Tree Tag}
    {front back : List (Tree Tag)} (h : parseTree limits source = .ok tree)
    (hnode : node ∈ tree.nodes) (hadditive : node.label = .additive)
    (hchildren : node.children = front ++ op :: back) (hop : op.label = .operator) :
    ∃ front' left right back', front = front' ++ [left] ∧ back = right :: back' ∧
      ∃ before behind, byteBefore? source op.span.start = some before ∧
        byteAt? source op.span.stop = some behind ∧
          (blankAmong node.span.start node.text [left, op, right] = false ↔
            isSpaceByte before = false ∧ isSpaceByte behind = false) := by
  obtain ⟨t, rfl, hlaid⟩ := exists_laidIn h hnode (by rw [hadditive]; nofun) (by rw [hadditive]; nofun)
  rw [children_map] at hchildren
  obtain ⟨front, _, hsplit, rfl, hback⟩ := List.map_eq_append_iff.mp hchildren
  obtain ⟨op, back, rfl, rfl, rfl⟩ := List.map_eq_cons_iff.mp hback
  rw [label_map] at hadditive hop
  have ht : t.label = .additive := Rule.eq_of_tag hadditive (by decide)
  obtain ⟨front', left, right, back', rfl, rfl, ⟨hleft, hmid, hright⟩, ⟨hl, ho, hr⟩, hgap, hgap',
    hblank⟩ := hlaid.exists_operands ht hsplit fun hmul => by rw [hmul] at hop; cases hop
  -- What is left are the gaps on both sides, and one byte tells of each.
  obtain ⟨before, hbefore, hapart⟩ := hleft.apart_before
    (hleft.text_ne_nil (by rw [hl]; rfl)) hmid (by rw [ho]; rfl) hgap
  obtain ⟨behind, hbehind, hapart'⟩ := hmid.apart_behind (by rw [ho]; rfl) hright
    (hright.text_ne_nil (by rw [hr]; rfl)) hgap'
  refine ⟨front'.map (map Rule.tag), left.map Rule.tag, right.map Rule.tag,
    back'.map (map Rule.tag), by rw [List.map_append, List.map_singleton], rfl, before, behind,
    by rw [span_map, hbefore], by rw [span_map, hbehind], ?_⟩
  have hmap := blankAmong_map t.span.start t.text [left, op, right]
  rw [List.map_cons, List.map_cons, List.map_singleton, hblank, hapart, hapart'] at hmap
  rw [span_map, text_map, hmap, Bool.or_eq_false_iff]

/-- A point behind a string that holds a blank of three bytes is tight; one behind a space is
not. -/
theorem parseTree_tight_iff_string : ∃ tree node a op b op' c,
    parseTree Limits.default "'k\u2003'.d .x".toList = .ok tree ∧ node ∈ tree.nodes ∧
      node.children = [a, op, b, op', c] ∧ op.span = ⟨6, 7⟩ ∧ op'.span = ⟨9, 10⟩ ∧
        blankAmong node.span.start node.text [a, op, b] = false ∧
          blankAmong node.span.start node.text [b, op', c] = true := by
  have hfound : (parseTree Limits.default "'k\u2003'.d .x".toList).map (fun tree =>
      tree.nodes.any fun node => node.label == .additive &&
        node.hasOperatorsAt ⟨6, 7⟩ ⟨9, 10⟩) = .ok true := by
    decide +kernel
  obtain ⟨tree, htree, hfound⟩ := exists_of_map_eq_ok hfound
  obtain ⟨node, hnode, hshape⟩ := List.any_eq_true.mp hfound
  obtain ⟨hadditive, hshape⟩ := Bool.and_eq_true_iff.mp hshape
  have hadditive := beq_iff_eq.mp hadditive
  obtain ⟨a, op, b, op', c, hchildren, hop, hspan, hop', hspan'⟩ := exists_of_hasOperatorsAt hshape
  refine ⟨tree, node, a, op, b, op', c, htree, hnode, hchildren, hspan, hspan', ?_, ?_⟩
  · obtain ⟨front, left, right, back, hfront, hback, before, behind, hbefore, hbehind, htight⟩ :=
      parseTree_tight_iff htree hnode hadditive
        (show node.children = [] ++ [a] ++ op :: [b, op', c] from hchildren) hop
    obtain ⟨-, rfl⟩ := List.append_singleton_inj.mp hfront
    obtain ⟨rfl, -⟩ := List.cons.inj hback
    rw [hspan, show byteBefore? _ 6 = some 0x27 by decide +kernel] at hbefore
    rw [hspan, show byteAt? _ 7 = some 0x64 by decide +kernel] at hbehind
    cases hbefore
    cases hbehind
    exact htight.mpr ⟨by decide, by decide⟩
  · obtain ⟨front, left, right, back, hfront, hback, before, behind, hbefore, -, htight⟩ :=
      parseTree_tight_iff htree hnode hadditive
        (show node.children = [a, op] ++ [b] ++ op' :: [c] from hchildren) hop'
    obtain ⟨-, rfl⟩ := List.append_singleton_inj.mp hfront
    obtain ⟨rfl, -⟩ := List.cons.inj hback
    rw [hspan', show byteBefore? _ 9 = some 0x20 by decide +kernel] at hbefore
    cases hbefore
    refine Bool.eq_true_of_not_eq_false fun hfalse => ?_
    exact Bool.noConfusion (htight.mp hfalse).1

end Tree

end Vimscript
