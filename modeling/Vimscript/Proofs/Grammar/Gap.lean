import Mathlib.Data.List.Chain
import Vimscript.Tree.Gap
import Vimscript.Proofs.Grammar.Chain
import Vimscript.Proofs.Grammar.Ink

/-!
# Blanks between derived neighbours

Between two neighbours of a chain lie spaces and tabs only. Whether a blank separates them is
therefore told by the two nodes alone: by blanks at the edge of their texts and by whether the
second begins where the first ends. It does not depend on how far the text of their parent goes.
-/

namespace Vimscript

namespace Text

/-- As many bytes as a text has can be dropped from the front. -/
theorem dropBytes?_append (a b : List Char) : dropBytes? (byteLength a) (a ++ b) = some b := by
  induction a with
  | nil => cases b <;> rfl
  | cons c rest ih =>
    rw [byteLength_cons, List.cons_append]
    have hpos := c.utf8Size_pos
    obtain ⟨n, hn⟩ : ∃ n, c.utf8Size + byteLength rest = n + 1 := ⟨_, (Nat.succ_pred (by omega)).symm⟩
    rw [hn, dropBytes?, if_pos (by omega), ← hn, Nat.add_sub_cancel_left, ih]

/-- They can be taken as well, and they are the text. -/
theorem takeBytes?_append (a b : List Char) : takeBytes? (byteLength a) (a ++ b) = some a := by
  induction a with
  | nil => cases b <;> rfl
  | cons c rest ih =>
    rw [byteLength_cons, List.cons_append]
    have hpos := c.utf8Size_pos
    obtain ⟨n, hn⟩ : ∃ n, c.utf8Size + byteLength rest = n + 1 := ⟨_, (Nat.succ_pred (by omega)).symm⟩
    rw [hn, takeBytes?, if_pos (by omega), ← hn, Nat.add_sub_cancel_left, ih, Option.map_some]

/-- The slice between two places of a text is what stands between them. -/
theorem slice?_append (a b c : List Char) :
    slice? (byteLength a) (byteLength a + byteLength b) (a ++ b ++ c) = some b := by
  rw [slice?, if_pos (Nat.le_add_right _ _), List.append_assoc, dropBytes?_append,
    Nat.add_sub_cancel_left, Option.bind_some, takeBytes?_append]

end Text

namespace Tree

variable {Label : Type} {a b : Tree Label} {ts : List (Tree Label)}

/-- Whether a blank separates two neighbours between which nothing but blanks can stand. -/
def apart (a b : Tree Label) : Bool :=
  endsBlank a.text || beginsBlank b.text || a.span.stop != b.span.start

/-- Whether a blank separates any two neighbours of a run. -/
def anyApart : List (Tree Label) → Bool
  | a :: b :: rest => apart a b || anyApart (b :: rest)
  | _ => false

/-- Two neighbours in the text between two places, with nothing but blanks between them. -/
def Adjacent (here limit : Cursor) (a b : Tree Label) : Prop :=
  ∃ u gap v mid next, here.Moves u mid ∧ mid.Moves gap next ∧ next.Moves v limit ∧
    gap.all Text.isSpace = true ∧ a.span.stop = mid.offset ∧ b.span.start = next.offset

variable {here limit : Cursor} {text : List Char}

/-- Between neighbours a blank is found exactly if one stands at an end of theirs or between
them. -/
theorem Adjacent.blankBetween (h : Adjacent here limit a b) (htext : here.Moves text limit) :
    blankBetween here.offset text a b = apart a b := by
  obtain ⟨u, gap, v, mid, next, hu, hgap, hv, hspaces, hstop, hstart⟩ := h
  have hnext := hu.trans hgap
  obtain rfl : text = u ++ gap ++ v := htext.text_unique (hnext.trans hv)
  have hmid : mid.offset - here.offset = Text.byteLength u := by
    rw [hu.offset_eq]
    omega
  have hnext' : next.offset - here.offset = Text.byteLength u + Text.byteLength gap := by
    rw [hnext.offset_eq, Text.byteLength_append]
    omega
  have hsame : (gap.any fun c => Text.isBlank c) = (mid.offset != next.offset) := by
    rw [hgap.offset_eq]
    cases gap with
    | nil => simp [Text.byteLength]
    | cons c rest =>
      have hc := Text.isBlank_of_isSpace (Bool.and_eq_true_iff.mp (List.all_cons ▸ hspaces)).1
      have hpos := c.utf8Size_pos
      rw [List.any_cons, hc, Text.byteLength_cons, Bool.true_or, eq_comm]
      exact bne_iff_ne.mpr (by omega)
  rw [Tree.blankBetween, apart, hstop, hstart, hmid, hnext', Text.slice?_append, Option.any_some,
    hsame]

/-- In a chain of neighbours the nodes alone tell where blanks stand. -/
theorem blankAmong_eq (h : ts.IsChain (Adjacent here limit)) (htext : here.Moves text limit) :
    blankAmong here.offset text ts = anyApart ts := by
  induction h with
  | nil | singleton => rfl
  | cons_cons hr _ ih => rw [blankAmong, anyApart, hr.blankBetween htext, ih]

end Tree

open Pattern Text

namespace Derives

variable {here stop : Cursor} {r : Rule} {ts us : List (Tree Rule)} {t : Tree Rule}

/-- What derives behind the blanks after a node is its neighbour. -/
theorem adjacent {start mid limit : Cursor} {r' : Rule} {t' : Tree Rule} {u v : List Char}
    (hu : start.Moves u mid) (h : Derives (.rule r) here mid [t])
    (h' : Derives (.rule r') mid.skipSpaces stop [t']) (hv : stop.Moves v limit) :
    Tree.Adjacent start limit t t' := by
  obtain ⟨w, hw⟩ := h'.moves
  refine ⟨u, mid.rest.takeWhile isSpace, w ++ v, mid, mid.skipSpaces, hu, mid.moves_skipSpaces,
    hw.trans hv, ?_, congrArg Span.stop h.span_eq.1, congrArg Span.start h'.span_eq.1⟩
  exact List.all_takeWhile

/-- An operator and an operand behind blanks. -/
theorem round_iff {op operand : Rule} :
    Derives (spaced [call op, call operand]) here stop ts ↔ ∃ mid t t',
      Derives (.rule op) here mid [t] ∧ Derives (.rule operand) mid.skipSpaces stop [t'] ∧
        ts = [t, t'] := by
  simp only [spaced, spacedChain, counted_iff, spaced_iff, call_iff]
  constructor
  · rintro ⟨mid, us, vs, h, h', rfl⟩
    obtain ⟨t, rfl⟩ := h.eq_singleton
    obtain ⟨t', rfl⟩ := h'.eq_singleton
    exact ⟨mid, t, t', h, h', rfl⟩
  · rintro ⟨mid, t, t', h, h', rfl⟩
    exact ⟨mid, [t], [t'], h, h', rfl⟩

/-- The operators and operands of a run are neighbours, one by one. -/
theorem rounds_isChain {op operand : Rule} {mid : Cursor}
    (h : Derives (.many (.counted (.seq .blanks (spaced [call op, call operand])))) mid stop ts)
    {start place : Cursor} {u : List Char} (hu : start.Moves u mid)
    (ht : Derives (.rule r) place mid [t]) : (t :: ts).IsChain (Tree.Adjacent start stop) := by
  generalize hq : Pattern.many (.counted (.seq .blanks (spaced [call op, call operand]))) = q at h
  induction h generalizing place u t r with
  | done => exact .singleton _
  | again hround hmore _ ih =>
    cases hq
    obtain ⟨p, o, x, ho, hx, rfl⟩ := round_iff.mp (afterBlanks_iff.mp (counted_iff.mp hround))
    obtain ⟨v, hv⟩ := (afterBlanks_iff.mpr (round_iff.mpr ⟨p, o, x, ho, hx, rfl⟩)).moves
    obtain ⟨w, hw⟩ := hmore.moves
    obtain ⟨y, hy⟩ := hx.moves
    obtain ⟨z, hz⟩ := ho.moves
    have hp := (hu.trans (Cursor.moves_skipSpaces _)).trans hz
    have hop := adjacent hu ht ho (((Cursor.moves_skipSpaces p).trans hy).trans hw)
    exact .cons_cons hop (.cons_cons (adjacent hp ho hx hw) (ih (hu.trans hv) hx rfl))
  | _ => cases hq

/-- The nodes of a chain are neighbours. -/
theorem chained_isChain {op operand : Rule}
    (h : Derives (chained operand (call op)) here stop ts) :
    ts.IsChain (Tree.Adjacent here stop) := by
  obtain ⟨mid, us, vs, hfirst, hrounds, rfl⟩ := spaced_iff.mp (counted_iff.mp h)
  have hfirst := call_iff.mp hfirst
  obtain ⟨t, rfl⟩ := hfirst.eq_singleton
  obtain ⟨u, hu⟩ := hfirst.moves
  rcases spacedStar_iff.mp hrounds with ⟨rfl, rfl⟩ | ⟨next, ws, xs, hround, hmore, rfl⟩
  · exact .singleton _
  · obtain ⟨p, o, x, ho, hx, rfl⟩ := round_iff.mp hround
    obtain ⟨y, hy⟩ := hx.moves
    obtain ⟨z, hz⟩ := ho.moves
    obtain ⟨w, hw⟩ := hmore.moves
    have hp := (hu.trans (Cursor.moves_skipSpaces _)).trans hz
    have hnext := (hp.trans (Cursor.moves_skipSpaces _)).trans hy
    have hop := adjacent hu hfirst ho (((Cursor.moves_skipSpaces p).trans hy).trans hw)
    exact .cons_cons hop (.cons_cons (adjacent hp ho hx hw) (rounds_isChain hmore hnext hx))

/-- What derives where blanks have been skipped begins with something else. -/
theorem text_of_skipSpaces (h : Derives (.rule r) here.skipSpaces stop [t])
    (hr : r.mayBeEmpty = false) : ∃ c v, t.text = c :: v ∧ isSpace c = false := by
  obtain ⟨c, v, hmove, -⟩ := h.starts_cons hr
  exact ⟨c, v, h.moves_text.text_unique hmove,
    here.skipSpaces_endsBefore c (by rw [hmove.rest_eq]; rfl)⟩

/-- The nodes of a chain but for the first begin with no blank. -/
theorem chained_begins {op operand : Rule} (hop : op.mayBeEmpty = false)
    (hoperand : operand.mayBeEmpty = false)
    (h : Derives (chained operand (call op)) here stop ts) :
    ∀ t ∈ ts.tail, ∃ c v, t.text = c :: v ∧ isSpace c = false := by
  have round {here stop : Cursor} {ts : List (Tree Rule)}
      (h : Derives (spaced [call op, call operand]) here.skipSpaces stop ts) :
      ∀ t ∈ ts, ∃ c v, t.text = c :: v ∧ isSpace c = false := by
    obtain ⟨mid, o, x, ho, hx, rfl⟩ := round_iff.mp h
    rintro t (_ | ⟨_, _ | ⟨_, ht⟩⟩)
    · exact ho.text_of_skipSpaces hop
    · exact hx.text_of_skipSpaces hoperand
    · cases ht
  obtain ⟨mid, us, vs, hfirst, hrounds, rfl⟩ := spaced_iff.mp (counted_iff.mp h)
  obtain ⟨t, rfl⟩ := (call_iff.mp hfirst).eq_singleton
  rcases spacedStar_iff.mp hrounds with ⟨-, rfl⟩ | ⟨next, ws, xs, hround, hmore, rfl⟩
  · exact nofun
  · rw [List.singleton_append, List.tail_cons]
    refine List.forall_mem_append.mpr ⟨round hround, ?_⟩
    generalize hq : Pattern.many (.counted (.seq .blanks (spaced [call op, call operand]))) = q
      at hmore
    clear hround hrounds h
    induction hmore with
    | done => exact nofun
    | again hround _ _ ih =>
      cases hq
      exact List.forall_mem_append.mpr
        ⟨round (afterBlanks_iff.mp (counted_iff.mp hround)), ih rfl⟩
    | _ => cases hq

end Derives

end Vimscript
