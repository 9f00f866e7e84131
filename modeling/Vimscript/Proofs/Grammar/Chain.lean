import Vimscript.Proofs.Grammar.Follow

/-!
# Repetitions and chains

When a derivation is what matching yields, for repetitions and for the chains of operands that
make the tiers. A repetition goes on exactly as long as the derivation does if each round is what
matching yields and the last one is followed by no further round; in a chain the link behind an
operand says that nothing goes on with that operand.
-/

namespace Vimscript

open Pattern Text

variable {here stop : Cursor} {ts : List (Tree Rule)}

/-- Every rule is complete wherever less than a length of text is left. -/
def Rule.CompleteBelow (length : Nat) : Prop :=
  ∀ place : Cursor, place.rest.length < length → ∀ r : Rule, r.Complete place

/-- Rounds that are followed by a further round or by the end are matched one by one. -/
theorem Derives.many_exact {p : Pattern} {K : Cursor → Prop} {n : Nat}
    (hround : ∀ (here mid : Cursor) (us : List (Tree Rule)), here.rest.length ≤ n →
      Derives p here mid us → K mid → Parses p here (some (mid, us)))
    (hnext : ∀ (here mid : Cursor) (us : List (Tree Rule)), Derives p here mid us → K here)
    (h : Derives (.many p) here stop ts) (hn : here.rest.length ≤ n) (hstop : K stop)
    (hend : Parses p stop none) : Parses (.many p) here (some (stop, ts)) := by
  generalize hq : Pattern.many p = q at h
  induction h with
  | done =>
    cases hq
    exact .done hend
  | @again _ mid _ _ _ _ h h' _ ih =>
    cases hq
    have hmid : K mid := by
      rcases Derives.many_iff.mp h' with ⟨-, rfl, -⟩ | ⟨_, _, _, hround', -, -⟩
      · exact hstop
      · exact hnext _ _ _ hround'
    exact .again (hround _ _ _ hn h hmid) (ih (Nat.le_trans h.length_le hn) hstop hend rfl)
  | _ => cases hq

/-- A repetition with blanks between its rounds takes none in front of the first and behind the
last. -/
theorem Derives.spacedStar_iff {p : Pattern} : Derives (.spacedStar p) here stop ts ↔
    stop = here ∧ ts = [] ∨ ∃ mid us vs, Derives p here mid us ∧
      Derives (.many (.counted (.seq .blanks p))) mid stop vs ∧ ts = us ++ vs := by
  simp only [Pattern.spacedStar, Derives.counted_iff, Derives.opt_iff, Derives.seq_iff]

/-- Two parts with blanks between them meet where the blanks end. -/
theorem Derives.spaced_iff {p q : Pattern} : Derives (.seq p (.seq .blanks q)) here stop ts ↔
    ∃ mid us vs, Derives p here mid us ∧ Derives q mid.skipSpaces stop vs ∧ ts = us ++ vs := by
  simp only [Derives.seq_iff, Derives.blanks_iff]
  constructor
  · rintro ⟨mid, us, _, h, ⟨_, _, vs, ⟨rfl, rfl⟩, h', rfl⟩, rfl⟩
    exact ⟨mid, us, _, h, h', rfl⟩
  · rintro ⟨mid, us, vs, h, h', rfl⟩
    exact ⟨mid, us, vs, h, ⟨_, [], vs, ⟨rfl, rfl⟩, h', rfl⟩, rfl⟩

/-- A part behind blanks begins where they end. -/
theorem Derives.afterBlanks_iff {q : Pattern} : Derives (.seq .blanks q) here stop ts ↔
    Derives q here.skipSpaces stop ts := by
  simp only [Derives.seq_iff, Derives.blanks_iff]
  constructor
  · rintro ⟨_, _, vs, ⟨rfl, rfl⟩, h, rfl⟩
    exact h
  · intro h
    exact ⟨_, [], ts, ⟨rfl, rfl⟩, h, rfl⟩

/-- Blanks are passed over before a part is matched. -/
theorem Parses.afterBlanks {q : Pattern} {res : Reading} (h : Parses q here.skipSpaces res) :
    Parses (.seq .blanks q) here res := by
  have := Parses.seq (Parses.blanks here) h
  simpa using this

/-- Two parts right behind each other are matched one after the other. -/
theorem Parses.andThen {p q : Pattern} {mid : Cursor} {us vs : List (Tree Rule)}
    (h : Parses p here (some (mid, us))) (h' : Parses q mid (some (stop, vs))) :
    Parses (.seq p q) here (some (stop, us ++ vs)) := .seq h h'

/-- Two parts with blanks between them are matched one after the other. -/
theorem Parses.spaced {p q : Pattern} {mid : Cursor} {us vs : List (Tree Rule)}
    (h : Parses p here (some (mid, us))) (h' : Parses q mid.skipSpaces (some (stop, vs))) :
    Parses (.seq p (.seq .blanks q)) here (some (stop, us ++ vs)) := .seq h (.afterBlanks h')

/-- Rounds with blanks between them, from a place behind blanks on. -/
theorem Derives.spacedStar_exact {p : Pattern} {K : Cursor → Prop}
    (hround : ∀ (place mid : Cursor) (us : List (Tree Rule)),
      place.rest.length ≤ here.rest.length → Derives p place mid us → K mid →
        Parses p place (some (mid, us)))
    (hnext : ∀ (place mid : Cursor) (us : List (Tree Rule)),
      Derives p place.skipSpaces mid us → K place)
    (h : Derives (.spacedStar p) here stop ts) (hhere : here.skipSpaces = here)
    (hstop : K stop) (hend : Parses p stop.skipSpaces none) :
    Parses (.spacedStar p) here (some (stop, ts)) := by
  rcases Derives.spacedStar_iff.mp h with ⟨rfl, rfl⟩ | ⟨mid, us, vs, hfirst, hmore, rfl⟩
  · rw [hhere] at hend
    exact .counted (.counted (.opt (.seqFail hend)))
  have hmid : K mid := by
    rcases Derives.many_iff.mp hmore with ⟨-, rfl, -⟩ | ⟨_, _, _, hnext', -, -⟩
    · exact hstop
    · exact hnext _ _ _ (Derives.afterBlanks_iff.mp (Derives.counted_iff.mp hnext'))
  have rest := Derives.many_exact (n := mid.rest.length) (K := K)
    (fun place mid' us hplace h hK => .counted (.afterBlanks (hround _ _ _
      (Nat.le_trans place.skipSpaces_length_le (Nat.le_trans hplace hfirst.length_le))
      (Derives.afterBlanks_iff.mp (Derives.counted_iff.mp h)) hK)))
    (fun place mid' us h =>
      hnext _ _ _ (Derives.afterBlanks_iff.mp (Derives.counted_iff.mp h)))
    hmore (Nat.le_refl _) hstop (.counted (.afterBlanks hend))
  exact .counted (.counted (.opt (.seq (hround _ _ _ (Nat.le_refl _) hfirst hmid) (.counted rest))))

/-- A call derives what its rule derives, counted or not. -/
theorem Derives.call_iff {r : Rule} :
    Derives (.call r) here stop ts ↔ Derives (.rule r) here stop ts := by
  unfold Pattern.call
  split
  · exact Derives.counted_iff
  · exact Iff.rfl

/-- A call matches what its rule matches. -/
theorem Parses.call_iff {r : Rule} {res : Reading} :
    Parses (.call r) here res ↔ Parses (.rule r) here res := by
  unfold Pattern.call
  split
  · exact Parses.counted_iff
  · exact Iff.rfl

/-- A rule adds one node. -/
theorem Derives.eq_singleton {r : Rule} (h : Derives (.rule r) here stop ts) :
    ∃ t, ts = [t] := by
  cases h with
  | token => exact ⟨_, rfl⟩
  | rule => exact ⟨_, rfl⟩

/-- The node of a rule lies between the places of its derivation. -/
theorem Derives.span_eq {r : Rule} {t : Tree Rule} (h : Derives (.rule r) here stop [t]) :
    t.span = ⟨here.offset, stop.offset⟩ ∧ t.label = r := by
  generalize hts : [t] = ts at h
  cases h with
  | token | rule =>
    obtain rfl := List.singleton_inj.mp hts
    exact ⟨rfl, rfl⟩

/-- A complete rule is called for what it derives. -/
theorem Rule.Complete.call {r : Rule} (hr : r.Complete here) (h : Derives (.call r) here stop ts)
    (hfollow : ∀ t, r.Follow t stop.rest) : Parses (.call r) here (some (stop, ts)) := by
  have h := Derives.call_iff.mp h
  obtain ⟨t, rfl⟩ := h.eq_singleton
  exact Parses.call_iff.mpr (hr stop t h (hfollow t))

/-- So is every rule behind the place. -/
theorem Rule.CompleteBelow.call {r : Rule} {n : Nat} (below : Rule.CompleteBelow n)
    (hn : here.rest.length < n) (h : Derives (.call r) here stop ts)
    (hfollow : ∀ t, r.Follow t stop.rest) : Parses (.call r) here (some (stop, ts)) :=
  (below here hn r).call h hfollow

/-- Operands with blanks and a link between any two. -/
def Pattern.chained (operand : Rule) (link : Pattern) : Pattern :=
  spaced [call operand, spacedStar (spaced [link, call operand])]

/-- What stands between the operands of a chain of some level: its texts begin as nothing of a
tighter level does, and are nothing that attaches to a primary. -/
structure Pattern.Links (operand : Rule) (link : Pattern) (level : Nat) : Prop where
  exact : ∀ (here stop : Cursor) (ts : List (Tree Rule)),
    Rule.CompleteBelow here.rest.length → Derives link here stop ts →
      Parses link here (some (stop, ts))
  shape : link.mayBeEmpty = false ∧ link.isPlain = true ∧ link.ranked topRank = true
  starts : ∀ c, link.starts c = true →
    isSpace c = false ∧ goesOn level c = true ∧ goesOn (level + 1) c = false
  not_arrow : ∀ (here stop : Cursor) (ts : List (Tree Rule)),
    Derives (.seq link (.seq .blanks (.call operand))) here stop ts → ¬ ['-', '>'] <+: here.rest

namespace Pattern.Links

variable {operand : Rule} {link : Pattern} {level : Nat}

/-- Where a link and an operand stand, nothing goes on with the operand before them. -/
theorem free (hlink : Links operand link level)
    (h : Derives (.seq link (.seq .blanks (.call operand))) here.skipSpaces stop ts) :
    Free (level + 1) here.rest := by
  have harrow := hlink.not_arrow _ _ _ h
  obtain ⟨mid, us, vs, h, -, -⟩ := Derives.seq_iff.mp h
  obtain ⟨c, u, hmove, hc⟩ := h.starts_cons hlink.shape.1
  obtain ⟨hspace, -, hgo⟩ := hlink.starts c hc
  rw [← Cursor.free_skipSpaces]
  rw [hmove.rest_eq, List.cons_append] at harrow ⊢
  exact free_cons hspace hgo harrow

/-- Where nothing goes on with a chain there is no link. -/
theorem none_of_free (hlink : Links operand link level) (h : Free level here.rest) :
    Parses link here.skipSpaces none := by
  refine Parses.none_of_endsBefore hlink.shape (endsBefore_mono (fun c hc => ?_) h.1)
  exact (hlink.starts c hc).2.1

/-- A chain of complete operands is matched as it is derived, if no further link follows. -/
theorem exact_chained (hlink : Links operand link level)
    (hfollow : ∀ t rest, operand.Follow t rest ↔ Free (level + 1) rest)
    (below : Rule.CompleteBelow here.rest.length) (hoperand : operand.Complete here)
    (h : Derives (chained operand link) here stop ts) (hstop : Free level stop.rest) :
    Parses (chained operand link) here (some (stop, ts)) := by
  obtain ⟨mid, us, vs, hfirst, hrounds, rfl⟩ := Derives.spaced_iff.mp (Derives.counted_iff.mp h)
  have hmid : Free (level + 1) mid.rest := by
    rcases Derives.spacedStar_iff.mp hrounds with ⟨hstop', -⟩ | ⟨_, _, _, hround, -, -⟩
    · rw [← Cursor.free_skipSpaces, ← hstop']
      exact hstop.mono (Nat.le_succ level)
    · exact hlink.free (Derives.counted_iff.mp hround)
  refine .counted (.spaced (hoperand.call hfirst fun t => (hfollow t _).mpr hmid) ?_)
  refine Derives.spacedStar_exact (K := fun place => Free (level + 1) place.rest)
    (fun place mid' us' hplace hround hK => ?_)
    (fun place mid' us' hround => hlink.free (Derives.counted_iff.mp hround))
    hrounds mid.skipSpaces_skipSpaces (hstop.mono (Nat.le_succ level))
    (.counted (.seqFail (hlink.none_of_free hstop)))
  have hle : place.rest.length ≤ here.rest.length := Nat.le_trans hplace
    (Nat.le_trans mid.skipSpaces_length_le (Derives.call_iff.mp hfirst).length_le)
  obtain ⟨inner, _, _, hfst, hsnd, rfl⟩ := Derives.spaced_iff.mp (Derives.counted_iff.mp hround)
  have hlt := hfst.length_lt hlink.shape.1
  have hskip := inner.skipSpaces_length_le
  refine .counted (.spaced (hlink.exact _ _ _ (fun p hp => below p (by omega)) hfst) ?_)
  exact below.call (by omega) hsnd fun t => (hfollow t _).mpr hK

end Pattern.Links

end Vimscript
