import Vimscript.Proofs.Grammar.Chain

/-!
# The rules below the tiers

When a derivation is what matching yields, for all rules but the tiers and the primaries: what
stands between brackets, calls and references. What a bracket encloses ends before the bracket
that closes it, so nothing there goes on; names are told from scopes by the colon.
-/

namespace Vimscript

open Pattern Text

variable {here stop : Cursor} {ts : List (Tree Rule)}

/-- Between brackets only what stands there has to be matched. -/
theorem Derives.enclosed_exact {p : Pattern} {opening : List Char} {c : Char}
    (hopening : opening ≠ [])
    (hp : ∀ (place mid : Cursor) (us : List (Tree Rule)),
      place.rest.length < here.rest.length → place.skipSpaces = place → Derives p place mid us →
        mid.skipSpaces.Moves [c] stop → Parses p place (some (mid, us)))
    (h : Derives (spaced [.text opening, p, .text [c]]) here stop ts) :
    Parses (spaced [.text opening, p, .text [c]]) here (some (stop, ts)) := by
  obtain ⟨first, us, _, hfirst, h', rfl⟩ := Derives.spaced_iff.mp (Derives.counted_iff.mp h)
  obtain ⟨mid, vs, ws, hmid, hlast, rfl⟩ := Derives.spaced_iff.mp h'
  obtain ⟨hopen, rfl⟩ := Derives.text_iff.mp hfirst
  obtain ⟨hclose, rfl⟩ := Derives.text_iff.mp hlast
  have hlt := hopen.length_lt hopening
  have hskip := first.skipSpaces_length_le
  refine .counted (.spaced (Parses.text_some_iff.mpr ⟨hopen, rfl⟩) (.spaced ?_
    (Parses.text_some_iff.mpr ⟨hclose, rfl⟩)))
  exact hp _ _ _ (by omega) first.skipSpaces_skipSpaces hmid hclose

/-- A character that closes something or parts two things. -/
def closes (c : Char) : Bool := ")]\x7d:,".toList.contains c

/-- What closes something goes on with no expression, begins no operand and stands in no key. -/
theorem goesOn_of_closes {c : Char} (hc : closes c = true) : goesOn 0 c = false ∧ c ≠ '-' ∧
    startsOperand c = false ∧ isKeyChar c = false := by
  have hc : c ∈ [')', ']', '\x7d', ':', ','] := by simpa [closes] using hc
  simp only [List.mem_cons, List.not_mem_nil, or_false] at hc
  rcases hc with rfl | rfl | rfl | rfl | rfl <;> decide

/-- In front of a closing character, and of blanks before it, everything is free to follow. -/
theorem Cursor.Moves.free_of_closes {c : Char} {u : List Char}
    (h : here.skipSpaces.Moves (c :: u) stop) (hc : closes c = true) : Free 0 here.rest :=
  Cursor.free_of_moves h (goesOn_of_closes hc).1 (goesOn_of_closes hc).2.1

/-- What stands in front of a closing character is followed by what may follow. -/
theorem Cursor.Moves.none_of_closes {p : Pattern} {c : Char} {u : List Char}
    (hp : p.mayBeEmpty = false ∧ p.isPlain = true ∧ p.ranked topRank = true)
    (h : here.Moves (c :: u) stop) (hc : p.starts c = false) : Parses p here none := by
  refine Parses.none_of_endsBefore hp ?_
  rw [h.rest_eq, List.cons_append]
  exact endsBefore_cons.mpr hc

namespace Parses

/-- An alternative is taken where all before it fail. -/
theorem firstOf_at {alternatives : List Pattern} {p : Pattern} (n : Nat)
    (hp : alternatives[n]? = some p)
    (hbefore : ∀ q ∈ alternatives.take n, Parses q here none)
    (h : Parses p here (some (stop, ts))) :
    Parses (firstOf alternatives) here (some (stop, ts)) := by
  induction n generalizing alternatives with
  | zero =>
    match alternatives, hp with
    | [q], hp =>
      obtain rfl := Option.some.inj hp
      exact h
    | q :: r :: rest, hp =>
      obtain rfl := Option.some.inj hp
      exact .left h
  | succ n ih =>
    match alternatives, hp with
    | q :: r :: rest, hp =>
      have hrest : Parses (firstOf (r :: rest)) here (some (stop, ts)) :=
        ih hp fun q hq => hbefore q (List.mem_cons_of_mem _ hq)
      exact .right (hbefore q List.mem_cons_self) hrest

/-- Alternatives that begin with other characters fail. -/
theorem none_of_starts {before : List Pattern} {c : Char} {u : List Char} {place : Cursor}
    (h : here.Moves (c :: u) place)
    (hbefore : ∀ q ∈ before, (q.mayBeEmpty = false ∧ q.isPlain = true ∧
      q.ranked topRank = true) ∧ q.starts c = false) : ∀ q ∈ before, Parses q here none :=
  fun q hq => h.none_of_closes (hbefore q hq).1 (hbefore q hq).2

end Parses

/-- Parts between commas, closed by a character with which no part begins. -/
theorem Derives.commaList_exact {part : Rule} {c : Char} {last : Cursor}
    (hpart : part.mayBeEmpty = false) (hfollow : ∀ t rest, part.Follow t rest ↔ Free 0 rest)
    (hc : closes c = true ∧ c ≠ ',') (hstarts : part.starts c = false ∧ part.starts ',' = false)
    (hthis : part.Complete here) (below : Rule.CompleteBelow here.rest.length)
    (hhere : here.skipSpaces = here) (h : Derives (commaList part) here stop ts)
    (hlast : stop.skipSpaces.Moves [c] last) :
    Parses (commaList part) here (some (stop, ts)) := by
  have shape : (call part).mayBeEmpty = false ∧ (call part).isPlain = true ∧
      (call part).ranked topRank = true := by
    have hrank := part.rank_lt_topRank
    unfold Pattern.call
    split <;> exact ⟨hpart, rfl, decide_eq_true hrank⟩
  have starts (d : Char) : (call part).starts d = part.starts d := by
    unfold Pattern.call
    split <;> rfl
  rcases Derives.opt_iff.mp (Derives.counted_iff.mp h) with ⟨rfl, rfl⟩ | h
  · rw [hhere] at hlast
    exact .counted (.opt (.counted (.seqFail
      (hlast.none_of_closes shape ((starts c).trans hstarts.1)))))
  obtain ⟨mid, us, _, hfirst, h', rfl⟩ := Derives.spaced_iff.mp (Derives.counted_iff.mp h)
  obtain ⟨mid', vs, ws, hrounds, hcomma, rfl⟩ := Derives.spaced_iff.mp h'
  have next (place mid : Cursor) (us : List (Tree Rule))
      (h : Derives (spaced [.token ",", call part]) place.skipSpaces mid us) :
      Free 0 place.rest := by
    obtain ⟨_, _, _, h, -, -⟩ := Derives.spaced_iff.mp (Derives.counted_iff.mp h)
    exact (Derives.text_iff.mp h).1.free_of_closes rfl
  -- A comma behind the last part is no round, since no part follows it.
  have ending : Free 0 mid'.rest ∧
      Parses (spaced [.token ",", call part]) mid'.skipSpaces none ∧
      Parses (.optional (.token ",")) mid'.skipSpaces (some (stop, ws)) := by
    rcases Derives.opt_iff.mp (Derives.counted_iff.mp hcomma) with ⟨rfl, rfl⟩ | hcomma
    · rw [Cursor.skipSpaces_skipSpaces] at hlast
      have hnone : Parses (.token ",") mid'.skipSpaces none := by
        rw [Parses.token_none_iff, hlast.rest_eq]
        rintro ⟨rest, hrest⟩
        exact hc.2 (List.cons.inj hrest).1.symm
      exact ⟨hlast.free_of_closes hc.1, .counted (.seqFail hnone), .counted (.opt hnone)⟩
    · obtain ⟨hmove, rfl⟩ := Derives.text_iff.mp hcomma
      have hsome : Parses (.token ",") mid'.skipSpaces (some (stop, [])) :=
        Parses.token_some_iff.mpr ⟨hmove, rfl⟩
      exact ⟨hmove.free_of_closes rfl, .counted (.seq hsome (.afterBlanks
        (hlast.none_of_closes shape ((starts c).trans hstarts.1)))), .counted (.opt hsome)⟩
  have hmid : Free 0 mid.rest := by
    rcases Derives.spacedStar_iff.mp hrounds with ⟨hstop, -⟩ | ⟨_, _, _, hround, -, -⟩
    · rw [← Cursor.free_skipSpaces, ← hstop]
      exact ending.1
    · exact next _ _ _ hround
  refine .counted (.opt (.counted (.spaced (hthis.call hfirst fun t => (hfollow t _).mpr hmid)
    (.spaced ?_ ending.2.2))))
  refine Derives.spacedStar_exact (K := fun place => Free 0 place.rest)
    (fun place mid'' us' hplace hround hK => ?_) next hrounds mid.skipSpaces_skipSpaces
    ending.1 ending.2.1
  have hle : place.rest.length ≤ here.rest.length := Nat.le_trans hplace
    (Nat.le_trans mid.skipSpaces_length_le (Derives.call_iff.mp hfirst).length_le)
  obtain ⟨inner, _, _, hfst, hsnd, rfl⟩ := Derives.spaced_iff.mp (Derives.counted_iff.mp hround)
  obtain ⟨hmove, rfl⟩ := Derives.text_iff.mp hfst
  have hlt := hmove.length_lt (by decide)
  have hskip := inner.skipSpaces_length_le
  exact .counted (.spaced (Parses.token_some_iff.mpr ⟨hmove, rfl⟩)
    (below.call (by omega) hsnd fun t => (hfollow t _).mpr hK))

namespace Rule

/-- A rule is complete where its pattern is. -/
theorem complete_of_pattern {r : Rule} (hr : r.isToken = false)
    (h : ∀ (stop : Cursor) (children : List (Tree Rule)), Derives r.pattern here stop children →
      r.Settled children stop.rest → r.Follow (r.node here stop children) stop.rest →
        Parses r.pattern here (some (stop, children))) : r.Complete here := by
  intro stop t hderives hfollow
  obtain ⟨children, hpattern, hsettled, hnode⟩ := (Derives.rule_iff hr).mp hderives
  obtain rfl := List.singleton_inj.mp hnode
  exact Parses.rule_some_iff.mpr ⟨children, h _ _ hpattern hsettled hfollow, rfl⟩

/-- A token is complete, since it derives what it matches. -/
theorem complete_of_token {r : Rule} (hr : r.isToken = true) : r.Complete here := by
  intro stop t hderives _
  exact (Parses.token_iff hr).mpr ((Derives.token_iff hr).mp hderives)

/-- An argument left out takes nothing. -/
theorem callArg_follow {t : Tree Rule} {c : Char} {u : List Char} {last : Cursor}
    (h : Derives (.rule callArg) here stop [t]) (hhere : here.skipSpaces = here)
    (hnext : stop.skipSpaces.Moves (c :: u) last) (hc : closes c = true) :
    callArg.Follow t stop.rest := by
  refine ⟨hnext.free_of_closes hc, fun hchildren => ?_⟩
  obtain ⟨children, hpattern, -, hnode⟩ := (Derives.rule_iff rfl).mp h
  obtain rfl := List.singleton_inj.mp hnode
  obtain rfl : children = [] := hchildren
  rcases Derives.opt_iff.mp (Derives.counted_iff.mp hpattern) with ⟨rfl, -⟩ | hexpr
  · rw [hhere] at hnext
    rw [hnext.rest_eq, List.cons_append]
    exact endsBefore_cons.mpr (goesOn_of_closes hc).2.2.1
  · obtain ⟨t, hnil⟩ := (Derives.call_iff.mp hexpr).eq_singleton
    cases hnil

/-- An argument is complete, and none is left out where an expression begins. -/
theorem callArg_complete (hexpr : expr.Complete here) : callArg.Complete here := by
  refine complete_of_pattern rfl fun stop children h _ hfollow => ?_
  rcases Derives.opt_iff.mp (Derives.counted_iff.mp h) with ⟨rfl, rfl⟩ | h
  · have hnone : Parses (.rule expr) stop none :=
      Parses.none_of_endsBefore ⟨rfl, rfl, rfl⟩ (hfollow.2 rfl)
    exact .counted (.opt hnone)
  · exact .counted (.opt (hexpr.call h fun _ => hfollow.1))

/-- The parameters of a lambda are complete in front of its arrow. -/
theorem lambdaParams_complete : lambdaParams.Complete here := by
  refine complete_of_pattern rfl fun stop children h _ hfollow => ?_
  obtain ⟨rest, hfollow⟩ : ['-', '>'] <+: stop.skipSpaces.rest := hfollow
  rcases Derives.opt_iff.mp (Derives.counted_iff.mp h) with ⟨rfl, rfl⟩ | h
  · have hends : EndsBefore isNameStart stop.rest := by
      by_cases heq : stop.skipSpaces = stop
      · rw [heq] at hfollow
        rw [← hfollow]
        exact endsBefore_cons.mpr (by decide)
      · exact Cursor.endsBefore_of_skipSpaces_ne heq (by decide)
    have hnone : Parses (call lambdaParam) stop none :=
      Parses.none_of_endsBefore ⟨rfl, rfl, rfl⟩ hends
    exact .counted (.opt (.counted (.seqFail hnone)))
  · obtain ⟨mid, _, _, hfirst, hrounds, rfl⟩ := Derives.spaced_iff.mp (Derives.counted_iff.mp h)
    refine .counted (.opt (.counted (.spaced
      ((complete_of_token rfl).call hfirst fun _ => trivial) ?_)))
    have hend : Parses (spaced [.token ",", call lambdaParam]) stop.skipSpaces none := by
      refine .counted (.seqFail (Parses.token_none_iff.mpr ?_))
      rw [← hfollow]
      rintro ⟨more, hmore⟩
      cases (List.cons.inj hmore).1
    refine Derives.spacedStar_exact (K := fun _ => True) (fun place mid' us _ hround _ => ?_)
      (fun _ _ _ _ => trivial) hrounds mid.skipSpaces_skipSpaces trivial hend
    obtain ⟨inner, _, _, hfst, hsnd, rfl⟩ := Derives.spaced_iff.mp (Derives.counted_iff.mp hround)
    obtain ⟨hcomma, rfl⟩ := Derives.text_iff.mp hfst
    exact .counted (.spaced (Parses.token_some_iff.mpr ⟨hcomma, rfl⟩)
      ((complete_of_token rfl).call hsnd fun _ => trivial))

/-- A name before a colon that no name holds is the one character in front of it. -/
theorem name_before_colon {starts accepts : Char → Bool} {u rest more : List Char} {c : Char}
    (haccepts : accepts ':' = false) (hu : IsName starts accepts u)
    (h : u ++ rest = c :: ':' :: more) : u = [c] ∧ rest = ':' :: more := by
  obtain ⟨d, v, rfl, -, hv⟩ := hu
  obtain ⟨rfl, htail⟩ := List.cons.inj h
  cases v with
  | nil => exact ⟨rfl, htail⟩
  | cons e v =>
    obtain ⟨rfl, -⟩ := List.cons.inj htail
    rw [List.all_cons, haccepts] at hv
    cases hv

/-- An option is complete: a scope is left out only where the name is not one letter before a
colon. -/
theorem option_complete : option.Complete here := by
  refine complete_of_pattern rfl fun stop children h hsettled _ => ?_
  obtain ⟨first, _, _, hopen, hinside, rfl⟩ := Derives.seq_iff.mp (Derives.counted_iff.mp h)
  obtain ⟨mid, us, _, hscope, hname, rfl⟩ := Derives.seq_iff.mp hinside
  obtain ⟨hmove, rfl⟩ := Derives.text_iff.mp hopen
  obtain ⟨u, hnameMove, ⟨hu, hend⟩, rfl⟩ := (Derives.token_iff rfl).mp hname
  refine .counted (.seq (Parses.token_some_iff.mpr ⟨hmove, rfl⟩) (.seq ?_
    ((Parses.token_iff (r := .optionName) rfl).mpr ⟨u, hnameMove, ⟨hu, hend⟩, rfl⟩)))
  rcases Derives.opt_iff.mp (Derives.counted_iff.mp hscope) with ⟨rfl, rfl⟩ | hscope
  · have hnone : Parses (.rule optionScope) mid none := by
      refine Rule.parses_none fun place us hsome => ?_
      obtain ⟨v, hscopeMove, hv, -⟩ := (Parses.token_iff rfl).mp hsome
      have hrest := hnameMove.rest_eq.symm.trans hscopeMove.rest_eq
      obtain ⟨c, hc, rfl⟩ : ∃ c, (c = 'g' ∨ c = 'l') ∧ v = [c, ':'] := by
        rcases hv with rfl | rfl
        · exact ⟨'g', .inl rfl, rfl⟩
        · exact ⟨'l', .inr rfl, rfl⟩
      obtain ⟨rfl, hcolon⟩ := name_before_colon rfl hu hrest
      have hsettled : EndsBefore (· == ':') stop.rest := by
        refine hsettled ?_
        rw [hnameMove.node_text]
        rcases hc with rfl | rfl
        · exact .inl rfl
        · exact .inr rfl
      rw [hcolon] at hsettled
      cases endsBefore_cons.mp hsettled
    exact .counted (.opt hnone)
  · obtain ⟨v, hscopeMove, hv, rfl⟩ := (Derives.token_iff rfl).mp hscope
    exact .counted (.opt ((Parses.token_iff (r := .optionScope) rfl).mpr ⟨v, hscopeMove, hv, rfl⟩))

/-- An environment variable is complete. -/
theorem envVariable_complete : envVariable.Complete here := by
  refine complete_of_pattern rfl fun stop children h _ _ => ?_
  obtain ⟨mid, _, _, hopen, hname, rfl⟩ := Derives.seq_iff.mp (Derives.counted_iff.mp h)
  obtain ⟨hmove, rfl⟩ := Derives.text_iff.mp hopen
  exact .counted (.seq (Parses.token_some_iff.mpr ⟨hmove, rfl⟩)
    ((complete_of_token rfl).call hname fun _ => trivial))

/-- A variable is complete: with a scope it is tried first, and no name without one holds its
colon. -/
theorem variableRef_complete : variableRef.Complete here := by
  refine complete_of_pattern rfl fun stop children h hsettled _ => ?_
  rcases Derives.choice_iff.mp h with h | h
  · obtain ⟨mid, _, _, hscope, hname, rfl⟩ := Derives.seq_iff.mp (Derives.counted_iff.mp h)
    exact .left (.counted (.seq ((complete_of_token rfl).call hscope fun _ => trivial)
      ((complete_of_token rfl).call hname fun _ => trivial)))
  · obtain ⟨u, hnameMove, ⟨hu, hend⟩, rfl⟩ := (Derives.token_iff rfl).mp h
    refine .right ?_ ((Parses.token_iff (r := .variableName) rfl).mpr
      ⟨u, hnameMove, ⟨hu, hend⟩, rfl⟩)
    refine Pattern.parses_none rfl fun place us hsome => ?_
    obtain ⟨mid, _, _, hscope, hname, -⟩ := Parses.seq_some_iff.mp (Parses.counted_iff.mp hsome)
    obtain ⟨_, hscopeMove, ⟨c, rfl, hc⟩, -⟩ := (Parses.token_iff rfl).mp hscope
    obtain ⟨v, hmove, ⟨hrun, -⟩, -⟩ := (Parses.token_iff rfl).mp hname
    obtain ⟨d, w, rfl, hd⟩ := starts_of_isRun hrun
    obtain ⟨rfl, hcolon⟩ := name_before_colon rfl hu
      (hnameMove.rest_eq.symm.trans hscopeMove.rest_eq)
    have := hsettled c hnameMove.node_text hc d _ (hcolon.trans (by rw [hmove.rest_eq]; rfl))
    rw [hd] at this
    cases this

variable (below : CompleteBelow here.rest.length)

include below

/-- The middle of a conditional is complete, since a colon closes it. -/
theorem ternaryThen_complete : ternaryThen.Complete here := by
  refine complete_of_pattern rfl fun stop children h _ _ => ?_
  exact Derives.enclosed_exact (by decide) (fun place mid us hplace _ hd hmove =>
    below.call hplace hd fun t => hmove.free_of_closes rfl) h

/-- A rule for parts between commas and in brackets is complete where its parts are. -/
theorem complete_of_commaList {r part : Rule} {opening : List Char} {c : Char}
    (hr : r.isToken = false)
    (hpattern : r.pattern = spaced [.text opening, commaList part, .text [c]])
    (hopening : opening ≠ []) (hpart : part.mayBeEmpty = false)
    (hfollow : ∀ t rest, part.Follow t rest ↔ Free 0 rest) (hc : closes c = true ∧ c ≠ ',')
    (hstarts : part.starts c = false ∧ part.starts ',' = false) : r.Complete here := by
  refine complete_of_pattern hr fun stop children h _ _ => ?_
  rw [hpattern] at h ⊢
  exact Derives.enclosed_exact hopening (fun place mid us hplace hskip hd hmove =>
    Derives.commaList_exact hpart hfollow hc hstarts
      (below place hplace _) (fun p hp => below p (by omega)) hskip hd hmove) h

/-- A list is complete, since its bracket closes it. -/
theorem list_complete : list.Complete here :=
  complete_of_commaList below rfl rfl (by decide) rfl (fun _ _ => Iff.rfl) (by decide) (by decide)

/-- A dictionary is complete, since its brace closes it. -/
theorem dict_complete : dict.Complete here :=
  complete_of_commaList below rfl rfl (by decide) rfl (fun _ _ => Iff.rfl) (by decide) (by decide)

/-- So is a literal dictionary. -/
theorem literalDict_complete : literalDict.Complete here :=
  complete_of_commaList below rfl rfl (by decide) rfl (fun _ _ => Iff.rfl) (by decide) (by decide)

/-- Arguments are complete: the commas and the parenthesis part them, whether there are any or
not. -/
theorem callArgs_complete : callArgs.Complete here := by
  refine complete_of_pattern rfl fun stop children h _ _ => ?_
  obtain ⟨first, _, _, hopen, hinside, rfl⟩ := Derives.spaced_iff.mp (Derives.counted_iff.mp h)
  obtain ⟨mid, us, _, harg, hafter, rfl⟩ := Derives.spaced_iff.mp hinside
  obtain ⟨mid', vs, _, hrounds, hlast, rfl⟩ := Derives.spaced_iff.mp hafter
  obtain ⟨hmove, rfl⟩ := Derives.text_iff.mp hopen
  obtain ⟨hclose, rfl⟩ := Derives.text_iff.mp hlast
  have argument {place mid last : Cursor} {us : List (Tree Rule)} {c : Char} {u : List Char}
      (hplace : place.rest.length < here.rest.length) (hskip : place.skipSpaces = place)
      (h : Derives (call callArg) place mid us) (hnext : mid.skipSpaces.Moves (c :: u) last)
      (hc : closes c = true) : Parses (call callArg) place (some (mid, us)) := by
    have h := Derives.call_iff.mp h
    obtain ⟨t, rfl⟩ := h.eq_singleton
    exact Parses.call_iff.mpr (below place hplace _ mid t h (callArg_follow h hskip hnext hc))
  have next (place mid : Cursor) (us : List (Tree Rule))
      (h : Derives (spaced [.token ",", call callArg]) place.skipSpaces mid us) :
      ∃ c u last, place.skipSpaces.Moves (c :: u) last ∧ closes c = true := by
    obtain ⟨_, _, _, h, -, -⟩ := Derives.spaced_iff.mp (Derives.counted_iff.mp h)
    exact ⟨',', [], _, (Derives.text_iff.mp h).1, rfl⟩
  have hlt := hmove.length_lt (by decide)
  have hskip := first.skipSpaces_length_le
  have hmid : ∃ c u last, mid.skipSpaces.Moves (c :: u) last ∧ closes c = true := by
    rcases Derives.spacedStar_iff.mp hrounds with ⟨rfl, -⟩ | ⟨_, _, _, hround, -, -⟩
    · rw [Cursor.skipSpaces_skipSpaces] at hclose
      exact ⟨')', [], _, hclose, rfl⟩
    · exact next _ _ _ hround
  obtain ⟨c, u, last, hnext, hc⟩ := hmid
  refine .counted (.spaced (Parses.token_some_iff.mpr ⟨hmove, rfl⟩)
    (.spaced (argument (by omega) first.skipSpaces_skipSpaces harg hnext hc)
      (.spaced ?_ (Parses.token_some_iff.mpr ⟨hclose, rfl⟩))))
  have hend : Parses (spaced [.token ",", call callArg]) mid'.skipSpaces none := by
    refine .counted (.seqFail (Parses.token_none_iff.mpr ?_))
    rw [hclose.rest_eq]
    rintro ⟨rest, hrest⟩
    cases (List.cons.inj hrest).1
  refine Derives.spacedStar_exact
    (K := fun place => ∃ c u last, place.skipSpaces.Moves (c :: u) last ∧ closes c = true)
    (fun place mid'' us' hplace hround hK => ?_) next hrounds mid.skipSpaces_skipSpaces
    ⟨')', [], _, hclose, rfl⟩ hend
  obtain ⟨inner, _, _, hfst, hsnd, rfl⟩ := Derives.spaced_iff.mp (Derives.counted_iff.mp hround)
  obtain ⟨hcomma, rfl⟩ := Derives.text_iff.mp hfst
  obtain ⟨c, u, last, hnext, hc⟩ := hK
  have hle := mid.skipSpaces_length_le
  have hargle := (Derives.call_iff.mp harg).length_le
  have hinner := hcomma.length_le
  have hskip' := inner.skipSpaces_length_le
  exact .counted (.spaced (Parses.token_some_iff.mpr ⟨hcomma, rfl⟩)
    (argument (by omega) inner.skipSpaces_skipSpaces hsnd hnext hc))

/-- An entry is complete where its key is. -/
theorem complete_of_entry {r key : Rule} (hr : r.isToken = false)
    (hpattern : r.pattern = spaced [call key, .token ":", call expr])
    (hfollow : ∀ t rest, r.Follow t rest → Free 0 rest)
    (hkey : key.Complete here) (hkeyFollow : ∀ t rest, Free 0 rest → key.Follow t rest) :
    r.Complete here := by
  refine complete_of_pattern hr fun stop children h _ hafter => ?_
  rw [hpattern] at h ⊢
  obtain ⟨mid, _, _, hfirst, hrest, rfl⟩ := Derives.spaced_iff.mp (Derives.counted_iff.mp h)
  obtain ⟨mid', _, _, hcolon, hvalue, rfl⟩ := Derives.spaced_iff.mp hrest
  obtain ⟨hmove, rfl⟩ := Derives.text_iff.mp hcolon
  have hlt := hmove.length_lt (by decide)
  have hskip := mid.skipSpaces_length_le
  have hskip' := mid'.skipSpaces_length_le
  have hle := (Derives.call_iff.mp hfirst).length_le
  exact .counted (.spaced (hkey.call hfirst fun t => hkeyFollow t _ (hmove.free_of_closes rfl))
    (.spaced (Parses.token_some_iff.mpr ⟨hmove, rfl⟩)
      (below.call (by omega) hvalue fun _ => hfollow _ _ hafter)))

/-- An entry is complete if its key is. -/
theorem dictEntry_complete (hexpr : expr.Complete here) : dictEntry.Complete here :=
  complete_of_entry below rfl rfl (fun _ _ => id) hexpr fun _ _ => id

/-- An entry with a plain key is complete. -/
theorem literalDictEntry_complete : literalDictEntry.Complete here :=
  complete_of_entry below rfl rfl (fun _ _ => id) (complete_of_token rfl) fun _ _ _ => trivial

/-- The separator of a slice and its upper bound, before the closing bracket. -/
theorem slice_exact {last : Cursor}
    (h : Derives (spaced [call sliceSep, .optional (call expr)]) here stop ts)
    (hlast : stop.skipSpaces.Moves [']'] last) :
    Parses (spaced [call sliceSep, .optional (call expr)]) here (some (stop, ts)) := by
  obtain ⟨mid, _, _, hsep, hupper, rfl⟩ := Derives.spaced_iff.mp (Derives.counted_iff.mp h)
  have hlt := (Derives.call_iff.mp hsep).length_lt rfl
  have hskip := mid.skipSpaces_length_le
  refine .counted (.spaced ((complete_of_token rfl).call hsep fun _ => trivial) (.counted ?_))
  rcases Derives.opt_iff.mp (Derives.counted_iff.mp hupper) with ⟨rfl, rfl⟩ | hupper
  · rw [Cursor.skipSpaces_skipSpaces] at hlast
    have hnone : Parses (call expr) mid.skipSpaces none :=
      hlast.none_of_closes ⟨rfl, rfl, rfl⟩ (by decide)
    exact .opt hnone
  · exact .opt (below.call (by omega) hupper fun _ => hlast.free_of_closes rfl)

/-- A subscript is complete: an expression or a separator comes first, and each bound ends before
what closes it. -/
theorem subscript_complete : subscript.Complete here := by
  refine complete_of_pattern rfl fun stop children h _ _ => ?_
  refine Derives.enclosed_exact (by decide) (fun place mid us hplace hskip hd hlast => ?_) h
  have belowPlace : CompleteBelow place.rest.length := fun p hp => below p (by omega)
  rcases Derives.choice_iff.mp hd with hd | hd
  · obtain ⟨inner, _, _, hlower, hslice, rfl⟩ := Derives.spaced_iff.mp (Derives.counted_iff.mp hd)
    have hle := (Derives.call_iff.mp hlower).length_le
    have hskip' := inner.skipSpaces_length_le
    have belowInner : CompleteBelow inner.skipSpaces.rest.length := fun p hp => below p (by omega)
    rcases Derives.opt_iff.mp (Derives.counted_iff.mp hslice) with ⟨rfl, rfl⟩ | hslice
    · rw [Cursor.skipSpaces_skipSpaces] at hlast
      have hnone : Parses (spaced [call sliceSep, .optional (call expr)]) inner.skipSpaces none :=
        hlast.none_of_closes ⟨rfl, rfl, rfl⟩ (by decide)
      exact .left (.counted (.spaced
        (below.call hplace hlower fun _ => hlast.free_of_closes rfl) (.counted (.opt hnone))))
    · have hsep := hslice
      obtain ⟨_, _, _, hsep, -, -⟩ := Derives.spaced_iff.mp (Derives.counted_iff.mp hsep)
      obtain ⟨_, hcolon, rfl, -⟩ := (Derives.token_iff rfl).mp (Derives.call_iff.mp hsep)
      exact .left (.counted (.spaced
        (below.call hplace hlower fun _ => hcolon.free_of_closes rfl)
        (.counted (.opt (slice_exact belowInner hslice hlast)))))
  · obtain ⟨_, _, _, hsep, -, -⟩ := Derives.spaced_iff.mp (Derives.counted_iff.mp hd)
    obtain ⟨_, hcolon, rfl, -⟩ := (Derives.token_iff rfl).mp (Derives.call_iff.mp hsep)
    have hnone : Parses (call expr) place none :=
      hcolon.none_of_closes ⟨rfl, rfl, rfl⟩ (by decide)
    exact .right (.counted (.seqFail hnone)) (slice_exact belowPlace hd hlast)

/-- A method is complete: a lambda begins with a brace and a call by name does not. -/
theorem methodCall_complete : methodCall.Complete here := by
  refine complete_of_pattern rfl fun stop children h _ _ => ?_
  obtain ⟨mid, _, _, harrow, hcall, rfl⟩ := Derives.spaced_iff.mp (Derives.counted_iff.mp h)
  obtain ⟨hmove, rfl⟩ := Derives.text_iff.mp harrow
  have hlt := hmove.length_lt (by decide)
  have hskip := mid.skipSpaces_length_le
  refine .counted (.spaced (Parses.token_some_iff.mpr ⟨hmove, rfl⟩) ?_)
  rcases Derives.choice_iff.mp hcall with hcall | hcall
  · obtain ⟨inner, _, _, hlambda, hargs, rfl⟩ := Derives.spaced_iff.mp (Derives.counted_iff.mp hcall)
    have hle := (Derives.call_iff.mp hlambda).length_le
    have hskip' := inner.skipSpaces_length_le
    exact .left (.counted (.spaced (below.call (by omega) hlambda fun _ => trivial)
      (below.call (by omega) hargs fun _ => trivial)))
  · obtain ⟨c, u, hname, hc⟩ := hcall.starts_cons rfl
    have hnone : Parses (call lambda) mid.skipSpaces none := by
      refine hname.none_of_closes ⟨rfl, rfl, rfl⟩ ?_
      cases hbrace : (call lambda).starts c with
      | false => rfl
      | true =>
        rw [eq_of_beq hbrace] at hc
        cases hc
    exact .right (.counted (.seqFail hnone)) (below.call (by omega) hcall fun _ => trivial)

/-- A lambda is complete: its arrow ends the parameters and its brace the body. -/
theorem lambda_complete : lambda.Complete here := by
  refine complete_of_pattern rfl fun stop children h _ _ => ?_
  obtain ⟨first, _, _, hopen, hinside, rfl⟩ := Derives.spaced_iff.mp (Derives.counted_iff.mp h)
  obtain ⟨params, _, _, hparams, hafter, rfl⟩ := Derives.spaced_iff.mp hinside
  obtain ⟨arrow, _, _, harrow, hafter', rfl⟩ := Derives.spaced_iff.mp hafter
  obtain ⟨body, _, _, hbody, hlast, rfl⟩ := Derives.spaced_iff.mp hafter'
  obtain ⟨hmove, rfl⟩ := Derives.text_iff.mp hopen
  obtain ⟨hmove', rfl⟩ := Derives.text_iff.mp harrow
  obtain ⟨hclose, rfl⟩ := Derives.text_iff.mp hlast
  have hlt := hmove.length_lt (by decide)
  have hskip := first.skipSpaces_length_le
  have hle := (Derives.call_iff.mp hparams).length_le
  have hskip' := params.skipSpaces_length_le
  have hle' := hmove'.length_le
  have hskip'' := arrow.skipSpaces_length_le
  exact .counted (.spaced (Parses.token_some_iff.mpr ⟨hmove, rfl⟩)
    (.spaced (lambdaParams_complete.call hparams fun _ => ⟨_, hmove'.rest_eq.symm⟩)
      (.spaced (Parses.token_some_iff.mpr ⟨hmove', rfl⟩)
        (.spaced (below.call (by omega) hbody fun _ => hclose.free_of_closes rfl)
          (Parses.token_some_iff.mpr ⟨hclose, rfl⟩)))))

/-- A call by name is complete: no scope is one of its name, since the arguments open behind
that. -/
theorem functionCall_complete : functionCall.Complete here := by
  refine complete_of_pattern rfl fun stop children h _ _ => ?_
  obtain ⟨inner, _, _, hscope, hcall, rfl⟩ := Derives.seq_iff.mp (Derives.counted_iff.mp h)
  obtain ⟨mid, _, _, hname, hargs, rfl⟩ := Derives.seq_iff.mp hcall
  obtain ⟨u, hnameMove, ⟨hu, hend⟩, rfl⟩ := (Derives.token_iff rfl).mp hname
  obtain ⟨c, v, hopen, hparen⟩ := hargs.starts_cons rfl
  obtain rfl : c = '(' := eq_of_beq hparen
  have hlt := (Derives.call_iff.mp hname).length_lt rfl
  have hle := (Derives.counted_iff.mp hscope).length_le
  have hcalled := (Parses.token_iff (r := .functionName) rfl).mpr ⟨u, hnameMove, ⟨hu, hend⟩, rfl⟩
  refine .counted (.seq ?_ (.seq hcalled (below.call (by omega) hargs fun _ => trivial)))
  rcases Derives.opt_iff.mp (Derives.counted_iff.mp hscope) with ⟨rfl, rfl⟩ | hscope
  · have hnone : Parses (.rule scope) inner none := by
      refine Rule.parses_none fun place us hsome => ?_
      obtain ⟨_, hscopeMove, ⟨d, rfl, -⟩, -⟩ := (Parses.token_iff rfl).mp hsome
      obtain ⟨-, hcolon⟩ := name_before_colon rfl hu
        (hnameMove.rest_eq.symm.trans hscopeMove.rest_eq)
      cases (List.cons.inj (hopen.rest_eq.symm.trans hcolon)).1
    exact .counted (.opt hnone)
  · obtain ⟨v, hscopeMove, hv, rfl⟩ := (Derives.token_iff rfl).mp hscope
    exact .counted (.opt ((Parses.token_iff (r := .scope) rfl).mpr ⟨v, hscopeMove, hv, rfl⟩))

/-- A lambda with arguments is complete, and without any nothing that opens some follows it. -/
theorem lambdaExpr_complete : lambdaExpr.Complete here := by
  refine complete_of_pattern rfl fun stop children h _ hfollow => ?_
  obtain ⟨mid, us, _, hlambda, hargs, rfl⟩ := Derives.seq_iff.mp (Derives.counted_iff.mp h)
  have hlt := (Derives.call_iff.mp hlambda).length_lt rfl
  refine .counted (.andThen ((lambda_complete below).call hlambda fun _ => trivial) ?_)
  rcases Derives.opt_iff.mp (Derives.counted_iff.mp hargs) with ⟨rfl, rfl⟩ | hargs
  · obtain ⟨t, rfl⟩ := (Derives.call_iff.mp hlambda).eq_singleton
    have hnone : Parses (call callArgs) stop none :=
      Parses.none_of_endsBefore ⟨rfl, rfl, rfl⟩ (hfollow rfl)
    exact .counted (.opt hnone)
  · exact .counted (.opt (below.call (by omega) hargs fun _ => trivial))

end Rule

end Vimscript
