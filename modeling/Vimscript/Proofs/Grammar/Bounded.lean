import Vimscript.Proofs.Grammar.Stalls

/-!
# Matching ends by itself

No limit is needed for matching to end. A rule that is entered while another is matched lies further
on or has a smaller rank, so what is left of the source and the rank together count the entries that
can still be open: thirteen for each character and for the end. Repetitions repeat only what consumes
something. The main result, `Rule.expression_ends`, says so of every source.
-/

namespace Vimscript

open Text

/-- A text that is not empty leads to a greater offset. -/
theorem Cursor.Moves.offset_lt {here stop : Cursor} {u : List Char} (h : here.Moves u stop)
    (hu : u ≠ []) : here.offset < stop.offset := by
  have hpos : 0 < byteLength u := Nat.pos_of_ne_zero fun hzero => hu (byteLength_eq_zero_iff.mp hzero)
  rw [h.offset_eq]
  omega

namespace Pattern

/-- The patterns that are repeated in a pattern. -/
def repeated : Pattern → List Pattern
  | many p => p :: p.repeated
  | seq p q | choice p q => p.repeated ++ q.repeated
  | opt p | not p | counted p => p.repeated
  | _ => []

/-- Where rules have ranks no pattern is repeated that may match nothing. -/
theorem mayBeEmpty_of_mem_repeated {p q : Pattern} {bound : Nat} (hp : p.ranked bound = true)
    (hq : q ∈ p.repeated) : q.mayBeEmpty = false := by
  induction p generalizing bound with
  | seq p p' ih ih' | choice p p' ih ih' =>
    obtain ⟨hp, hp'⟩ := Bool.and_eq_true_iff.mp hp
    rcases List.mem_append.mp hq with hq | hq
    · exact ih hp hq
    · exact ih' hp' hq
  | many p ih =>
    obtain ⟨hempty, hp⟩ := Bool.and_eq_true_iff.mp hp
    rcases List.mem_cons.mp hq with rfl | hq
    · simpa using hempty
    · exact ih hp hq
  | opt p ih | not p ih | counted p ih => exact ih hp hq
  | _ => cases hq

namespace Enters

variable {p : Pattern} {here place : Cursor} {r : Rule} {bound : Nat}

/-- A rule is entered where the pattern has come to. -/
theorem moves (h : p.Enters here r place) : ∃ u, here.Moves u place := by
  induction h with
  | rule => exact ⟨[], .refl _⟩
  | second h _ ih | again h _ ih =>
    obtain ⟨u, hu⟩ := h.moves
    obtain ⟨v, hv⟩ := ih
    exact ⟨u ++ v, hu.trans hv⟩
  | first _ ih | left _ ih | right _ ih | round _ ih | opt _ ih | not _ ih | counted _ ih => exact ih

/-- A rule is entered further on, or its rank is below the bound. -/
theorem further (h : p.Enters here r place) (hp : p.ranked bound = true) :
    place.rest.length < here.rest.length ∨
      place.rest.length = here.rest.length ∧ r.rank < bound := by
  induction h generalizing bound with
  | rule => exact .inr ⟨rfl, of_decide_eq_true hp⟩
  | first _ ih | left _ ih => exact ih (Bool.and_eq_true_iff.mp hp).1
  | right _ ih | round _ ih => exact ih (Bool.and_eq_true_iff.mp hp).2
  | @second _ mid _ _ p _ _ h _ ih =>
    obtain ⟨-, hq⟩ := Bool.and_eq_true_iff.mp hp
    have hplace := ih hq
    cases hempty : p.mayBeEmpty with
    | false =>
      have hmid := h.length_lt hempty
      omega
    | true =>
      have hmid := h.length_le
      rw [hempty, if_pos rfl] at hplace
      omega
  | again h _ ih =>
    have hplace := ih hp
    have hmid := h.length_lt (by simpa using (Bool.and_eq_true_iff.mp hp).1)
    omega
  | opt _ ih | not _ ih | counted _ ih => exact ih hp

end Enters

end Pattern

namespace Rule

/-- While a rule is matched at a place another is open at a place, so many entries further in. -/
inductive Nests : Rule → Cursor → Nat → Rule → Cursor → Prop where
  | itself {r : Rule} {here : Cursor} : Nests r here 0 r here
  | inside {r r' s : Rule} {here place last : Cursor} {n : Nat}
    (h : r.pattern.Enters here r' place) (h' : Nests r' place n s last) : Nests r here (n + 1) s last

variable {r s : Rule} {here place : Cursor} {n : Nat}

/-- Every rule has a rank. -/
theorem rank_pos (r : Rule) : 0 < r.rank := by
  cases r <;> decide

/-- There are thirteen ranks. -/
theorem rank_le (r : Rule) : r.rank ≤ 13 := by
  cases r <;> decide

/-- The entries that can be open from a place on, with those of a rule of some rank there. -/
def room (r : Rule) (here : Cursor) : Nat := 13 * here.rest.length + r.rank

/-- Each entry leaves less room. -/
theorem room_lt (h : r.pattern.Enters here s place) : s.room place < r.room here := by
  have hr := r.rank_pos
  have hs := s.rank_le
  rw [room, room]
  rcases h.further r.pattern_ranked with hlt | ⟨heq, hlt⟩ <;> omega

namespace Nests

/-- A rule that is open further in lies at or behind the place. -/
theorem moves (h : r.Nests here n s place) : ∃ u, here.Moves u place := by
  induction h with
  | itself => exact ⟨[], .refl _⟩
  | inside h _ ih =>
    obtain ⟨u, hu⟩ := h.moves
    obtain ⟨v, hv⟩ := ih
    exact ⟨u ++ v, hu.trans hv⟩

/-- The room at a place holds all entries that are open from there on. -/
theorem room_le (h : r.Nests here n s place) : n + s.room place ≤ r.room here := by
  induction h with
  | itself => exact Nat.le_of_eq (Nat.zero_add _)
  | inside h _ ih =>
    have hlt := room_lt h
    omega

/-- A rule that is entered again inside itself is entered further on. -/
theorem offset_lt (h : r.Nests here n r place) (hn : 0 < n) : here.offset < place.offset := by
  obtain ⟨u, hu⟩ := h.moves
  refine hu.offset_lt ?_
  rintro rfl
  obtain rfl := (Cursor.Moves.refl here).stop_unique hu
  have hroom := h.room_le
  omega

end Nests

/-- Repetitions in rules repeat only what consumes something. -/
theorem offset_lt_of_repeated {p : Pattern} {stop : Cursor} {ts : List (Tree Rule)}
    (hp : p ∈ r.pattern.repeated) (h : Parses p here (some (stop, ts))) : here.offset < stop.offset := by
  obtain ⟨u, hu, hne⟩ := h.consumes _ _ rfl
  exact hu.offset_lt (hne (Pattern.mayBeEmpty_of_mem_repeated r.pattern_ranked hp))

/-- A rule comes to an end by itself: there are a reading and a number of steps such that every run
with at least so many steps ends with that reading, given room for as many rounds as the source has
characters and for as many entries as `depthBound` allows. -/
theorem run_ends (r : Rule) (source : List Char) : ∃ (res : Reading) (steps : Nat),
    ∀ (bounds : Bounds) (depth : Nat), steps ≤ bounds.calls → source.length < bounds.rounds →
      depthBound source.length ≤ depth → ∃ trace, trace.calls = steps ∧
        r.run bounds depth (.start source) [] .start = res.outcome [] trace := by
  obtain ⟨res, hres⟩ := r.exists_parses (.start source)
  obtain ⟨steps, hsteps⟩ := hres.runsTo
  refine ⟨res, steps, fun bounds depth hcalls hrounds hdepth => ?_⟩
  obtain ⟨trace, htrace, hrun⟩ := hsteps bounds depth Pattern.topRank bounds.rounds [] .start
    (decide_eq_true r.rank_lt_topRank) (Nat.le_refl _) hdepth hrounds hrounds
    (by rwa [Trace.start, Nat.zero_add])
  exact ⟨trace, by rw [htrace, Trace.start, Nat.zero_add], hrun⟩

/-- Matching an expression ends by itself on every source. With steps enough, it succeeds or fails
after a number of steps that no bound has a part in. No rule is entered again inside itself at the
same place, every round of every repetition consumes a byte, and of each character and the end of the
source at most thirteen entries are open at once. -/
theorem expression_ends (source : List Char) :
    (∃ (res : Reading) (steps : Nat), ∀ (bounds : Bounds) (depth : Nat), steps ≤ bounds.calls →
      source.length < bounds.rounds → depthBound source.length ≤ depth → ∃ trace,
        trace.calls = steps ∧
          expression.run bounds depth (.start source) [] .start = res.outcome [] trace) ∧
    (∀ (r : Rule) (here place : Cursor) (n : Nat), 0 < n → r.Nests here n r place →
      here.offset < place.offset) ∧
    (∀ (r : Rule), ∀ p ∈ r.pattern.repeated, ∀ (here stop : Cursor) (ts : List (Tree Rule)),
      Parses p here (some (stop, ts)) → here.offset < stop.offset) ∧
    ∀ (r : Rule) (place : Cursor) (n : Nat), expression.Nests (.start source) n r place →
      n < 13 * (source.length + 1) := by
  refine ⟨expression.run_ends source, fun r here place n hn h => h.offset_lt hn,
    fun r p hp here stop ts h => offset_lt_of_repeated hp h, fun r place n h => ?_⟩
  have hroom := h.room_le
  have hpos := r.rank_pos
  have hstart : expression.room (.start source) = 13 * (source.length + 1) := rfl
  rw [hstart, room] at hroom
  omega

end Rule

end Vimscript
