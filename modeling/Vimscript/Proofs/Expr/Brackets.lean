import Mathlib.Data.List.Forall2
import Vimscript.Expr.Source
import Vimscript.Proofs.Expr.Reads

/-!
# Texts with brackets

Lists, dictionaries, arguments, subscripts and lambdas: what stands between their brackets is read
place by place, the places parted by commas. Each place ends in front of a comma or the closing
bracket, so blanks inside it belong to it.
-/

namespace Vimscript

open Pattern Text

/-- What stands in a place that a character ends: blanks only, or an expression between blanks. -/
def ReadsSlot (c : Char) (text : List Char) (e : Option (Expr Unit)) : Prop :=
  text.all isSpace = true ∧ e = none ∨ ∃ b v b' e', text = b ++ (v ++ b') ∧
    b.all isSpace = true ∧ b'.all isSpace = true ∧ Seam (b' ++ [c]) ∧ ReadsAs Seam 0 v e' ∧
      e = some e'

/-- Places parted by commas, each with what it stands for. -/
inductive ReadsList {α : Type} (slot : List Char → α → Prop) : List Char → List α → Prop where
  | one {u : List Char} {a : α} (h : slot u a) : ReadsList slot u [a]
  | cons {u v : List Char} {a : α} {more : List α} (h : slot u a) (h' : ReadsList slot v more) :
    ReadsList slot (u ++ ',' :: v) (a :: more)

/-- Whether a character ends a place between commas and a closing text. -/
def endsSlot (close c : Char) : Prop := c = ',' ∨ c = close

/-- A seam is told from the first character, so it is one whatever stands behind it. -/
theorem seam_append_of_seam {b : List Char} {c : Char} (h : Seam (b ++ [c])) (rest : List Char) :
    Seam (b ++ c :: rest) := by
  cases b with
  | nil => exact fun d hd => h d hd
  | cons d b => exact fun d hd => h d hd

/-- A slot with an expression in it derives that expression. -/
theorem ReadsSlot.derives {c : Char} {text w : List Char} {e : Expr Unit} {here last : Cursor}
    (h : ReadsSlot c text (some e)) (hc : isSpace c = false)
    (hmove : here.Moves (text ++ c :: w) last) : ∃ stop t,
      Derives (.rule .expr) here.skipSpaces stop [t] ∧ stop.skipSpaces.Moves (c :: w) last ∧
        (t.map Rule.tag).Builds e := by
  obtain ⟨-, h⟩ | ⟨b, v, b', e', rfl, hb, hb', hseam, hreads, he⟩ := h
  · cases h
  · cases he
    rw [List.append_assoc, List.append_assoc] at hmove
    exact hreads.inside hb hb' hc (fun rest => seam_append_of_seam hseam _) hmove

/-- An empty slot is skipped. -/
theorem ReadsSlot.skips {c : Char} {text w : List Char} {here last : Cursor}
    (h : ReadsSlot c text none) (hc : isSpace c = false)
    (hmove : here.Moves (text ++ c :: w) last) : here.skipSpaces.Moves (c :: w) last := by
  obtain ⟨htext, -⟩ | ⟨_, _, _, _, -, -, -, -, -, h⟩ := h
  · exact hmove.behindBlanks htext ⟨_, _, rfl, hc⟩
  · cases h

/-- Places parted by commas make a chain of parts. -/
theorem ReadsList.derives {α : Type} {slot : List Char → α → Prop} {q : α → Tree Tag → Prop}
    (part : Rule) {close : Char} {text w : List Char} {items : List α} {here last : Cursor}
    (hslot : ∀ u a, slot u a → ∀ (here last : Cursor) c w, endsSlot close c →
      here.Moves (u ++ c :: w) last → ∃ stop t, Derives (.rule part) here.skipSpaces stop [t] ∧
        stop.skipSpaces.Moves (c :: w) last ∧ q a (t.map Rule.tag))
    (h : ReadsList slot text items) (hmove : here.Moves (text ++ close :: w) last) :
    ∃ stop ts, Derives (chained part (.token ",")) here.skipSpaces stop ts ∧
      stop.skipSpaces.Moves (close :: w) last ∧
        List.Forall₂ q items (ts.map (Tree.map Rule.tag)) := by
  induction h generalizing here with
  | one h =>
    obtain ⟨stop, t, hderives, hclose, ht⟩ := hslot _ _ h _ _ _ _ (.inr rfl) hmove
    refine ⟨stop.skipSpaces, [t], .chained_single hderives, ?_, .cons ht .nil⟩
    rwa [Cursor.skipSpaces_skipSpaces]
  | cons h _ ih =>
    rw [List.append_assoc] at hmove
    obtain ⟨stop, t, hderives, hcomma, ht⟩ := hslot _ _ h _ _ _ _ (.inl rfl) hmove
    obtain ⟨place, hlink, hmove⟩ := Cursor.Moves.cons_iff.mp hcomma
    obtain ⟨final, ts, hchain, hclose, hts⟩ := ih hmove
    obtain ⟨end_, hwhole, hskip⟩ := Derives.chained_cons hderives
      (show Derives (.token ",") stop.skipSpaces place [] from .text hlink) hchain
    refine ⟨end_, [t] ++ ([] ++ ts), hwhole, ?_, .cons ht hts⟩
    rwa [hskip]

namespace Derives

variable {here first stop last : Cursor} {part : Rule} {ts : List (Tree Rule)}

/-- A chain between commas is a list of parts without a comma behind the last. -/
theorem commaList_of_chained (h : Derives (chained part (.token ",")) here stop ts) :
    Derives (commaList part) here stop.skipSpaces ts := by
  obtain ⟨mid, us, vs, hfirst, hrounds, rfl⟩ := spaced_iff.mp (counted_iff.mp h)
  exact .counted (.present (.counted (spaced_iff.mpr ⟨mid, us, vs, hfirst, spaced_iff.mpr
    ⟨stop, vs, [], hrounds, .counted .absent, (List.append_nil vs).symm⟩, rfl⟩)))

/-- Between an opening text and a closing character. -/
theorem enclosed {p : Pattern} {opening : List Char} {close : Char}
    (hopen : here.Moves opening first) (h : Derives p first.skipSpaces stop ts)
    (hclose : stop.skipSpaces.Moves [close] last) :
    Derives (spaced [.text opening, p, .text [close]]) here last ts :=
  counted (spaced_iff.mpr ⟨first, [], ts, text hopen, spaced_iff.mpr
    ⟨stop, ts, [], h, text hclose, (List.append_nil ts).symm⟩, rfl⟩)

end Derives

/-- Blanks only, or places parted by commas. -/
def ReadsPlaces {α : Type} (slot : List Char → α → Prop) (text : List Char) (items : List α) :
    Prop := text.all isSpace = true ∧ items = [] ∨ ReadsList slot text items

/-- What ends a place between commas is no blank. -/
theorem isSpace_of_endsSlot {close c : Char} (hclose : isSpace close = false)
    (h : endsSlot close c) : isSpace c = false := by
  rcases h with rfl | rfl
  · decide
  · exact hclose

/-- Two texts of a list are parted by a comma and a blank. -/
theorem Expr.commaSeparated_cons_cons (u v : List Char) (more : List (List Char)) :
    commaSeparated (u :: v :: more) = u ++ ',' :: ' ' :: commaSeparated (v :: more) := by
  simp [commaSeparated, List.intercalate_cons_cons]

/-- Texts that are places between any blanks are places when commas and blanks part them. -/
theorem ReadsList.of_commaSeparated {α : Type} {slot : List Char → α → Prop}
    {us : List (List Char)} {items : List α} {b b' : List Char}
    (h : List.Forall₂ (fun u a => ∀ b b' : List Char, b.all isSpace = true →
      b'.all isSpace = true → slot (b ++ (u ++ b')) a) us items) (hne : us ≠ [])
    (hb : b.all isSpace = true) (hb' : b'.all isSpace = true) :
    ReadsList slot (b ++ (Expr.commaSeparated us ++ b')) items := by
  induction h generalizing b with
  | nil => exact (hne rfl).elim
  | @cons u a us items hslot hmore ih =>
    cases hmore with
    | nil =>
      have hsingle : Expr.commaSeparated [u] = u := by simp [Expr.commaSeparated]
      rw [hsingle]
      exact .one (hslot b b' hb hb')
    | @cons v a' us items _ _ =>
      have hmore := ih (by simp) (b := [' ']) (by decide)
      have hfirst := hslot b [] hb rfl
      rw [List.append_nil] at hfirst
      have := ReadsList.cons hfirst hmore
      rw [Expr.commaSeparated_cons_cons]
      simpa using this

/-- So they are behind an opening bracket, none at all included. -/
theorem ReadsPlaces.of_commaSeparated {α : Type} {slot : List Char → α → Prop}
    {us : List (List Char)} {items : List α}
    (h : List.Forall₂ (fun u a => ∀ b b' : List Char, b.all isSpace = true →
      b'.all isSpace = true → slot (b ++ (u ++ b')) a) us items) :
    ReadsPlaces slot (Expr.commaSeparated us) items := by
  by_cases hne : us = []
  · subst hne
    cases h
    exact .inl ⟨rfl, rfl⟩
  · have := ReadsList.of_commaSeparated h hne blank_nil blank_nil
    rw [List.append_nil] at this
    exact .inr this

/-- A comma or the closing delimiter, with blanks in front of it, is a seam. -/
theorem Text.seam_of_endsSlot {b : List Char} {close c : Char} (hclose : isSeam close = true)
    (hb : b.all isSpace = true) (hc : endsSlot close c) : Seam (b ++ [c]) := by
  cases b with
  | nil =>
    refine seam_cons ?_
    rcases hc with rfl | rfl
    · decide
    · exact hclose
  | cons d b => exact seam_cons_of_isSpace (Bool.and_eq_true_iff.mp (List.all_cons ▸ hb)).1

/-- Places between brackets, each of which a part derives. -/
theorem ReadsPlaces.enclosed {α : Type} {slot : List Char → α → Prop} {q : α → Tree Tag → Prop}
    (part : Rule) {opening : List Char} {close : Char} {text : List Char} {items : List α}
    {here first mid : Cursor}
    (hslot : ∀ u a, slot u a → ∀ (here last : Cursor) c w, endsSlot close c →
      here.Moves (u ++ c :: w) last → ∃ stop t, Derives (.rule part) here.skipSpaces stop [t] ∧
        stop.skipSpaces.Moves (c :: w) last ∧ q a (t.map Rule.tag))
    (hclose : isSpace close = false) (h : ReadsPlaces slot text items)
    (hopen : here.Moves opening first) (hmove : first.Moves (text ++ [close]) mid) :
    ∃ ts, Derives (spaced [.text opening, commaList part, .text [close]]) here mid ts ∧
      List.Forall₂ q items (ts.map (Tree.map Rule.tag)) := by
  rcases h with ⟨hblank, rfl⟩ | hlist
  · have hlast := hmove.behindBlanks hblank ⟨_, _, rfl, hclose⟩
    rw [← Cursor.skipSpaces_skipSpaces] at hlast
    exact ⟨[], Derives.enclosed hopen (.counted .absent) hlast, .nil⟩
  · obtain ⟨stop, ts, hchain, hlast, hts⟩ := hlist.derives part hslot hmove
    rw [← Cursor.skipSpaces_skipSpaces] at hlast
    exact ⟨ts, Derives.enclosed hopen hchain.commaList_of_chained hlast, hts⟩

/-- The items of a list, or none. -/
def ReadsItems (text : List Char) (items : List (Expr Unit)) : Prop :=
  ReadsPlaces (fun u e => ∀ c, endsSlot ']' c → ReadsSlot c u (some e)) text items

/-- Trees that build shapes one by one build a list of them. -/
theorem Tree.buildsItems_of_forall {items : List (Expr Unit)} {ts : List (Tree Tag)}
    (h : List.Forall₂ (fun e t => Builds t e) items ts) : BuildsItems ts items := by
  induction h with
  | nil => exact .nil
  | cons ht _ ih => exact .cons ht ih

/-- Items between square brackets read as a list. -/
theorem ReadsItems.list {follow : List Char → Prop} {text : List Char} {items : List (Expr Unit)}
    (h : ReadsItems text items) : ReadsAs follow 8 ('[' :: (text ++ [']'])) (.list () items) := by
  refine .atom (r := .list) (by decide) ⟨_, _, rfl, by decide⟩ fun here mid hmove _ => ?_
  obtain ⟨first, hopen, hmove⟩ := Cursor.Moves.cons_iff.mp hmove
  obtain ⟨ts, hderives, hts⟩ := ReadsPlaces.enclosed .expr (q := fun e t => t.Builds e)
    (fun u e hslot here last c w hc hmove =>
      (hslot c hc).derives (isSpace_of_endsSlot (by decide) hc) hmove) (by decide) h hopen hmove
  refine ⟨_, (Derives.rule_iff rfl).mpr ⟨ts, hderives, trivial, rfl⟩, trivial, ?_⟩
  rw [Tree.map_node]
  exact (Tree.buildsItems_of_forall hts).list

/-- A key, a colon and a value, in a place that a character ends. -/
def ReadsEntry (c : Char) (u : List Char) (entry : Expr Unit × Expr Unit) : Prop :=
  ∃ (follow : List Char → Prop) (b k b' w : List Char), u = b ++ (k ++ (b' ++ ':' :: w)) ∧
    b.all isSpace = true ∧ b'.all isSpace = true ∧
      (∀ rest, follow (b' ++ ':' :: (w ++ c :: rest))) ∧ ReadsAs follow 0 k entry.1 ∧
        ReadsSlot c w (some entry.2)

/-- The entries of a dictionary, or none. -/
def ReadsEntries (text : List Char) (entries : List (Expr Unit × Expr Unit)) : Prop :=
  ReadsPlaces (fun u entry => ∀ c, endsSlot '\x7d' c → ReadsEntry c u entry) text entries

/-- A node of an entry with its key and its value. -/
def Tree.BuildsEntry (entry : Expr Unit × Expr Unit) (t : Tree Tag) : Prop :=
  ∃ span excerpt key value, t = .node .dictEntry span excerpt [key, value] ∧
    Builds key entry.1 ∧ Builds value entry.2

/-- Entries that build pairs of shapes one by one build all of them. -/
theorem Tree.buildsEntries_of_forall {entries : List (Expr Unit × Expr Unit)}
    {ts : List (Tree Tag)} (h : List.Forall₂ BuildsEntry entries ts) :
    BuildsEntries ts entries := by
  induction h with
  | nil => exact .nil
  | cons ht _ ih =>
    obtain ⟨span, excerpt, key, value, rfl, hkey, hvalue⟩ := ht
    exact .cons hkey hvalue ih

/-- An entry in front of what ends its place is derived, and the blanks behind it are passed
over. -/
theorem ReadsEntry.derives {c : Char} {u w : List Char} {entry : Expr Unit × Expr Unit}
    {here last : Cursor} (h : ReadsEntry c u entry) (hc : isSpace c = false)
    (hmove : here.Moves (u ++ c :: w) last) : ∃ stop t,
      Derives (.rule .dictEntry) here.skipSpaces stop [t] ∧ stop.skipSpaces.Moves (c :: w) last ∧
        Tree.BuildsEntry entry (t.map Rule.tag) := by
  obtain ⟨follow, b, k, b', v, rfl, hb, hb', hfollow, hkey, hvalue⟩ := h
  simp only [List.append_assoc, List.cons_append] at hmove
  obtain ⟨mid, key, hderives, hcolon, hkeyBuilds⟩ := hkey.inside hb hb' (by decide)
    (fun rest => by rw [List.append_assoc]; exact hfollow _) hmove
  obtain ⟨place, hlink, hmove⟩ := Cursor.Moves.cons_iff.mp hcolon
  obtain ⟨stop, value, hderives', hclose, hvalueBuilds⟩ := hvalue.derives hc hmove
  refine ⟨stop, _, (Derives.rule_iff rfl).mpr ⟨_, .counted (Derives.spaced_iff.mpr
    ⟨mid, [key], _, Derives.call_iff.mpr hderives, Derives.spaced_iff.mpr
      ⟨place, [], [value], .text hlink, Derives.call_iff.mpr hderives', rfl⟩, rfl⟩), trivial, rfl⟩,
    hclose, ?_⟩
  rw [Tree.map_node]
  exact ⟨_, _, _, _, rfl, hkeyBuilds, hvalueBuilds⟩

/-- Entries between braces read as a dictionary. -/
theorem ReadsEntries.dict {follow : List Char → Prop} {text : List Char}
    {entries : List (Expr Unit × Expr Unit)} (h : ReadsEntries text entries) :
    ReadsAs follow 8 ('\x7b' :: (text ++ ['\x7d'])) (.dict () entries) := by
  refine .atom (r := .dict) (by decide) ⟨_, _, rfl, by decide⟩ fun here mid hmove _ => ?_
  obtain ⟨first, hopen, hmove⟩ := Cursor.Moves.cons_iff.mp hmove
  obtain ⟨ts, hderives, hts⟩ := ReadsPlaces.enclosed .dictEntry (q := Tree.BuildsEntry)
    (fun u e hslot here last c w hc hmove =>
      (hslot c hc).derives (isSpace_of_endsSlot (by decide) hc) hmove) (by decide) h hopen hmove
  refine ⟨_, (Derives.rule_iff rfl).mpr ⟨ts, hderives, trivial, rfl⟩, trivial, ?_⟩
  rw [Tree.map_node]
  exact (Tree.buildsEntries_of_forall hts).dict

/-- A key that stands for itself, a colon and a value, in a place that a character ends. -/
def ReadsLiteralEntry (c : Char) (u : List Char) (entry : List Char × Expr Unit) : Prop :=
  ∃ b b' w : List Char, u = b ++ (entry.1 ++ (b' ++ ':' :: w)) ∧ b.all isSpace = true ∧
    b'.all isSpace = true ∧ IsRun isKeyChar entry.1 ∧ ReadsSlot c w (some entry.2)

/-- The entries of a literal dictionary, or none. -/
def ReadsLiteralEntries (text : List Char) (entries : List (List Char × Expr Unit)) : Prop :=
  ReadsPlaces (fun u entry => ∀ c, endsSlot '\x7d' c → ReadsLiteralEntry c u entry) text entries

/-- A node of a literal entry with its key and its value. -/
def Tree.BuildsLiteralEntry (entry : List Char × Expr Unit) (t : Tree Tag) : Prop :=
  ∃ span excerpt key value, t = .node .literalDictEntry span excerpt [key, value] ∧
    key.label = .literalDictKey ∧ key.text = entry.1 ∧ Builds value entry.2

/-- Entries of a literal dictionary that build keys and shapes one by one build all of them. -/
theorem Tree.buildsLiteralEntries_of_forall {entries : List (List Char × Expr Unit)}
    {ts : List (Tree Tag)} (h : List.Forall₂ BuildsLiteralEntry entries ts) :
    BuildsLiteralEntries ts (entries.map fun entry =>
      (.literal () (.string entry.1), entry.2)) := by
  induction h with
  | nil => exact .nil
  | cons ht _ ih =>
    obtain ⟨span, excerpt, key, value, rfl, hkey, htext, hvalue⟩ := ht
    rw [List.map_cons, ← htext]
    exact .cons hkey hvalue ih

/-- An entry with a plain key is derived in front of what ends its place. -/
theorem ReadsLiteralEntry.derives {c : Char} {u w : List Char} {entry : List Char × Expr Unit}
    {here last : Cursor} (h : ReadsLiteralEntry c u entry) (hc : isSpace c = false)
    (hmove : here.Moves (u ++ c :: w) last) : ∃ stop t,
      Derives (.rule .literalDictEntry) here.skipSpaces stop [t] ∧
        stop.skipSpaces.Moves (c :: w) last ∧ Tree.BuildsLiteralEntry entry (t.map Rule.tag) := by
  obtain ⟨b, b', v, rfl, hb, hb', hkey, hvalue⟩ := h
  simp only [List.append_assoc, List.cons_append] at hmove
  obtain ⟨d, x, hd⟩ := List.exists_cons_of_ne_nil hkey.1
  have hword : isKeyChar d = true := (Bool.and_eq_true_iff.mp (List.all_cons ▸ hd ▸ hkey.2)).1
  obtain ⟨mid, htoken, hmove⟩ := Cursor.Moves.append_iff.mp (hmove.behindBlanks hb
    ⟨d, x ++ (b' ++ ':' :: (v ++ c :: w)), by rw [hd]; rfl, isSpace_eq_false hword (by decide)⟩)
  have hend : EndsBefore isKeyChar mid.rest := by
    rw [hmove.rest_eq]
    cases b' with
    | nil => exact endsBefore_cons.mpr (by decide)
    | cons d b' =>
      have hd := (Bool.and_eq_true_iff.mp (List.all_cons ▸ hb')).1
      rcases (by simpa [isSpace] using hd : d = ' ' ∨ d = '\t') with rfl | rfl <;>
        exact endsBefore_cons.mpr (by decide)
  obtain ⟨place, hlink, hmove⟩ := Cursor.Moves.cons_iff.mp
    (hmove.behindBlanks hb' ⟨_, _, rfl, by decide⟩)
  obtain ⟨stop, value, hderives, hclose, hvalueBuilds⟩ := hvalue.derives hc hmove
  refine ⟨stop, _, (Derives.rule_iff rfl).mpr ⟨_, .counted (Derives.spaced_iff.mpr
    ⟨mid, _, _, Derives.call_iff.mpr ((Derives.token_iff rfl).mpr ⟨_, htoken, ⟨hkey, hend⟩, rfl⟩),
      Derives.spaced_iff.mpr ⟨place, [], [value], .text hlink, Derives.call_iff.mpr hderives,
        rfl⟩, rfl⟩), trivial, rfl⟩, hclose, ?_⟩
  rw [Tree.map_node]
  exact ⟨_, _, _, _, rfl, Tree.label_map _, (Tree.text_map _).trans htoken.node_text, hvalueBuilds⟩

/-- Entries with plain keys between braces behind a number sign read as a dictionary. -/
theorem ReadsLiteralEntries.literalDict {follow : List Char → Prop} {text : List Char}
    {entries : List (List Char × Expr Unit)} (h : ReadsLiteralEntries text entries) :
    ReadsAs follow 8 ('#' :: '\x7b' :: (text ++ ['\x7d']))
      (.dict () (entries.map fun entry => (.literal () (.string entry.1), entry.2))) := by
  refine .atom (r := .literalDict) (by decide) ⟨_, _, rfl, by decide⟩ fun here mid hmove _ => ?_
  obtain ⟨first, hopen, hmove⟩ := Cursor.Moves.append_iff (u := ['#', '\x7b']).mp hmove
  obtain ⟨ts, hderives, hts⟩ := ReadsPlaces.enclosed .literalDictEntry
    (q := Tree.BuildsLiteralEntry) (fun u e hslot here last c w hc hmove =>
      (hslot c hc).derives (isSpace_of_endsSlot (by decide) hc) hmove) (by decide) h hopen hmove
  refine ⟨_, (Derives.rule_iff rfl).mpr ⟨ts, hderives, trivial, rfl⟩, trivial, ?_⟩
  rw [Tree.map_node]
  exact (Tree.buildsLiteralEntries_of_forall hts).literalDict

/-- The places of arguments; those left empty stand for nothing. -/
def ReadsArgs (text : List Char) (args : List (Option (Expr Unit))) : Prop :=
  ReadsList (fun u e => ∀ c, endsSlot ')' c → ReadsSlot c u e) text args

/-- At least one place is printed with commas between. -/
theorem ReadsArgs.of_commaSeparated {us : List (List Char)} {args : List (Option (Expr Unit))}
    (h : List.Forall₂ (fun u arg => ∀ b b' : List Char, b.all isSpace = true →
      b'.all isSpace = true → ∀ c, endsSlot ')' c → ReadsSlot c (b ++ (u ++ b')) arg) us args)
    (hne : us ≠ []) : ReadsArgs (Expr.commaSeparated us) args := by
  have : ReadsArgs ([] ++ (Expr.commaSeparated us ++ [])) args :=
    ReadsList.of_commaSeparated h hne blank_nil blank_nil
  rwa [List.append_nil] at this

/-- A node of a place with the argument in it, if there is one. -/
def Tree.BuildsArg (arg : Option (Expr Unit)) (t : Tree Tag) : Prop :=
  ∃ span excerpt, arg = none ∧ t = .node .callArg span excerpt [] ∨
    ∃ inner e, arg = some e ∧ t = .node .callArg span excerpt [inner] ∧ Builds inner e

/-- Places for arguments that build shapes or nothing build the arguments that are there. -/
theorem Tree.buildsArgs_of_forall {args : List (Option (Expr Unit))} {ts : List (Tree Tag)}
    (h : List.Forall₂ BuildsArg args ts) : BuildsArgs ts (args.filterMap id) := by
  induction h with
  | nil => exact .nil
  | cons ht _ ih =>
    rcases ht with ⟨span, excerpt, ⟨rfl, rfl⟩ | ⟨inner, e, rfl, rfl, he⟩⟩
    · exact ih.skip
    · exact .cons he ih

/-- A place for an argument is derived in front of what ends it, whether there is an argument or
not. -/
theorem ReadsSlot.callArg {c : Char} {u w : List Char} {arg : Option (Expr Unit)}
    {here last : Cursor} (h : ReadsSlot c u arg) (hc : isSpace c = false)
    (hmove : here.Moves (u ++ c :: w) last) : ∃ stop t,
      Derives (.rule .callArg) here.skipSpaces stop [t] ∧ stop.skipSpaces.Moves (c :: w) last ∧
        Tree.BuildsArg arg (t.map Rule.tag) := by
  cases arg with
  | none =>
    have hclose := h.skips hc hmove
    rw [← Cursor.skipSpaces_skipSpaces] at hclose
    refine ⟨here.skipSpaces, _, (Derives.rule_iff rfl).mpr ⟨[], .counted .absent, trivial, rfl⟩,
      hclose, ?_⟩
    rw [Tree.map_node]
    exact ⟨_, _, .inl ⟨rfl, rfl⟩⟩
  | some e =>
    obtain ⟨stop, t, hderives, hclose, ht⟩ := h.derives hc hmove
    refine ⟨stop, _, (Derives.rule_iff rfl).mpr ⟨[t], .counted (.present
      (Derives.call_iff.mpr hderives)), trivial, rfl⟩, hclose, ?_⟩
    rw [Tree.map_node]
    exact ⟨_, _, .inr ⟨_, _, rfl, rfl, ht⟩⟩

/-- Arguments between parentheses. -/
theorem ReadsArgs.derives {text : List Char} {args : List (Option (Expr Unit))}
    {here mid : Cursor} (h : ReadsArgs text args) (hmove : here.Moves ('(' :: (text ++ [')'])) mid) :
    ∃ ts, Derives (.rule .callArgs) here mid [Rule.callArgs.node here mid ts] ∧
      Tree.BuildsArgs (ts.map (Tree.map Rule.tag)) (args.filterMap id) := by
  obtain ⟨first, hopen, hmove⟩ := Cursor.Moves.cons_iff.mp hmove
  obtain ⟨stop, ts, hchain, hclose, hts⟩ := ReadsList.derives .callArg
    (q := Tree.BuildsArg) (fun u e hslot here last c w hc hmove =>
      (hslot c hc).callArg (isSpace_of_endsSlot (by decide) hc) hmove) h hmove
  obtain ⟨place, us, vs, hfirst, hrounds, rfl⟩ := Derives.spaced_iff.mp (Derives.counted_iff.mp hchain)
  refine ⟨us ++ vs, (Derives.rule_iff rfl).mpr ⟨_, ?_, trivial, rfl⟩,
    Tree.buildsArgs_of_forall hts⟩
  exact .counted (Derives.spaced_iff.mpr ⟨first, [], _, .text hopen, Derives.spaced_iff.mpr
    ⟨place, us, vs, hfirst, Derives.spaced_iff.mpr ⟨stop, vs, [], hrounds, .text hclose,
      (List.append_nil vs).symm⟩, rfl⟩, rfl⟩)

namespace ReadsAs

variable {follow follow' : List Char → Prop} {u v : List Char} {e e' : Expr Unit}

/-- A text behind a base, read as something attached to it. -/
theorem attached {r : Rule} (hr : r ∈ Derives.attachments) (h : ReadsAs follow' 7 u e)
    (hfollow : ∀ rest, follow' (v ++ rest))
    (hcall : r = .callArgs → ∀ (here mid : Cursor) (first : Tree Rule),
      Derives (.rule .primary) here mid [first] → (first.map Rule.tag).Builds e →
        first.takesCall = false)
    (hv : ∀ here mid : Cursor, here.Moves v mid → ∃ x, Derives (.rule r) here mid [x] ∧
      ∀ span span' excerpt excerpt' ts, (Tree.node .postfixed span excerpt ts).Builds e →
        (Tree.node .postfixed span' excerpt' (ts ++ [x.map Rule.tag])).Builds e') :
    ReadsAs follow 7 (u ++ v) e' where
  head := by
    obtain ⟨c, w, rfl, hc⟩ := h.head
    exact ⟨c, _, List.cons_append, hc⟩
  derives here mid hmove _ := by
    obtain ⟨place, hu, hmove⟩ := Cursor.Moves.append_iff.mp hmove
    obtain ⟨stop, t, hderives, -, htight, ht⟩ := h.derives _ _ hu (by
      rw [hmove.rest_eq]
      exact hfollow _)
    obtain rfl := htight rfl
    obtain ⟨x, hx, hbuilds⟩ := hv _ _ hmove
    obtain ⟨children, hpattern, -, hnode⟩ := (Derives.rule_iff rfl).mp hderives
    obtain rfl := List.singleton_inj.mp hnode
    have hwhole := hderives.postfixed_snoc hr hx (by
      intro first hfirst hrule
      obtain rfl : children = [first] := hfirst
      obtain ⟨next, us, vs, hprimary, hattached, hsplit⟩ :=
        Derives.seq_iff.mp (Derives.counted_iff.mp hpattern)
      obtain ⟨first', rfl⟩ := (Derives.call_iff.mp hprimary).eq_singleton
      obtain ⟨rfl, -⟩ := List.cons.inj hsplit
      rw [Tree.map_node] at ht
      refine hcall hrule _ _ _ (Derives.call_iff.mp hprimary) (ht.mono fun budget h => ?_)
      rw [show (Rule.ofLevel 7).tag = .postfixed from rfl, List.map_cons, List.map_nil,
        Tree.exprWithin_single rfl] at h
      exact h)
    refine ⟨mid, _, hwhole, rfl, fun _ => rfl, ?_⟩
    rw [Tree.map_node] at ht ⊢
    rw [Rule.node_children, List.map_append]
    exact hbuilds _ _ _ _ _ ht

/-- An element of a base. -/
theorem index {k : List Char} (h : ReadsAs Seam 7 u e) (hk : ReadsSlot ']' k (some e')) :
    ReadsAs follow 7 (u ++ ('[' :: (k ++ [']']))) (.index () e e') := by
  refine attached (r := .subscript) (by decide) h (fun _ => seam_cons (by decide)) (fun h => by cases h)
    fun here mid hmove => ?_
  · obtain ⟨first, hopen, hmove⟩ := Cursor.Moves.cons_iff.mp hmove
    obtain ⟨stop, t, hderives, hclose, ht⟩ := hk.derives (by decide) hmove
    have hlabel := hderives.span_eq.2
    have hkey : Derives (spaced [call .expr,
        .optional (spaced [call .sliceSep, .optional (call .expr)])]) first.skipSpaces
        stop.skipSpaces [t] :=
      .counted (Derives.spaced_iff.mpr ⟨stop, [t], [], Derives.call_iff.mpr hderives,
        .counted .absent, rfl⟩)
    rw [← Cursor.skipSpaces_skipSpaces] at hclose
    refine ⟨_, (Derives.rule_iff rfl).mpr ⟨[t], Derives.enclosed hopen (.left hkey) hclose,
      trivial, rfl⟩, fun span span' excerpt excerpt' ts hts => ?_⟩
    rw [Tree.map_node]
    refine hts.index ?_ ht
    rw [Tree.label_map, hlabel]
    decide

end ReadsAs

/-- The upper bound of a slice behind its separator. -/
theorem ReadsSlot.upper {text : List Char} {upper : Option (Expr Unit)} {here last : Cursor}
    (h : ReadsSlot ']' text upper) (hmove : here.Moves (':' :: (text ++ [']'])) last) :
    ∃ stop separator bound, Derives (spaced [call .sliceSep, .optional (call .expr)]) here stop
        (separator :: Option.toList bound) ∧ stop.skipSpaces.Moves [']'] last ∧
      (separator.map Rule.tag).label = .sliceSeparator ∧
        Tree.BuildsBound (bound.map (Tree.map Rule.tag)) upper := by
  obtain ⟨place, hcolon, hmove⟩ := Cursor.Moves.cons_iff.mp hmove
  have hseparator : Derives (call .sliceSep) here place [Rule.sliceSep.node here place []] :=
    Derives.call_iff.mpr ((Derives.token_iff rfl).mpr ⟨_, hcolon, rfl, rfl⟩)
  have hlabel : ((Rule.sliceSep.node here place []).map Rule.tag).label = .sliceSeparator := by
    rw [Tree.label_map]
    rfl
  cases upper with
  | none =>
    have hclose := h.skips (by decide) hmove
    rw [← Cursor.skipSpaces_skipSpaces] at hclose
    exact ⟨place.skipSpaces, _, none, .counted (Derives.spaced_iff.mpr ⟨place, _, [], hseparator,
      .counted .absent, rfl⟩), hclose, hlabel, .inl ⟨rfl, rfl⟩⟩
  | some e =>
    obtain ⟨stop, t, hderives, hclose, ht⟩ := h.derives (by decide) hmove
    refine ⟨stop, _, some t, .counted (Derives.spaced_iff.mpr ⟨place, _, [t], hseparator,
      .counted (.present (Derives.call_iff.mpr hderives)), rfl⟩), hclose, hlabel,
      .inr ⟨_, _, rfl, rfl, ?_, ht⟩⟩
    rw [Tree.label_map, hderives.span_eq.2]
    decide

namespace ReadsAs

variable {follow : List Char → Prop} {u v : List Char} {e e' : Expr Unit}

/-- A stretch of a base; a bound that is there has a blank before the colon. -/
theorem slice {l k : List Char} {lower upper : Option (Expr Unit)} (h : ReadsAs Seam 7 u e)
    (hl : ReadsSlot ':' l lower) (hk : ReadsSlot ']' k upper) :
    ReadsAs follow 7 (u ++ ('[' :: (l ++ (':' :: (k ++ [']']))))) (.slice () e lower upper) := by
  refine attached (r := .subscript) (by decide) h (fun _ => seam_cons (by decide)) (fun h => by cases h)
    fun here mid hmove => ?_
  obtain ⟨first, hopen, hmove⟩ := Cursor.Moves.cons_iff.mp hmove
  cases lower with
  | none =>
    have hmove := hl.skips (by decide) hmove
    obtain ⟨stop, separator, bound, hderives, hclose, hlabel, hbound⟩ := hk.upper hmove
    refine ⟨_, (Derives.rule_iff rfl).mpr ⟨_, Derives.enclosed hopen (.right hderives) hclose,
      trivial, rfl⟩, fun span span' excerpt excerpt' ts hts => ?_⟩
    rw [Tree.map_node]
    cases bound <;> exact hts.slice hlabel (.inl ⟨rfl, rfl⟩) hbound
  | some a =>
    obtain ⟨place, t, ht, hmove, hbuilds⟩ := hl.derives (by decide) hmove
    obtain ⟨stop, separator, bound, hderives, hclose, hlabel, hbound⟩ := hk.upper hmove
    have hinside : Derives (spaced [call .expr,
        .optional (spaced [call .sliceSep, .optional (call .expr)])]) first.skipSpaces
        stop (t :: (separator :: Option.toList bound)) :=
      .counted (Derives.spaced_iff.mpr ⟨place, [t], _, Derives.call_iff.mpr ht,
        .counted (.present hderives), rfl⟩)
    refine ⟨_, (Derives.rule_iff rfl).mpr ⟨_, Derives.enclosed hopen (.left hinside) hclose,
      trivial, rfl⟩, fun span span' excerpt excerpt' ts hts => ?_⟩
    rw [Tree.map_node]
    have hne : (t.map Rule.tag).label ≠ .sliceSeparator := by
      rw [Tree.label_map, ht.span_eq.2]
      decide
    cases bound <;> exact hts.slice hlabel (.inr ⟨_, _, rfl, rfl, hne, hbuilds⟩) hbound

end ReadsAs

end Vimscript
