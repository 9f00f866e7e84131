/-!
# Texts measured in bytes

Texts are lists of characters. Offsets count bytes of their UTF-8 form, so this file gives the
byte length of a text, the part of a text that fits a number of bytes, and the slice between two
byte offsets, which exists only where both offsets fall between characters.
-/

namespace Vimscript.Text

/-- The number of bytes of a text in UTF-8. -/
def byteLength (text : List Char) : Nat := text.foldr (fun c length => c.utf8Size + length) 0

/-- The longest part of a text, from its first character on, that fits into `count` bytes. -/
def takeBytes : Nat → List Char → List Char
  | _, [] => []
  | count, c :: rest =>
    if c.utf8Size ≤ count then c :: takeBytes (count - c.utf8Size) rest else []

/-- The text without its first `count` bytes, where `count` falls between two characters. -/
def dropBytes? : Nat → List Char → Option (List Char)
  | 0, text => some text
  | _ + 1, [] => none
  | count + 1, c :: rest =>
    if c.utf8Size ≤ count + 1 then dropBytes? (count + 1 - c.utf8Size) rest else none

/-- The first `count` bytes of a text, where `count` falls between two characters. -/
def takeBytes? : Nat → List Char → Option (List Char)
  | 0, _ => some []
  | _ + 1, [] => none
  | count + 1, c :: rest =>
    if c.utf8Size ≤ count + 1 then
      (takeBytes? (count + 1 - c.utf8Size) rest).map (c :: ·)
    else none

/-- The bytes from offset `start` up to offset `stop`. There are none to give where the offsets
run backwards, pass the end of the text or fall inside a character. -/
def slice? (start stop : Nat) (text : List Char) : Option (List Char) :=
  if start ≤ stop then (dropBytes? start text).bind (takeBytes? (stop - start)) else none

/-- No characters take no bytes. -/
theorem byteLength_nil : byteLength [] = 0 := rfl

/-- A text takes the bytes of its first character and those of the rest. -/
theorem byteLength_cons (c : Char) (text : List Char) :
    byteLength (c :: text) = c.utf8Size + byteLength text := rfl

/-- Bytes are counted text by text. -/
theorem byteLength_append (a b : List Char) :
    byteLength (a ++ b) = byteLength a + byteLength b := by
  induction a with
  | nil => rw [List.nil_append, byteLength_nil, Nat.zero_add]
  | cons c a ih => rw [List.cons_append, byteLength_cons, byteLength_cons, ih, Nat.add_assoc]

/-- Only the empty text takes no bytes. -/
theorem byteLength_eq_zero_iff {a : List Char} : byteLength a = 0 ↔ a = [] := by
  cases a with
  | nil => exact ⟨fun _ => rfl, fun _ => rfl⟩
  | cons c rest =>
    have hpos := c.utf8Size_pos
    rw [byteLength_cons]
    exact ⟨fun h => absurd h (by omega), fun h => by cases h⟩

/-- A budget of exactly the bytes of a text takes that text off the front of any other. -/
theorem takeBytes_append (a b : List Char) : takeBytes (byteLength a) (a ++ b) = a := by
  induction a with
  | nil => cases b with
    | nil => rfl
    | cons c rest =>
      have h : ¬ c.utf8Size ≤ 0 := Nat.not_le.mpr c.utf8Size_pos
      simp only [byteLength_nil, List.nil_append, takeBytes, if_neg h]
  | cons c rest ih =>
    simp only [List.cons_append, takeBytes, byteLength_cons, Nat.le_add_right, if_true,
      Nat.add_sub_cancel_left, ih]

end Vimscript.Text
