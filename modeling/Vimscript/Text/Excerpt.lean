import Vimscript.Text.Bytes

/-!
# Excerpts

The nodes of a parse tree overlap: each covers the text of its children. An excerpt therefore
does not copy its characters. It holds the text that follows its first character and the number
of bytes that belong to it, so that all excerpts of one source share that source.
-/

namespace Vimscript

/-- The first `size` bytes of `tail`. -/
structure Excerpt where
  /-- The source from the first character of the excerpt on. -/
  tail : List Char
  /-- How many bytes of it belong to the excerpt. -/
  size : Nat

namespace Excerpt

/-- The characters of an excerpt. -/
def toList (e : Excerpt) : List Char := Text.takeBytes e.size e.tail

/-- A whole text as an excerpt of itself. -/
def ofList (text : List Char) : Excerpt := ⟨text, Text.byteLength text⟩

/-- The excerpt of a whole text is the text. -/
@[simp] theorem toList_ofList (text : List Char) : (ofList text).toList = text := by
  have h := Text.takeBytes_append text []
  rwa [List.append_nil] at h

end Excerpt

end Vimscript
