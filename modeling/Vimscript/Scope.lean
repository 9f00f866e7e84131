import Vimscript.Text.Class

/-!
# Scopes

A scope letter and a colon in front of a name say where the name is looked up.
-/

namespace Vimscript

/-- Where a variable or function name is looked up. -/
inductive Scope where
  /-- The whole program, `g:`. -/
  | global
  /-- The script file, `s:`. -/
  | script
  /-- The function, `l:`. -/
  | functionLocal
  /-- The arguments of the function, `a:`. -/
  | argument
  /-- The buffer, `b:`. -/
  | buffer
  /-- The window, `w:`. -/
  | window
  /-- The tab page, `t:`. -/
  | tab
  /-- The editor itself, `v:`. -/
  | builtin
deriving DecidableEq, Repr

namespace Scope

/-- Every scope. -/
def all : List Scope := [global, script, functionLocal, argument, buffer, window, tab, builtin]

/-- The letter of a scope. -/
def letter : Scope → Char
  | global => 'g'
  | script => 's'
  | functionLocal => 'l'
  | argument => 'a'
  | buffer => 'b'
  | window => 'w'
  | tab => 't'
  | builtin => 'v'

/-- A scope as it stands in front of a name. -/
def text (s : Scope) : List Char := [s.letter, ':']

/-- A scope in front of a name, or nothing. -/
def optionalText : Option Scope → List Char
  | none => []
  | some s => s.text

/-- The scope that a text names, with or without its colon. -/
def ofText? (text : List Char) : Option Scope :=
  all.find? fun s => text == s.text || text == [s.letter]

/-- The text of a scope names it. -/
theorem ofText?_text (s : Scope) : ofText? s.text = some s := by
  cases s <;> decide

/-- The letters that stand for a scope are those of the scopes. -/
theorem exists_letter {c : Char} (h : Text.isScopeLetter c = true) : ∃ s : Scope, s.letter = c := by
  have h : c ∈ all.map letter := by simpa [Text.isScopeLetter, all, letter] using h
  obtain ⟨s, -, hs⟩ := List.mem_map.mp h
  exact ⟨s, hs⟩

end Scope

end Vimscript
