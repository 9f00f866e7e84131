import Vimscript.Expr.Sexpr
import Vimscript.Span

/-!
# Outlines

The outline of an expression has one line for each node and, below it, a labelled line for each
of its parts, whose own lines stand two levels deeper. A line may show the mark of its node in
front. The lines are made first and joined at the end.
-/

namespace Vimscript.Expr

/-- How outlines are laid out. -/
structure OutlineStyle (Mark : Type) where
  /-- The number of blanks for one level. -/
  indent : Nat
  /-- What is shown of the mark of a node. -/
  showMark : Mark → List Char

/-- Two blanks a level and no marks. -/
def OutlineStyle.plain (Mark : Type) : OutlineStyle Mark := ⟨2, fun _ => []⟩

/-- A span in front of a line. -/
def showSpan (s : Span) : List Char :=
  '[' :: Text.natural s.start ++ "..".toList ++ Text.natural s.stop ++ "] ".toList

/-- Each node behind its span. -/
def OutlineStyle.withSpans (indent : Nat) : OutlineStyle Span := ⟨indent, showSpan⟩

variable {Mark : Type}

/-- The blanks in front of a line. -/
def margin (style : OutlineStyle Mark) (level : Nat) : List Char :=
  List.replicate (level * style.indent) ' '

/-- The line of a node. -/
def headLine (style : OutlineStyle Mark) (level : Nat) (mark : Mark) (text : List Char) :
    List Char :=
  margin style level ++ style.showMark mark ++ text

/-- The line that names a part. -/
def labelLine (style : OutlineStyle Mark) (level : Nat) (label : String) : List Char :=
  margin style level ++ "  ".toList ++ label.toList ++ [':']

/-- The line that names the key or the value of an entry, deeper than that of a part. -/
def entryLine (style : OutlineStyle Mark) (level : Nat) (label : String) : List Char :=
  margin style level ++ "    ".toList ++ label.toList ++ [':']

/-- The line that names a list of parts; there is none over an empty list. -/
def groupLines {Part : Type} (style : OutlineStyle Mark) (level : Nat) (label : String)
    (parts : List Part) : List (List Char) :=
  if parts.isEmpty then [] else [labelLine style level label]

/-- The word for a kind of constant. -/
def literalKind : Literal → List Char
  | .int _ => "Int".toList
  | .float _ => "Float".toList
  | .string _ => "String".toList

mutual

/-- The lines of an expression at a level. -/
def lines (style : OutlineStyle Mark) (level : Nat) : Expr Mark → List (List Char)
  | literal mark value =>
    [headLine style level mark
      ("Literal(".toList ++ literalKind value ++ '(' :: value.plainText ++ "))".toList)]
  | list mark items =>
    headLine style level mark "List".toList ::
      groupLines style level "elements" items ++ itemLines style level items
  | dict mark entries =>
    headLine style level mark "Dict".toList ::
      groupLines style level "entries" entries ++ entryLines style level entries
  | var mark scope name =>
    [headLine style level mark ("Variable(".toList ++ Scope.optionalText scope ++ name ++ [')'])]
  | option mark scope name =>
    [headLine style level mark ("Option(&".toList ++ Scope.optionalText scope ++ name ++ [')'])]
  | env mark name => [headLine style level mark ("Env($".toList ++ name ++ [')'])]
  | register mark name => [headLine style level mark ("Register(@".toList ++ [name, ')'])]
  | unary mark op operand =>
    headLine style level mark ("Unary (".toList ++ op.text ++ [')']) ::
      labelLine style level "operand" :: lines style (level + 2) operand
  | binary mark op left right =>
    headLine style level mark ("Binary (".toList ++ op.text ++ [')']) ::
      labelLine style level "left" :: lines style (level + 2) left ++
      labelLine style level "right" :: lines style (level + 2) right
  | ternary mark condition ifTrue ifFalse =>
    headLine style level mark "Ternary".toList ::
      labelLine style level "condition" :: lines style (level + 2) condition ++
      labelLine style level "if_true" :: lines style (level + 2) ifTrue ++
      labelLine style level "if_false" :: lines style (level + 2) ifFalse
  | falsy mark left right =>
    headLine style level mark "Falsy".toList ::
      labelLine style level "left" :: lines style (level + 2) left ++
      labelLine style level "right" :: lines style (level + 2) right
  | call mark scope name args =>
    headLine style level mark
        ("FunctionCall (".toList ++ Scope.optionalText scope ++ name ++ [')']) ::
      groupLines style level "args" args ++ itemLines style level args
  | lambda mark params body =>
    headLine style level mark ("Lambda (".toList ++ ", ".toList.intercalate params ++ [')']) ::
      labelLine style level "body" :: lines style (level + 2) body
  | lambdaCall mark callee args =>
    headLine style level mark "LambdaCall".toList ::
      labelLine style level "callee" :: lines style (level + 2) callee ++
      groupLines style level "args" args ++ itemLines style level args
  | funcrefCall mark callee args =>
    headLine style level mark "FuncrefCall".toList ::
      labelLine style level "callee" :: lines style (level + 2) callee ++
      groupLines style level "args" args ++ itemLines style level args
  | slice mark base lower upper =>
    headLine style level mark "Sublist".toList ::
      labelLine style level "base" :: lines style (level + 2) base ++
      boundLines style level "from" lower ++ boundLines style level "to" upper
  | index mark base key =>
    headLine style level mark "Index".toList ::
      labelLine style level "base" :: lines style (level + 2) base ++
      labelLine style level "index" :: lines style (level + 2) key

/-- The lines of parts one after the other. -/
def itemLines (style : OutlineStyle Mark) (level : Nat) : List (Expr Mark) → List (List Char)
  | [] => []
  | item :: rest => lines style (level + 2) item ++ itemLines style level rest

/-- The lines of the keys and values of a dictionary, three levels deeper than its own. -/
def entryLines (style : OutlineStyle Mark) (level : Nat) :
    List (Expr Mark × Expr Mark) → List (List Char)
  | [] => []
  | (key, value) :: rest =>
    entryLine style level "key" :: lines style (level + 3) key ++
      entryLine style level "value" :: lines style (level + 3) value ++
      entryLines style level rest

/-- The lines of a bound; there are none for an open side. -/
def boundLines (style : OutlineStyle Mark) (level : Nat) (label : String) :
    Option (Expr Mark) → List (List Char)
  | none => []
  | some bound => labelLine style level label :: lines style (level + 2) bound

end

/-- The outline of an expression, each line with its line feed. -/
def outline (style : OutlineStyle Mark) (e : Expr Mark) : List Char :=
  (lines style 0 e).flatMap fun line => line ++ ['\n']

end Vimscript.Expr
