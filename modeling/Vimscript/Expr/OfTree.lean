import Vimscript.Decimal.Nearest
import Vimscript.Error
import Vimscript.Expr.Basic
import Vimscript.Numeral
import Vimscript.Text.Class
import Vimscript.Text.Quoted
import Vimscript.Tree.Gap
import Vimscript.Tree.Tag

/-!
# The expression of a parse tree

A parse tree is read from its root on, the parts of a node in source order, and the first part
that cannot be read refuses the tree. Trees need not come from the grammar: a node whose children
do not have the shape its tag asks for is refused as a shape.

Operators of one tier arrive as a flat run and are folded to the left; conditionals are folded to
the right. In the additive tier a point that stands tight behind something that could be a
dictionary names a field, or calls one, and a tight minus sign behind a field goes on with its
key.

Each conditional level inside another takes one unit of a budget. The budget is an argument, so
leaving a level gives its unit back.
-/

namespace Vimscript

namespace Expr

/-- An operator between two operands, over both their spans. -/
def join (op : BinaryOp) (left right : Expr Span) : Expr Span :=
  binary (left.mark.merge right.mark) op left right

/-- A field of a base, over the spans of both. -/
def field (base : Expr Span) (key : List Char) (span : Span) : Expr Span :=
  index (base.mark.merge span) base (literal span (.string key))

/-- Whether a value of this shape could be a dictionary when the program runs. -/
def couldBeDict {Mark : Type} : Expr Mark → Bool
  | list _ _ | unary _ _ _ | literal _ _ => false
  | _ => true

/-- An expression behind a tight point. A call becomes a call of the field of its name; a text
that can be a key names a field; anything else is concatenated. -/
def dot (left right : Expr Span) (rightText : List Char) : Expr Span :=
  match right with
  | call span _ name args =>
    let callee := field left name span
    funcrefCall callee.mark callee args
  | right =>
    if Text.isLiteralKey rightText then field left rightText right.mark
    else join .concat left right

/-- A field with a dash and more behind its key, if the expression is a field with a text for its
key. -/
def extendKey? (suffix : List Char) (span : Span) : Expr Span → Option (Expr Span)
  | index whole base (literal keySpan (.string key)) =>
    some (index (whole.merge span) base
      (literal (keySpan.merge span) (.string (key ++ '-' :: suffix))))
  | _ => none

end Expr

namespace Tree

/-- The refusal of a node that cannot stand where it stands. -/
def unexpected {α : Type} (span : Span) : Except Error α := .error (.unsupported span .shape)

/-- Refuses a node that has not the given tag. -/
def expect (tag : Tag) (tree : Tree Tag) : Except Error Unit :=
  if tree.label = tag then .ok () else unexpected tree.span

/-- Takes a unit of the budget for a level at a place, and goes on with the rest. -/
def charge {α : Type} (budget : Nat) (span : Span) (level : Nat → Except Error α) :
    Except Error α :=
  match budget with
  | 0 => .error (.nestingDepth span none)
  | budget + 1 => level budget

/-- The binary operator of a token. -/
def binaryOp (tree : Tree Tag) : Except Error BinaryOp := do
  expect .operator tree
  match BinaryOp.ofToken? tree.text with
  | some op => .ok op
  | none => .error (.unknownOperator tree.span tree.text)

/-- A prefix operator in front of an operand. -/
def applyUnary (tree : Tree Tag) (operand : Expr Span) : Except Error (Expr Span) := do
  expect .operator tree
  match UnaryOp.ofToken? tree.text with
  | some op => .ok (.unary (tree.span.merge operand.mark) op operand)
  | none => .error (.unknownOperator tree.span tree.text)

/-- An additive operator between two operands, where `tight` says that no blank stands beside
it. -/
def applyAdditive (tight : Bool) (op : Tree Tag) (left right : Expr Span)
    (rightText : List Char) : Except Error (Expr Span) :=
  let plain := (binaryOp op).map fun op => Expr.join op left right
  if tight ∧ op.text = ['.'] ∧ left.couldBeDict then .ok (left.dot right rightText)
  else if tight ∧ op.text = ['-'] ∧ Text.isLiteralKey rightText then
    match left.extendKey? rightText right.mark with
    | some extended => .ok extended
    | none => plain
  else plain

/-- The scope of a scope token. -/
def scopeOf (tree : Tree Tag) : Except Error Scope := do
  expect .scope tree
  match Scope.ofText? tree.text with
  | some scope => .ok scope
  | none => .error (.unsupported tree.span .scope)

/-- The text of a name token. -/
def nameOf (tree : Tree Tag) : Except Error (List Char) := do
  expect .name tree
  return tree.text

/-- The optional scope and the name of a reference. -/
def scopedName (span : Span) : List (Tree Tag) → Except Error (Option Scope × List Char)
  | [name] => return (none, ← nameOf name)
  | [scope, name] => return (some (← scopeOf scope), ← nameOf name)
  | _ => unexpected span

/-- The names of lambda parameters. -/
def paramNames (tree : Tree Tag) : Except Error (List (List Char)) := do
  expect .lambdaParams tree
  tree.children.mapM nameOf

/-- The value of an integer literal. -/
def integer (span : Span) (text : List Char) : Except Error (Expr Span) :=
  match Numeral.decode? text with
  | some value => .ok (.literal span (.int value))
  | none => .error (.invalidLiteral span .integer text)

/-- The value of a float literal, which has to be finite. -/
def float (span : Span) (text : List Char) : Except Error (Expr Span) :=
  match (Binary64.ofText? text).filter Binary64.isFinite with
  | some value => .ok (.literal span (.float value))
  | none => .error (.invalidLiteral span .float text)

/-- The value of a string literal. -/
def string (span : Span) (text : List Char) : Except Error (Expr Span) :=
  match Text.Quoted.decode text with
  | some value => .ok (.literal span (.string value))
  | none => unexpected span

/-- A reference to a register: the character behind the sign. -/
def register (span : Span) : List Char → Except Error (Expr Span)
  | '@' :: name :: _ => .ok (.register span name)
  | _ => unexpected span

/-- A call of what stands before its arguments. -/
def callOf (span : Span) (callee : Expr Span) (args : List (Expr Span)) : Expr Span :=
  match callee with
  | .lambda _ _ _ => .lambdaCall span callee args
  | _ => .funcrefCall span callee args

mutual

/-- The expression of a node. -/
def exprWithin (budget : Nat) : Tree Tag → Except Error (Expr Span)
  | node tag span excerpt children =>
    match tag with
    | .root => rootWithin budget span children
    | .conditional =>
      if children.length % 2 = 0 then unexpected span
      else conditionalWithin budget span children
    | .logicalOr | .logicalAnd | .comparison | .multiplicative =>
      binaryWithin budget span children
    | .additive => additiveWithin budget span excerpt.toList children
    | .unary => unaryWithin budget span children
    | .postfixed => postfixedWithin budget span children
    | .primary => primaryWithin budget span children
    | .integer => integer span excerpt.toList
    | .float => float span excerpt.toList
    | .string => string span excerpt.toList
    | .blob => .error (.unsupported span .blob)
    | .list => return .list span (← itemsWithin budget children)
    | .dict => return .dict span (← entriesWithin budget children)
    | .literalDict => return .dict span (← literalEntriesWithin budget children)
    | .lambdaExpr => lambdaExprWithin budget span children
    | .lambda => lambdaWithin budget span children
    | .functionCall => do
      let (scope, name, args) ← callPartsWithin budget span children
      return .call span scope name args
    | .variableRef => do
      let (scope, name) ← scopedName span children
      return .var span scope name
    | .optionRef => do
      let (scope, name) ← scopedName span children
      return .option span scope name
    | .envVariable =>
      match children with
      | [name] => return .env span (← nameOf name)
      | _ => unexpected span
    | .register => register span excerpt.toList
    | _ => unexpected span

/-- The only child that is not an end of input. -/
def rootWithin (budget : Nat) (span : Span) : List (Tree Tag) → Except Error (Expr Span)
  | [] => unexpected span
  | child :: rest =>
    if child.label = .endOfInput then rootWithin budget span rest
    else if rest.all fun other => other.label = .endOfInput then exprWithin budget child
    else unexpected span

/-- Operands with branches between them, folded to the right. -/
def conditionalWithin (budget : Nat) (span : Span) : List (Tree Tag) → Except Error (Expr Span)
  | [] => unexpected span
  | [operand] => exprWithin budget operand
  | operand :: node tag branchSpan _ parts :: rest => do
    let left ← exprWithin budget operand
    match tag, parts with
    | .coalesce, _ => do
      let right ← conditionalWithin budget span rest
      return .falsy (left.mark.merge right.mark) left right
    | .ternaryThen, [branch] => do
      let ifTrue ← charge budget branch.span fun budget => exprWithin budget branch
      let right ← conditionalWithin budget span rest
      return .ternary (left.mark.merge right.mark) left ifTrue right
    | _, _ => unexpected branchSpan

/-- A run of operands and operators, folded to the left. -/
def binaryWithin (budget : Nat) (span : Span) : List (Tree Tag) → Except Error (Expr Span)
  | [] => unexpected span
  | first :: rest => do
    let left ← exprWithin budget first
    binaryFrom budget span left rest

/-- The rest of a run behind what has been folded so far. An operator is looked at after the
operand on its right. -/
def binaryFrom (budget : Nat) (span : Span) (left : Expr Span) :
    List (Tree Tag) → Except Error (Expr Span)
  | [] => return left
  | [_] => unexpected span
  | op :: operand :: rest => do
    let right ← exprWithin budget operand
    let op ← binaryOp op
    binaryFrom budget span (.join op left right) rest

/-- A run of additive operators, under a parent with the given text. -/
def additiveWithin (budget : Nat) (span : Span) (text : List Char) :
    List (Tree Tag) → Except Error (Expr Span)
  | [] => unexpected span
  | first :: rest => do
    let left ← exprWithin budget first
    additiveFrom budget span text first left rest

/-- The rest of an additive run behind the operand `last` and what has been folded so far. -/
def additiveFrom (budget : Nat) (span : Span) (text : List Char) (last : Tree Tag)
    (left : Expr Span) : List (Tree Tag) → Except Error (Expr Span)
  | [] => return left
  | [_] => unexpected span
  | op :: operand :: rest => do
    expect .operator op
    let tight := !blankAmong span.start text [last, op, operand]
    let right ← exprWithin budget operand
    let joined ← applyAdditive tight op left right (Text.trim operand.text)
    additiveFrom budget span text operand joined rest

/-- Prefix operators in front of an operand; the nearest applies first. -/
def unaryWithin (budget : Nat) (span : Span) : List (Tree Tag) → Except Error (Expr Span)
  | [] => unexpected span
  | [operand] => exprWithin budget operand
  | op :: next :: rest => do
    let operand ← unaryWithin budget span (next :: rest)
    applyUnary op operand

/-- A primary and what is attached behind it. -/
def postfixedWithin (budget : Nat) (span : Span) : List (Tree Tag) → Except Error (Expr Span)
  | [] => unexpected span
  | first :: rest => do
    let base ← exprWithin budget first
    attachedWithin budget base rest

/-- Subscripts, method calls and calls behind a base, from the left. -/
def attachedWithin (budget : Nat) (base : Expr Span) :
    List (Tree Tag) → Except Error (Expr Span)
  | [] => return base
  | node tag span _ parts :: rest => do
    let whole := base.mark.merge span
    let attached ← match tag with
      | .subscript => subscriptWithin budget span whole base parts
      | .methodCall => methodCallWithin budget span whole base parts
      | .callArgs => (argsWithin budget parts).map (callOf whole base)
      | _ => unexpected span
    attachedWithin budget attached rest

/-- An index or a slice. The first separator parts the bounds of a slice, and each side holds at
most one. -/
def subscriptWithin (budget : Nat) (span whole : Span) (base : Expr Span) :
    List (Tree Tag) → Except Error (Expr Span)
  | [only] =>
    if only.label = .sliceSeparator then return .slice whole base none none
    else do
      let key ← charge budget only.span fun budget => exprWithin budget only
      return .index whole base key
  | [first, second] =>
    if first.label = .sliceSeparator then do
      let upper ← charge budget second.span fun budget => exprWithin budget second
      return .slice whole base none (some upper)
    else if second.label = .sliceSeparator then do
      let lower ← charge budget first.span fun budget => exprWithin budget first
      return .slice whole base (some lower) none
    else unexpected span
  | [first, second, third] =>
    if first.label ≠ .sliceSeparator ∧ second.label = .sliceSeparator then do
      let lower ← charge budget first.span fun budget => exprWithin budget first
      let upper ← charge budget third.span fun budget => exprWithin budget third
      return .slice whole base (some lower) (some upper)
    else unexpected span
  | _ => unexpected span

/-- A call of a method: the receiver is the first argument. -/
def methodCallWithin (budget : Nat) (span whole : Span) (receiver : Expr Span) :
    List (Tree Tag) → Except Error (Expr Span)
  | [node tag callSpan _ parts] =>
    if tag = .functionCall then do
      let (scope, name, args) ← callPartsWithin budget callSpan parts
      return .call whole scope name (receiver :: args)
    else unexpected span
  | [node tag lambdaSpan _ parts, node argsTag argsSpan _ slots] =>
    if tag = .lambda then do
      let callee ← lambdaWithin budget lambdaSpan parts
      if argsTag = .callArgs then do
        let args ← argsWithin budget slots
        return .lambdaCall whole callee (receiver :: args)
      else unexpected argsSpan
    else unexpected span
  | _ => unexpected span

/-- The arguments of a call; places left empty are dropped. -/
def argsWithin (budget : Nat) : List (Tree Tag) → Except Error (List (Expr Span))
  | [] => return []
  | node tag span _ parts :: rest =>
    if tag = .callArg then
      match parts with
      | [] => argsWithin budget rest
      | part :: _ => do
        let arg ← charge budget part.span fun budget => exprWithin budget part
        return arg :: (← argsWithin budget rest)
    else unexpected span

/-- The only child; an expression between parentheses covers them. -/
def primaryWithin (budget : Nat) (span : Span) : List (Tree Tag) → Except Error (Expr Span)
  | [inner] =>
    if inner.label = .conditional then do
      let e ← charge budget inner.span fun budget => exprWithin budget inner
      return e.withMark span
    else exprWithin budget inner
  | _ => unexpected span

/-- The items of a list. -/
def itemsWithin (budget : Nat) : List (Tree Tag) → Except Error (List (Expr Span))
  | [] => return []
  | item :: rest => do
    let e ← charge budget item.span fun budget => exprWithin budget item
    return e :: (← itemsWithin budget rest)

/-- The entries of a dictionary. -/
def entriesWithin (budget : Nat) : List (Tree Tag) → Except Error (List (Expr Span × Expr Span))
  | [] => return []
  | node tag span _ parts :: rest =>
    match tag, parts with
    | .dictEntry, [key, value] => do
      let key ← charge budget key.span fun budget => exprWithin budget key
      let value ← charge budget value.span fun budget => exprWithin budget value
      return (key, value) :: (← entriesWithin budget rest)
    | _, _ => unexpected span

/-- The entries of a literal dictionary, whose keys stand for themselves. -/
def literalEntriesWithin (budget : Nat) :
    List (Tree Tag) → Except Error (List (Expr Span × Expr Span))
  | [] => return []
  | node tag span _ parts :: rest =>
    match tag, parts with
    | .literalDictEntry, [key, value] => do
      expect .literalDictKey key
      let value ← charge budget value.span fun budget => exprWithin budget value
      return (.literal key.span (.string key.text), value) :: (← literalEntriesWithin budget rest)
    | _, _ => unexpected span

/-- A lambda, or a lambda called where it stands. -/
def lambdaExprWithin (budget : Nat) (span : Span) : List (Tree Tag) → Except Error (Expr Span)
  | [node tag lambdaSpan _ parts] =>
    if tag = .lambda then lambdaWithin budget lambdaSpan parts else unexpected lambdaSpan
  | [node tag lambdaSpan _ parts, node argsTag argsSpan _ slots] =>
    if tag = .lambda then do
      let callee ← lambdaWithin budget lambdaSpan parts
      if argsTag = .callArgs then return .lambdaCall span callee (← argsWithin budget slots)
      else unexpected argsSpan
    else unexpected lambdaSpan
  | _ => unexpected span

/-- The parameters and the body of a lambda. -/
def lambdaWithin (budget : Nat) (span : Span) : List (Tree Tag) → Except Error (Expr Span)
  | [params, body] => do
    let params ← paramNames params
    let body ← charge budget body.span fun budget => exprWithin budget body
    return .lambda span params body
  | _ => unexpected span

/-- The optional scope, the name and the arguments of a call by name. -/
def callPartsWithin (budget : Nat) (span : Span) :
    List (Tree Tag) → Except Error (Option Scope × List Char × List (Expr Span))
  | [name, node tag argsSpan _ slots] => do
    let name ← nameOf name
    if tag = .callArgs then return (none, name, ← argsWithin budget slots)
    else unexpected argsSpan
  | [scope, name, node tag argsSpan _ slots] => do
    let scope ← scopeOf scope
    let name ← nameOf name
    if tag = .callArgs then return (some scope, name, ← argsWithin budget slots)
    else unexpected argsSpan
  | _ => unexpected span

end

/-- Whether the operators of a tag are folded to the left with no regard to blanks. -/
def foldsLeft : Tag → Bool
  | .logicalOr | .logicalAnd | .comparison | .multiplicative => true
  | _ => false

/-- Nodes of the tags that fold to the left are read as runs of operators. -/
theorem exprWithin_of_foldsLeft {budget : Nat} {tag : Tag} {span : Span} {excerpt : Excerpt}
    {ts : List (Tree Tag)} (htag : foldsLeft tag = true) :
    (node tag span excerpt ts).exprWithin budget = binaryWithin budget span ts := by
  cases tag <;> first | (cases htag; done) | simp only [exprWithin]

/-- The expression of a parse tree, with a budget of conditional levels; the outermost level
takes the first unit. -/
def toExpr (budget : Nat) (tree : Tree Tag) : Except Error (Expr Span) :=
  charge budget tree.span fun budget => exprWithin budget tree

end Tree

end Vimscript
