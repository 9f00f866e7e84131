import Vimscript.Grammar.Pattern
import Vimscript.Text.Class

/-!
# The expression grammar

The pattern of every rule. Operators stand in tiers, each tier a spaced sequence of the next
tighter one. What is attached behind a primary follows it without blanks, while the inside of
brackets is spaced again. Tokens are tight and hold no rules, so their nodes have no children.
-/

namespace Vimscript

namespace Pattern

/-- A decimal digit. -/
def digit : Pattern := char Char.isDigit

/-- A binary digit. -/
def binaryDigit : Pattern := char Text.isBinaryDigit

/-- An octal digit. -/
def octalDigit : Pattern := char Text.isOctalDigit

/-- A hexadecimal digit. -/
def hexDigit : Pattern := char Text.isHexDigit

/-- Any character. -/
def anyChar : Pattern := char fun _ => true

/-- The point after which no word goes on. -/
def wordEnd : Pattern := without (char Text.isWordChar)

/-- A token that a change of spacing makes one step dearer. -/
def tokenBody (part : Pattern) : Pattern := counted part

end Pattern

namespace Rule

/-- Whether entering a rule changes the spacing around it, which costs a step of its own. -/
def changesSpacing : Rule → Bool
  | postfixed | subscript | methodCall | callArgs | primary | lambdaExpr | lambda | option
  | envVariable | functionCall | variableRef => true
  | _ => false

end Rule

namespace Pattern

/-- A rule inside a pattern. -/
def call (r : Rule) : Pattern := if r.changesSpacing then counted (rule r) else rule r

/-- A tier of operators: operands of the next tighter tier with operators between them. -/
def tier (operand operator : Rule) : Pattern :=
  spaced [call operand, spacedStar (spaced [call operator, call operand])]

/-- Parts with commas between them and perhaps one more at the end, or nothing. -/
def commaList (part : Rule) : Pattern :=
  optional (spaced [call part, spacedStar (spaced [token ",", call part]), optional (token ",")])

end Pattern

namespace Rule

open Pattern

/-- The pattern of a rule. -/
def pattern : Rule → Pattern
  | endOfInput => finish
  | expression => spaced [empty, call expr, call endOfInput]
  | expr =>
    spaced [call logicalOr,
      spacedStar (spaced [firstOf [call coalesce, call ternaryThen], call logicalOr])]
  | coalesce => token "??"
  | ternaryThen => spaced [token "?", call expr, token ":"]
  | logicalOr => tier logicalAnd orOp
  | logicalAnd => tier comparison andOp
  | comparison => tier additive compareOp
  | additive => tier multiplicative addOp
  | multiplicative => tier unary mulOp
  | orOp => token "||"
  | andOp => token "&&"
  | compareOp =>
    tokenBody (tight
      [firstOf [token "==", token "!=", token ">=", token "<=", token "=~", token "!~", token ">",
        token "<", tight [firstOf [token "isnot", token "is"], wordEnd]],
      optional (firstOf [token "#", token "?"])])
  | addOp => firstOf [token "..", token ".", token "+", token "-"]
  | mulOp => firstOf [token "*", token "/", token "%"]
  | unary => spaced [spacedStar (call unaryOp), call postfixed]
  | unaryOp => firstOf [token "!", token "-", token "+"]
  | postfixed =>
    tight [call primary, star (firstOf [call subscript, call methodCall, call callArgs])]
  | subscript =>
    spaced [token "[",
      firstOf
        [spaced [call expr, optional (spaced [call sliceSep, optional (call expr)])],
          spaced [call sliceSep, optional (call expr)]],
      token "]"]
  | sliceSep => token ":"
  | methodCall =>
    spaced [token "->", firstOf [spaced [call lambda, call callArgs], call functionCall]]
  | callArgs =>
    spaced [token "(", call callArg, spacedStar (spaced [token ",", call callArg]), token ")"]
  | callArg => optional (call expr)
  | primary =>
    firstOf [call blob, call float, call integer, call string, call literalDict, call lambdaExpr,
      call dict, call list, spaced [token "(", call expr, token ")"], call option,
      call envVariable, call register, call functionCall, call variableRef]
  | blob => tokenBody (tight [tokenAnyCase "0z", star (firstOf [hexDigit, token "."])])
  | float =>
    tokenBody (tight [plus digit, token ".", plus digit,
      optional (tight [tokenAnyCase "e", optional (firstOf [token "+", token "-"]), digit,
        star digit])])
  | integer =>
    tokenBody (tight
      [firstOf [tight [tokenAnyCase "0x", hexDigit, star hexDigit],
        tight [tokenAnyCase "0b", binaryDigit, star binaryDigit],
        tight [tokenAnyCase "0o", octalDigit, star octalDigit],
        plus digit],
      wordEnd])
  | string =>
    tokenBody (firstOf
      [tight [token "\"",
        star (firstOf [tight [token "\\", anyChar],
          tight [without (firstOf [token "\"", token "\\"]), anyChar]]),
        token "\""],
      tight [token "'", star (firstOf [token "''", tight [without (token "'"), anyChar]]),
        token "'"]])
  | list => spaced [token "[", commaList expr, token "]"]
  | dict => spaced [token "\x7b", commaList dictEntry, token "\x7d"]
  | dictEntry => spaced [call expr, token ":", call expr]
  | literalDict => spaced [token "#\x7b", commaList literalDictEntry, token "\x7d"]
  | literalDictEntry => spaced [call literalDictKey, token ":", call expr]
  | literalDictKey => tokenBody (plus (char Text.isKeyChar))
  | lambdaExpr => tight [call lambda, optional (call callArgs)]
  | lambda => spaced [token "\x7b", call lambdaParams, token "->", call expr, token "\x7d"]
  | lambdaParams =>
    optional (spaced [call lambdaParam, spacedStar (spaced [token ",", call lambdaParam])])
  | lambdaParam => tokenBody (tight [char Text.isNameStart, star (char Text.isWordChar)])
  | option => tight [token "&", optional (call optionScope), call optionName]
  | optionScope => tokenBody (tight [firstOf [token "g", token "l"], token ":"])
  | optionName => tokenBody (tight [char Char.isAlpha, star (char Text.isWordChar)])
  | envVariable => tight [token "$", call envName]
  | envName => tokenBody (plus (char Text.isWordChar))
  | register => tokenBody (tight [token "@", char Text.isRegisterName])
  | functionCall => tight [optional (call scope), call functionName, call callArgs]
  | variableRef => firstOf [tight [call scope, call scopedName], call variableName]
  | scope => tokenBody (tight [char Text.isScopeLetter, token ":"])
  | functionName => tokenBody (tight [char Text.isNameStart, star (char Text.isNameChar)])
  | variableName => tokenBody (tight [char Text.isNameStart, star (char Text.isNameChar)])
  | scopedName => tokenBody (plus (char Text.isNameChar))

end Rule

end Vimscript
