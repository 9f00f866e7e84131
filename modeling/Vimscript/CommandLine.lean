import Vimscript.Parse

/-!
# The command line

Expressions come as arguments or, where there are none, as the lines of standard input. Each one
that parses is printed on a line of its own and each one that does not is reported; in the end
the failures are counted. What is read, printed and reported is decided here, without any input
or output.

Two kinds of text are left out. Log lines are not reported: the command logs a warning about each
expression that does not parse, next to the message about it, and more where it is asked to be
verbose. And the texts about the arguments themselves, which are the help and what is said about
arguments that make no sense, come from the library that reads arguments; of these only the exit
codes are given.
-/

namespace Vimscript.CommandLine

/-- The form in which expressions are printed. -/
inductive Format where
  | outline
  | sexpr
  | source
deriving DecidableEq, Repr

/-- The form that a word names. -/
def Format.ofText? (word : List Char) : Option Format :=
  if word = "tree".toList then some outline
  else if word = "sexpr".toList then some sexpr
  else if word = "source".toList then some source
  else none

/-- What the options ask for. -/
structure Settings where
  /-- The form of the output. -/
  format : Format
  /-- Whether outlines show spans. -/
  spans : Bool
  /-- The bounds under which expressions are read. -/
  limits : Limits
deriving DecidableEq, Repr

/-- What a list of arguments asks for. -/
inductive Request where
  /-- To read these expressions, or standard input where there are none. -/
  | read (settings : Settings) (sources : List (List Char))
  /-- To print the version. -/
  | version
  /-- To print how the command is used. -/
  | help
  /-- Nothing: the arguments make no sense. -/
  | misuse
deriving DecidableEq, Repr

/-- The options read so far. Those that take a value, and the one for spans, may be given once. -/
structure Options where
  format : Option Format
  spans : Bool
  parseDepth : Option Nat
  exprDepth : Option Nat

/-- No options. -/
def Options.none : Options := ⟨.none, false, .none, .none⟩

/-- The settings that options make, with defaults for those not given. -/
def Options.settings (options : Options) : Settings where
  format := options.format.getD .sexpr
  spans := options.spans
  limits :=
    { Limits.default with
      parseDepth := options.parseDepth.getD Limits.default.parseDepth
      exprDepth := options.exprDepth.getD Limits.default.exprDepth }

/-- A bound: decimal digits behind an optional plus sign, within an unsigned word of 64 bits. -/
def natOfText? (word : List Char) : Option Nat :=
  let digits := match word with
    | '+' :: rest => rest
    | word => word
  if digits ≠ [] ∧ digits.all Char.isDigit ∧ Decimal.natOfDigits digits < 0x10000000000000000 then
    some (Decimal.natOfDigits digits)
  else none

/-- The options with a value for the option of a name; there are none where the name is unknown,
the value does not fit it or the option has one already. -/
def Options.set? (options : Options) (name value : List Char) : Option Options :=
  if name = "format".toList then
    if options.format.isSome then .none
    else (Format.ofText? value).map fun format => { options with format := some format }
  else if name = "max-parse-depth".toList then
    if options.parseDepth.isSome then .none
    else (natOfText? value).map fun depth => { options with parseDepth := some depth }
  else if name = "max-ast-depth".toList then
    if options.exprDepth.isSome then .none
    else (natOfText? value).map fun depth => { options with exprDepth := some depth }
  else .none

/-- Whether an option of this name takes a value. -/
def takesValue (name : List Char) : Bool :=
  name = "format".toList || name = "max-parse-depth".toList || name = "max-ast-depth".toList

/-- Whether an argument is an option rather than an expression. A dash alone is an expression. -/
def isOption : List Char → Bool
  | '-' :: _ :: _ => true
  | _ => false

/-- What a bundle of short options asks for, if it asks for anything but more log output. -/
def shortOptions : List Char → Option Request
  | [] => none
  | 'v' :: rest => shortOptions rest
  | 'V' :: _ => some .version
  | 'h' :: _ => some .help
  | _ => some .misuse

/-- What an option without a value leads to: other options, or a request at once. -/
def longOption (options : Options) (name : List Char) : Request ⊕ Options :=
  if name = "spans".toList then
    if options.spans then .inl .misuse else .inr { options with spans := true }
  else if name = "verbose".toList then .inr options
  else if name = "version".toList then .inl .version
  else if name = "help".toList then .inl .help
  else .inl .misuse

/-- Reads arguments from the left, with the options and expressions read before them. The first
argument that settles the request, by making no sense or by asking for something else, decides. -/
def readArgs (options : Options) (sources : List (List Char)) : List (List Char) → Request
  | [] => .read options.settings sources
  | ['-', '-'] :: rest => .read options.settings (sources ++ rest)
  | ('-' :: '-' :: long) :: rest =>
    let name := long.takeWhile (· != '=')
    match long.dropWhile (· != '=') with
    | _ :: value =>
      match options.set? name value with
      | some options => readArgs options sources rest
      | none => .misuse
    | [] =>
      if takesValue name then
        match rest with
        | value :: rest =>
          if isOption value then .misuse
          else match options.set? name value with
            | some options => readArgs options sources rest
            | none => .misuse
        | [] => .misuse
      else match longOption options name with
        | .inl request => request
        | .inr options => readArgs options sources rest
  | ('-' :: c :: short) :: rest =>
    match shortOptions (c :: short) with
    | some request => request
    | none => readArgs options sources rest
  | source :: rest => readArgs options (sources ++ [source]) rest

/-- What the arguments ask for. -/
def request (args : List (List Char)) : Request := readArgs Options.none [] args

/-- The lines of a text, each without its line feed and a carriage return before it. Characters
behind the last line feed are a line of their own. `current` holds the characters of the line so
far, the latest first. -/
def linesFrom (current : List Char) : List Char → List (List Char)
  | [] => if current.isEmpty then [] else [current.reverse]
  | '\n' :: rest =>
    match current with
    | '\r' :: line => line.reverse :: linesFrom [] rest
    | line => line.reverse :: linesFrom [] rest
  | c :: rest => linesFrom (c :: current) rest

/-- The expressions on standard input: its lines that are not blank throughout. -/
def sourcesOfInput (input : List Char) : List (List Char) :=
  (linesFrom [] input).filter fun line => !line.all Text.isBlank

/-- An expression in the form asked for. -/
def render (settings : Settings) (e : Expr Span) : List Char :=
  match settings.format with
  | .sexpr => e.sexpr
  | .source => e.source
  | .outline =>
    let style := if settings.spans then .withSpans 2 else .plain Span
    Text.trimEnd (e.outline style)

/-- What is printed, what is reported and how the command ends. -/
structure Report where
  /-- The exit code. -/
  exitCode : Nat
  /-- The text on standard output. -/
  output : List Char
  /-- The messages on standard error, one after the other, with no log lines between them. -/
  errors : List (List Char)
deriving DecidableEq, Repr

/-- The message about an expression that does not parse. -/
def failureMessage (source : List Char) (error : Error) : List Char :=
  "error: ".toList ++ source ++ ": ".toList ++ error.message

/-- The message that counts failures. -/
def countMessage (failures total : Nat) : List Char :=
  "Error: ".toList ++ Text.natural failures ++ " of ".toList ++ Text.natural total ++
    " expression(s) failed to parse".toList

/-- One expression that parses on the output, or one message about it. -/
def Report.add (settings : Settings) (source : List Char) (report : Report) : Report :=
  match parseWithin settings.limits source with
  | .ok e => { report with output := render settings e ++ '\n' :: report.output }
  | .error error => { report with errors := failureMessage source error :: report.errors }

/-- The report on expressions, in their order, without the final count. -/
def reportEach (settings : Settings) (sources : List (List Char)) : Report :=
  sources.foldr (Report.add settings) ⟨0, [], []⟩

/-- The report on expressions. It fails if any of them does. -/
def reportOn (settings : Settings) (sources : List (List Char)) : Report :=
  let report := reportEach settings sources
  if report.errors.isEmpty then report
  else
    { report with
      exitCode := 1
      errors := report.errors ++ [countMessage report.errors.length sources.length] }

/-- The name and version of the command. -/
def versionText : List Char := "vimexpr 0.1.0\n".toList

/-- The report that a request leads to, where help and misuse are told by their exit codes alone.
The text of standard input counts only where the arguments hold no expression. -/
def answer (input : List Char) : Request → Report
  | .read settings [] => reportOn settings (sourcesOfInput input)
  | .read settings sources => reportOn settings sources
  | .version => ⟨0, versionText, []⟩
  | .help => ⟨0, [], []⟩
  | .misuse => ⟨2, [], []⟩

/-- The report for arguments and a text on standard input. -/
def run (args : List (List Char)) (input : List Char) : Report := answer input (request args)

end Vimscript.CommandLine
