import Mathlib.Data.List.TakeWhile
import Vimscript.CommandLine
import Vimscript.Proofs.Decimal.ReadBack
import Vimscript.Proofs.Messages

/-!
# Reports on lines

Texts that can stand on lines are read back from a text of their lines, with or without a line feed
behind the last one. Arguments that give options in any order and spelling ask for the settings that
these make, whether expressions follow behind two dashes or stand on standard input. So both ways
lead to one report: what each line that parses is printed as, one message of one line about each
other one, and in the end the number of these.
-/

namespace Vimscript.CommandLine

/-- A text that can stand on a line of its own and is an expression there: it has no line feed, no
carriage return that would belong to a line feed behind it, and a character that is not blank. -/
structure IsLine (line : List Char) : Prop where
  newline_not_mem : '\n' ∉ line
  ends_no_return : line.getLast? ≠ some '\r'
  not_blank : line.all Text.isBlank = false

variable {line : List Char} {lines : List (List Char)}

/-- A line that counts as an expression has characters. -/
theorem IsLine.ne_nil (h : IsLine line) : line ≠ [] := by
  rintro rfl
  exact absurd h.not_blank (by decide)

/-- Characters that do not end a line go on with it. -/
theorem linesFrom_append (h : '\n' ∉ line) (current rest : List Char) :
    linesFrom current (line ++ rest) = linesFrom (line.reverse ++ current) rest := by
  induction line generalizing current with
  | nil => rfl
  | cons c line ih =>
    obtain ⟨hc, hline⟩ := List.ne_and_not_mem_of_not_mem_cons h
    have hstep : linesFrom current (c :: (line ++ rest)) =
        linesFrom (c :: current) (line ++ rest) := by
      rw [linesFrom]
      exact fun heq => hc heq.symm
    rw [List.cons_append, hstep, ih hline, List.reverse_cons, List.append_assoc]
    rfl

/-- A line feed ends the line in front of it. -/
theorem linesFrom_line (hfeed : '\n' ∉ line) (hreturn : line.getLast? ≠ some '\r')
    (rest : List Char) : linesFrom [] (line ++ '\n' :: rest) = line :: linesFrom [] rest := by
  rw [linesFrom_append hfeed, List.append_nil, linesFrom, List.reverse_reverse]
  intro current hcurrent
  rw [List.getLast?_eq_head?_reverse, hcurrent] at hreturn
  exact hreturn rfl

/-- So does the end of the text, if there is anything in front of it. -/
theorem linesFrom_last (hfeed : '\n' ∉ line) (hline : line ≠ []) : linesFrom [] line = [line] := by
  have h := linesFrom_append hfeed [] []
  rw [List.append_nil, List.append_nil] at h
  rw [h, linesFrom, if_neg (by simpa using hline), List.reverse_reverse]

/-- Lines with line feeds between them are read back, whether or not one more stands behind them. -/
theorem linesFrom_intercalate {ending : List Char} (hending : ending = [] ∨ ending = ['\n'])
    (hsome : lines ≠ []) (hlines : ∀ line ∈ lines, IsLine line) :
    linesFrom [] (['\n'].intercalate lines ++ ending) = lines := by
  induction lines with
  | nil => exact absurd rfl hsome
  | cons line rest ih =>
    have hline := hlines line List.mem_cons_self
    cases rest with
    | nil =>
      rw [List.intercalate_singleton]
      rcases hending with rfl | rfl
      · rw [List.append_nil, linesFrom_last hline.newline_not_mem hline.ne_nil]
      · rw [linesFrom_line hline.newline_not_mem hline.ends_no_return]
        rfl
    | cons next rest =>
      rw [List.intercalate_cons_cons, List.append_assoc, List.append_assoc, List.singleton_append,
        linesFrom_line hline.newline_not_mem hline.ends_no_return,
        ih (List.cons_ne_nil _ _) fun l hl => hlines l (.tail _ hl)]

/-- Lines joined by line feeds, with or without one at the end, are the sources that an input
holds. -/
theorem sourcesOfInput_intercalate {ending : List Char} (hending : ending = [] ∨ ending = ['\n'])
    (hsome : lines ≠ []) (hlines : ∀ line ∈ lines, IsLine line) :
    sourcesOfInput (['\n'].intercalate lines ++ ending) = lines := by
  rw [sourcesOfInput, linesFrom_intercalate hending hsome hlines, List.filter_eq_self]
  intro line hline
  rw [(hlines line hline).not_blank]
  rfl

/-- Bounds are words of 64 bits. -/
structure Options.Fits (options : Options) : Prop where
  parseDepth : ∀ bound ∈ options.parseDepth, bound < 2 ^ 64
  exprDepth : ∀ bound ∈ options.exprDepth, bound < 2 ^ 64

/-- Arguments that give options and nothing else, each at most once and in any order. A value
stands in the argument of its option, behind an equals sign, or in the next argument. -/
inductive Spelt : Options → List (List Char) → Prop
  | none : Spelt Options.none []
  | spans {options : Options} {args : List (List Char)} : Spelt options args →
      options.spans = false → Spelt { options with spans := true } (args ++ ["--spans".toList])
  | joined {options options' : Options} {args : List (List Char)} {name value : List Char} :
      Spelt options args → options.set? name value = some options' →
        Spelt options' (args ++ ["--".toList ++ name ++ '=' :: value])
  | apart {options options' : Options} {args : List (List Char)} {name value : List Char} :
      Spelt options args → options.set? name value = some options' →
        Spelt options' (args ++ ["--".toList ++ name, value])

variable {options options' : Options} {name value : List Char} {args : List (List Char)}

/-- An option that takes a value is one of three, may be given once, and has a value that it can
read. -/
theorem Options.set?_eq_some_iff : options.set? name value = some options' ↔
    (name = "format".toList ∧ options.format = .none ∧ ∃ form,
      Format.ofText? value = some form ∧ options' = { options with format := some form }) ∨
    (name = "max-parse-depth".toList ∧ options.parseDepth = .none ∧ ∃ bound,
      natOfText? value = some bound ∧ options' = { options with parseDepth := some bound }) ∨
    (name = "max-ast-depth".toList ∧ options.exprDepth = .none ∧ ∃ bound,
      natOfText? value = some bound ∧ options' = { options with exprDepth := some bound }) := by
  constructor
  · intro h
    unfold Options.set? at h
    split at h
    · obtain ⟨hnone, h⟩ := Option.ite_none_left_eq_some.mp h
      obtain ⟨form, hform, rfl⟩ := Option.map_eq_some_iff.mp h
      exact .inl ⟨‹_›, by simpa using hnone, form, hform, rfl⟩
    split at h
    · obtain ⟨hnone, h⟩ := Option.ite_none_left_eq_some.mp h
      obtain ⟨bound, hbound, rfl⟩ := Option.map_eq_some_iff.mp h
      exact .inr (.inl ⟨‹_›, by simpa using hnone, bound, hbound, rfl⟩)
    split at h
    · obtain ⟨hnone, h⟩ := Option.ite_none_left_eq_some.mp h
      obtain ⟨bound, hbound, rfl⟩ := Option.map_eq_some_iff.mp h
      exact .inr (.inr ⟨‹_›, by simpa using hnone, bound, hbound, rfl⟩)
    · cases h
  · rintro (⟨rfl, hnone, form, hform, rfl⟩ | ⟨rfl, hnone, bound, hbound, rfl⟩ |
      ⟨rfl, hnone, bound, hbound, rfl⟩)
    · change (if options.format.isSome then .none else (Format.ofText? value).map _) = _
      rw [hnone, hform]
      rfl
    · change (if options.parseDepth.isSome then .none else (natOfText? value).map _) = _
      rw [hnone, hbound]
      rfl
    · change (if options.exprDepth.isSome then .none else (natOfText? value).map _) = _
      rw [hnone, hbound]
      rfl

/-- No value that an option can read looks like an option. -/
theorem isOption_of_set? (h : options.set? name value = some options') :
    isOption value = false := by
  unfold isOption
  split
  · rcases Options.set?_eq_some_iff.mp h with ⟨-, -, form, hform, -⟩ | ⟨-, -, bound, hbound, -⟩ |
      ⟨-, -, bound, hbound, -⟩
    · simp [Format.ofText?] at hform
    · simp [natOfText?] at hbound
    · simp [natOfText?] at hbound
  · rfl

/-- An option that can be set takes a value, and no equals sign stands in its name. -/
theorem name_of_set? (h : options.set? name value = some options') :
    name ≠ [] ∧ name.all (· != '=') = true ∧ takesValue name = true := by
  rcases Options.set?_eq_some_iff.mp h with ⟨rfl, -⟩ | ⟨rfl, -⟩ | ⟨rfl, -⟩ <;>
    exact ⟨List.cons_ne_nil _ _, rfl, rfl⟩

/-- A value in the argument of its option. -/
theorem readArgs_joined (h : options.set? name value = some options')
    (sources rest : List (List Char)) :
    readArgs options sources (("--".toList ++ name ++ '=' :: value) :: rest) =
      readArgs options' sources rest := by
  obtain ⟨-, hname, -⟩ := name_of_set? h
  have htake : (name ++ '=' :: value).takeWhile (· != '=') = name := by
    rw [List.takeWhile_append_of_pos (List.all_eq_true.mp hname)]
    simp
  have hdrop : (name ++ '=' :: value).dropWhile (· != '=') = '=' :: value := by
    rw [List.dropWhile_append_of_pos (List.all_eq_true.mp hname)]
    simp
  change readArgs options sources (('-' :: '-' :: (name ++ '=' :: value)) :: rest) = _
  cases rest with
  | nil => simp [readArgs, htake, hdrop, h]
  | cons next rest => simp [readArgs, htake, hdrop, h]

/-- A value in the argument behind that of its option. -/
theorem readArgs_apart (h : options.set? name value = some options')
    (sources rest : List (List Char)) :
    readArgs options sources (("--".toList ++ name) :: value :: rest) =
      readArgs options' sources rest := by
  obtain ⟨hne, hname, htakes⟩ := name_of_set? h
  have htake : name.takeWhile (· != '=') = name :=
    List.takeWhile_eq_self_iff.mpr (List.all_eq_true.mp hname)
  have hdrop : name.dropWhile (· != '=') = [] :=
    List.dropWhile_eq_nil_iff.mpr (List.all_eq_true.mp hname)
  change readArgs options sources (('-' :: '-' :: name) :: value :: rest) = _
  rw [readArgs, hdrop, htake, htakes, if_pos rfl, isOption_of_set? h, h]
  · rfl
  · exact hne

/-- An option without a value. -/
theorem readArgs_alone (hne : name ≠ []) (hname : name.all (· != '=') = true)
    (htakes : takesValue name = false) (h : longOption options name = .inr options')
    (sources rest : List (List Char)) :
    readArgs options sources (("--".toList ++ name) :: rest) = readArgs options' sources rest := by
  have htake : name.takeWhile (· != '=') = name :=
    List.takeWhile_eq_self_iff.mpr (List.all_eq_true.mp hname)
  have hdrop : name.dropWhile (· != '=') = [] :=
    List.dropWhile_eq_nil_iff.mpr (List.all_eq_true.mp hname)
  change readArgs options sources (('-' :: '-' :: name) :: rest) = _
  -- An option at the end, which no value can follow, is a case of its own.
  cases rest with
  | nil =>
    rw [readArgs, readArgs, hdrop, htake, htakes, h]
    · rfl
    · exact hne
  | cons next rest =>
    rw [readArgs, hdrop, htake, htakes, h]
    · rfl
    · exact hne

/-- The flag for spans may stand anywhere and takes no value. -/
theorem readArgs_spans (h : options.spans = false) (sources rest : List (List Char)) :
    readArgs options sources ("--spans".toList :: rest) =
      readArgs { options with spans := true } sources rest := by
  refine readArgs_alone (List.cons_ne_nil _ _) rfl rfl ?_ sources rest
  change (if options.spans then Sum.inl Request.misuse else _) = _
  rw [h]
  rfl

/-- Arguments that give options are read as these, whatever follows. -/
theorem Spelt.readArgs_append (h : Spelt options args) (sources rest : List (List Char)) :
    readArgs Options.none sources (args ++ rest) = readArgs options sources rest := by
  -- By the last option given: those before it are read with it among what follows them.
  induction h generalizing rest with
  | none => rfl
  | spans _ hspans ih => rw [List.append_assoc, ih, List.singleton_append, readArgs_spans hspans]
  | joined _ hset ih => rw [List.append_assoc, ih, List.singleton_append, readArgs_joined hset]
  | apart _ hset ih =>
    rw [List.append_assoc, ih]
    exact readArgs_apart hset sources rest

/-- Without expressions behind them, options leave it to standard input to hold expressions. -/
theorem Spelt.request_eq (h : Spelt options args) :
    request args = .read options.settings [] := by
  have hread := h.readArgs_append [] []
  rw [List.append_nil] at hread
  exact hread

/-- All that stands behind two dashes are expressions. -/
theorem Spelt.request_sources (h : Spelt options args) (sources : List (List Char)) :
    request (args ++ "--".toList :: sources) = .read options.settings sources :=
  h.readArgs_append [] ("--".toList :: sources)

/-- A number that is read as a limit fits into a machine word. -/
theorem lt_of_natOfText? {word : List Char} {bound : Nat} (h : natOfText? word = some bound) :
    bound < 2 ^ 64 := by
  unfold natOfText? at h
  simp only [Option.ite_none_right_eq_some, Option.some.injEq] at h
  obtain ⟨⟨-, -, hlt⟩, rfl⟩ := h
  exact hlt

/-- Each such number is read back from its decimal form. -/
theorem natOfText?_natural {n : Nat} (h : n < 2 ^ 64) : natOfText? (Text.natural n) = some n := by
  have hdigits := Text.natural_isDigit n
  unfold natOfText?
  dsimp only
  split
  · rename_i rest hplus
    rw [hplus] at hdigits
    cases hdigits
  · rw [Decimal.natOfDigits_natural]
    exact if_pos ⟨Text.natural_ne_nil n, hdigits, h⟩

/-- Each format can be asked for by a word. -/
theorem Format.exists_word (form : Format) : ∃ word, Format.ofText? word = some form := by
  cases form with
  | outline => exact ⟨"tree".toList, rfl⟩
  | sexpr => exact ⟨"sexpr".toList, rfl⟩
  | source => exact ⟨"source".toList, rfl⟩

/-- What can be spelt fits into machine words. -/
theorem Spelt.fits (h : Spelt options args) : options.Fits := by
  induction h with
  | none => exact ⟨nofun, nofun⟩
  | spans _ _ ih => exact ⟨ih.parseDepth, ih.exprDepth⟩
  | joined _ hset ih | apart _ hset ih =>
    rcases Options.set?_eq_some_iff.mp hset with ⟨-, -, form, -, rfl⟩ |
      ⟨-, -, bound, hbound, rfl⟩ | ⟨-, -, bound, hbound, rfl⟩
    · exact ⟨ih.parseDepth, ih.exprDepth⟩
    · exact ⟨by simpa using lt_of_natOfText? hbound, ih.exprDepth⟩
    · exact ⟨ih.parseDepth, by simpa using lt_of_natOfText? hbound⟩

/-- Settings that fit can be spelt. -/
theorem Options.Fits.exists_spelt (h : options.Fits) : ∃ args, Spelt options args := by
  obtain ⟨format, spans, parseDepth, exprDepth⟩ := options
  have hspans : ∃ args, Spelt ⟨.none, spans, .none, .none⟩ args := by
    cases spans with
    | false => exact ⟨[], .none⟩
    | true => exact ⟨_, .spans .none rfl⟩
  have hformat : ∃ args, Spelt ⟨format, spans, .none, .none⟩ args := by
    obtain ⟨args, hargs⟩ := hspans
    cases format with
    | none => exact ⟨args, hargs⟩
    | some form =>
      obtain ⟨word, hword⟩ := form.exists_word
      exact ⟨_, hargs.apart (set?_eq_some_iff.mpr (.inl ⟨rfl, rfl, form, hword, rfl⟩))⟩
  have hparse : ∃ args, Spelt ⟨format, spans, parseDepth, .none⟩ args := by
    obtain ⟨args, hargs⟩ := hformat
    cases parseDepth with
    | none => exact ⟨args, hargs⟩
    | some bound =>
      have hword := natOfText?_natural (h.parseDepth bound rfl)
      exact ⟨_, hargs.apart (set?_eq_some_iff.mpr (.inr (.inl ⟨rfl, rfl, bound, hword, rfl⟩)))⟩
  obtain ⟨args, hargs⟩ := hparse
  cases exprDepth with
  | none => exact ⟨args, hargs⟩
  | some bound =>
    have hword := natOfText?_natural (h.exprDepth bound rfl)
    exact ⟨_, hargs.apart (set?_eq_some_iff.mpr (.inr (.inr ⟨rfl, rfl, bound, hword, rfl⟩)))⟩

/-- The options that can be given are those whose bounds are words. -/
theorem exists_spelt_iff : (∃ args, Spelt options args) ↔ options.Fits := by
  constructor
  · rintro ⟨args, hargs⟩
    exact hargs.fits
  · exact Options.Fits.exists_spelt

variable {settings : Settings}

/-- What standard output holds for a line: if it parses, what it is rendered as and a line feed. -/
def printed (settings : Settings) (line : List Char) : List Char :=
  match parseWithin settings.limits line with
  | .ok e => render settings e ++ ['\n']
  | .error _ => []

/-- The message about a line, if it does not parse. -/
def failure? (settings : Settings) (line : List Char) : Option (List Char) :=
  match parseWithin settings.limits line with
  | .ok _ => none
  | .error error => some (failureMessage line error)

/-- The messages about the lines that do not parse. -/
def failures (settings : Settings) (lines : List (List Char)) : List (List Char) :=
  lines.filterMap (failure? settings)

/-- There is an error line exactly if some line is refused. -/
theorem failures_ne_nil_iff : failures settings lines ≠ [] ↔
    ∃ line ∈ lines, ∃ error, parseWithin settings.limits line = .error error := by
  rw [failures, ne_eq, List.filterMap_eq_nil_iff]
  push Not
  refine exists_congr fun line => and_congr_right fun _ => ?_
  unfold failure?
  cases parseWithin settings.limits line <;> simp

/-- Each line adds to the report what it adds alone. -/
theorem reportEach_eq (settings : Settings) (lines : List (List Char)) :
    reportEach settings lines =
      ⟨0, lines.flatMap (printed settings), failures settings lines⟩ := by
  induction lines with
  | nil => rfl
  | cons line rest ih =>
    have hstep : reportEach settings (line :: rest) =
        Report.add settings line (reportEach settings rest) := rfl
    rw [hstep, ih, Report.add, failures, failures, List.flatMap_cons, List.filterMap_cons, printed,
      failure?]
    cases parseWithin settings.limits line with
    | ok e => simp
    | error error => rfl

/-- The number of failures stands behind the messages, if there are any. -/
theorem reportOn_eq (settings : Settings) (lines : List (List Char)) :
    reportOn settings lines =
      ⟨if failures settings lines = [] then 0 else 1, lines.flatMap (printed settings),
        failures settings lines ++ if failures settings lines = [] then []
          else [countMessage (failures settings lines).length lines.length]⟩ := by
  rw [reportOn, reportEach_eq]
  by_cases h : failures settings lines = []
  · simp [h]
  · simp [h]

/-- A report accounts for lines if it prints those that parse and has a message for each other one,
both in the order of the lines, and if it fails with their number exactly if there are such. -/
structure Report.Accounts (settings : Settings) (lines : List (List Char)) (report : Report) :
    Prop where
  /-- Standard output holds what the lines that parse are rendered as. -/
  output_eq : report.output = lines.flatMap (printed settings)
  /-- Standard error holds a message for each line that does not parse, and then the count. -/
  errors_eq : report.errors = failures settings lines ++
    if failures settings lines = [] then []
    else [countMessage (failures settings lines).length lines.length]
  /-- Each message is one line. -/
  newline_not_mem : ∀ message ∈ report.errors, '\n' ∉ message
  /-- The exit code tells whether each line parses. -/
  exitCode_eq : report.exitCode = if failures settings lines = [] then 0 else 1
  /-- Some line fails to parse exactly if the exit code says so and the last message counts. -/
  fails_iff : (∃ line ∈ lines, ∃ error, parseWithin settings.limits line = .error error) ↔
    report.exitCode = 1 ∧ report.errors.getLast? =
      some (countMessage (failures settings lines).length lines.length)

/-- An error line holds no line feed, whatever the line that is refused. -/
theorem newline_not_mem_failures (hlines : ∀ line ∈ lines, IsLine line) :
    ∀ message ∈ failures settings lines, '\n' ∉ message := by
  intro message hmessage
  obtain ⟨line, hline, hfailure⟩ := List.mem_filterMap.mp hmessage
  unfold failure? failureMessage at hfailure
  split at hfailure <;> cases hfailure
  rename_i error herror
  have hfeed := (hlines line hline).newline_not_mem
  simp [hfeed, newline_not_mem_message_of_parseWithin hfeed herror]

/-- Neither does the message that counts the failures. -/
theorem newline_not_mem_countMessage (failed total : Nat) :
    '\n' ∉ countMessage failed total := by
  unfold countMessage
  simp [Text.newline_not_mem_natural]

/-- The report on lines accounts for them. -/
theorem reportOn_accounts (hlines : ∀ line ∈ lines, IsLine line) :
    (reportOn settings lines).Accounts settings lines := by
  have hmessages : ∀ message ∈ failures settings lines, '\n' ∉ message :=
    newline_not_mem_failures hlines
  rw [reportOn_eq]
  refine ⟨rfl, rfl, ?_, rfl, ?_⟩
  · intro message hmessage
    rcases List.mem_append.mp hmessage with hmessage | hmessage
    · exact hmessages message hmessage
    · split at hmessage
      · cases hmessage
      · obtain rfl := List.mem_singleton.mp hmessage
        exact newline_not_mem_countMessage _ _
  · rw [← failures_ne_nil_iff]
    by_cases h : failures settings lines = []
    · simp [h]
    · simp [h]

/-- With sources among the arguments the input is not read. -/
theorem answer_read {sources : List (List Char)} (hsome : sources ≠ []) (input : List Char) :
    answer input (.read settings sources) = reportOn settings sources := by
  cases sources with
  | nil => exact absurd rfl hsome
  | cons source rest => rfl

/-- Lines that stand behind options and two dashes are reported on as those are that stand on
standard input behind the same options, whatever the spelling and the order of these, and the report
accounts for the lines. All options whose bounds are words can be given. -/
theorem run_lines (hfits : options.Fits) (hsome : lines ≠ [])
    (hlines : ∀ line ∈ lines, IsLine line) :
    ∃ report : Report, report.Accounts options.settings lines ∧
      (∃ args, Spelt options args) ∧ ∀ args, Spelt options args →
        (∀ input, run (args ++ "--".toList :: lines) input = report) ∧
          ∀ ending, ending = [] ∨ ending = ['\n'] →
            run args (['\n'].intercalate lines ++ ending) = report := by
  refine ⟨reportOn options.settings lines, reportOn_accounts hlines, exists_spelt_iff.mpr hfits,
    fun args hargs => ⟨fun input => ?_, fun ending hending => ?_⟩⟩
  · rw [run, hargs.request_sources, answer_read hsome]
  · rw [run, hargs.request_eq, answer, sourcesOfInput_intercalate hending hsome hlines]

/-- A line that parses between one that is too short and one that nests too deep. -/
theorem run_lines_failures :
    let args := ["--max-parse-depth".toList, "2".toList, "--format=source".toList]
    let lines := ["f(".toList, " ( -x )".toList, "[[[1]]]".toList]
    let report : Report :=
      ⟨1, "-x\n".toList, ["error: f(: input is incomplete; more data required".toList,
        ("error: [[[1]]]: limit exceeded at Span \x7b start: 2, end: 7 \x7d: " ++
          "Nesting depth 3 exceeds maximum of 2").toList,
        "Error: 2 of 3 expression(s) failed to parse".toList]⟩
    run (args ++ "--".toList :: lines) [] = report ∧
      run args "f(\n ( -x )\n[[[1]]]\n".toList = report := by
  intro args lines report
  let options : Options := ⟨some .source, false, some 2, none⟩
  have hdepth : Options.none.set? "max-parse-depth".toList "2".toList =
      some ⟨none, false, some 2, none⟩ := rfl
  have hformat : Options.set? ⟨none, false, some 2, none⟩ "format".toList "source".toList =
      some options := rfl
  have hspelt : Spelt options args := .joined (.apart .none hdepth) hformat
  have hfits : options.Fits := ⟨by simp [options], nofun⟩
  have hlines : ∀ line ∈ lines, IsLine line := by
    intro line hline
    simp only [lines, List.mem_cons, List.not_mem_nil, or_false] at hline
    rcases hline with rfl | rfl | rfl <;> exact ⟨by decide, by decide, by decide⟩
  have hprinted : lines.flatMap (printed options.settings) = "-x\n".toList := by decide +kernel
  have hshort : parseWithin options.settings.limits "f(".toList = .error .incomplete := rfl
  have hdeep : parseWithin options.settings.limits "[[[1]]]".toList =
      .error (.nestingDepth ⟨2, 7⟩ (some (3, 2))) := rfl
  have hfailures : failures options.settings lines = report.errors.take 2 := by
    simp only [failures, lines, List.filterMap_cons, List.filterMap_nil, failure?, hshort,
      hdeep]
    decide +kernel
  obtain ⟨result, haccounts, -, hrun⟩ := run_lines hfits (List.cons_ne_nil _ _) hlines
  obtain ⟨hargs, hinput⟩ := hrun args hspelt
  have hresult : result = report := by
    obtain ⟨exitCode, output, errors⟩ := result
    obtain ⟨houtput, herrors, -, hcode, -⟩ := haccounts
    rw [hfailures] at herrors hcode
    rw [hprinted] at houtput
    cases houtput
    cases herrors
    cases hcode
    decide +kernel
  exact ⟨(hargs []).trans hresult, (hinput ['\n'] (.inr rfl)).trans hresult⟩

end Vimscript.CommandLine
