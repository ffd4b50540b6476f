import RangeCalc.Chart
import RangeCalc.CommandLine.Folder
import RangeCalc.CommandLine.Help
import RangeCalc.Report

/-!
# The commands

`run` calculates, `functions` explains the functions, and `init-config` writes a settings file. A command
sees the files of a folder and answers with what it prints and writes.

* `CommandResult`: what a command prints and writes, and how it ends;
* `execute`: the command that some words call.
-/

namespace RangeCalc.CommandLine

/-- What is written to a file. -/
inductive FileContent where
  | record (r : Record)
  | text (s : String)
  | chart (c : Chart)

/-- A failure that no command reports as its own. -/
inductive Failure where
  | statistics (fault : StatisticsFault)
  | settings (fault : SettingsFault)
  | notWritten (path : String) (fault : WriteFault)

/-- What keeps a file from being written. -/
def WriteFault.reason : WriteFault → String
  | noSuchFolder => "No such file or directory"
  | isFolder => "Is a directory"
  | isNoFolder => "Not a directory"
  | nameTooLong => "File name too long"

def Failure.message : Failure → String
  | .statistics fault => fault.message
  | .settings fault => fault.message
  | .notWritten path fault => fault.reason ++ ": " ++ quote path

/-- The text of a file that is written. A chart is written as a page, and under no other name. -/
def FileContent.text? (path : String) : FileContent → Option String
  | .record r => some r.json
  | .text s => some s
  | .chart c =>
    let name := path.toLower
    if name.endsWith ".html" || name.endsWith ".htm" then some c.page else none

/-- What a command prints, what it complains about and writes, its exit code, and the failure that ended
it, if any. -/
structure CommandResult where
  exitCode : Nat := 0
  lines : List String := []
  complaints : List String := []
  written : List (String × FileContent) := []
  failure : Option Failure := none

namespace CommandResult

/-- A fault that a command reports. -/
def error (message : String) : CommandResult :=
  { exitCode := 1, complaints := ["Error: " ++ message] }

/-- A fault in the call of a command. -/
def usage (c : CommandSpec) (fault : UsageFault) : CommandResult :=
  { exitCode := 2, complaints := usageText c fault }

/-- What follows a terminal code after its opening: parameters, marks between, and the character that ends
it, each of a range of its own. -/
def afterCode? (cs : List Char) : Option (List Char) :=
  let isWithin (first last : Char) (c : Char) : Bool := first ≤ c && c ≤ last
  match (cs.dropWhile (isWithin '0' '?')).dropWhile (isWithin ' ' '/') with
  | c :: rest => if isWithin '@' '~' c then some rest else none
  | [] => none

/-- A terminal code, which opens with an escape and a bracket, stands for no text. -/
def terminalCode : Text.Finder (List Char)
  | _, '\x1b' :: '[' :: rest => (afterCode? rest).map fun after => ([], after)
  | _, _ => none

/-- A text without terminal codes. -/
def plainText (s : String) : String :=
  String.ofList (Text.replaceEach terminalCode s.toList)

example : plainText "\x1b[1~2 \x1b[0;31mred\x1b[m \x1b[1+1" = "2 red \x1b[1+1" := by decide +kernel

/-- Lines of text, each with its end. -/
def joinLines (lines : List String) : String :=
  String.join (lines.map fun line => plainText line ++ "\n")

/-- All that is printed and complained about. -/
def output (r : CommandResult) : String :=
  joinLines (r.lines ++ r.complaints)

end CommandResult

/-! ## What the commands take -/

def iterationsOption : OptionSpec :=
  ⟨"--iterations", some 'n', some "INTEGER RANGE", "Monte Carlo iterations.  [x>=1]"⟩

def binsOption : OptionSpec :=
  ⟨"--bins", some 'b', some "INTEGER RANGE", "Histogram bins.  [x>=1]"⟩

def seedOption : OptionSpec :=
  ⟨"--seed", some 's', some "INTEGER", "Random seed for reproducible results."⟩

def percentileOption : OptionSpec :=
  ⟨"--percentile", some 'p', some "FLOAT RANGE",
    "Percentile to report; may be repeated.  [0<=x<=100]"⟩

def configOption : OptionSpec :=
  ⟨"--config", some 'c', some "FILE", "Settings YAML file."⟩

def plotOption : OptionSpec :=
  ⟨"--plot", none, some "FILE", "Write the histogram chart (.png, .svg or .html)."⟩

def outputOption : OptionSpec :=
  ⟨"--output", some 'o', some "FILE", "Write the outcome as JSON."⟩

def runSpec : CommandSpec where
  name := "mccalc run"
  arguments := "EXPRESSION..."
  help := "Evaluate EXPRESSION, e.g. mccalc run \"1400~1700 * 0.55~0.65 - 600~700\"."
  options :=
    [iterationsOption, binsOption, seedOption, percentileOption, configOption, plotOption, outputOption]
  mixed := true

def functionsSpec : CommandSpec where
  name := "mccalc functions"
  arguments := "[NAME]"
  help := "List the functions usable in expressions, or show help for NAME."
  options := []
  mixed := true

def initConfigSpec : CommandSpec where
  name := "mccalc init-config"
  arguments := "[PATH]"
  help := "Write the default settings to PATH (settings.yaml)."
  options := []
  mixed := true

def mainSpec : CommandSpec where
  name := "mccalc"
  arguments := "COMMAND [ARGS]..."
  help := "Monte Carlo calculator for expressions with uncertain ranges such as 5~10."
  options := [⟨"--verbose", some 'v', none, "Log progress to stderr."⟩]
  mixed := false

/-- The commands, in alphabetical order. -/
def commands : List (String × CommandSpec) :=
  [("functions", functionsSpec), ("init-config", initConfigSpec), ("run", runSpec)]

/-! ## Values of options -/

/-- The options of `run`. -/
structure RunOptions where
  iterations : Option Int := none
  bins : Option Int := none
  seed : Option Int := none
  percentiles : List Float := []
  config : Option String := none
  plot : Option String := none
  output : Option String := none

/-- A value as an integer. -/
def integerValue (o : OptionSpec) (kind value : String) : Except UsageFault Int :=
  match readInteger? value.toList with
  | some n => .ok n
  | none => .error (.badValue o (quote value ++ " is not a valid " ++ kind ++ "."))

/-- A value as an integer above zero. -/
def countValue (o : OptionSpec) (value : String) : Except UsageFault Int := do
  let n ← integerValue o "integer range" value
  if n < 1 then throw (.badValue o (toString n ++ " is not in the range x>=1."))
  return n

/-- A value as a number from zero to one hundred; an undefined number is not outside. -/
def percentValue (o : OptionSpec) (value : String) : Except UsageFault Float :=
  match readNumber? value.toList with
  | none => .error (.badValue o (quote value ++ " is not a valid float range."))
  | some x =>
    if x < 0 ∨ 100 < x then
      .error (.badValue o (numberText x ++ " is not in the range 0<=x<=100."))
    else .ok x

/-- A value as the name of a file, which may have to exist. -/
def fileValue (folder : Folder) (mustExist : Bool) (o : OptionSpec) (path : String) :
    Except UsageFault String :=
  if folder.isFolder path then .error (.badValue o ("File " ++ quote path ++ " is a directory."))
  else if mustExist && !folder.hasFile path then
    .error (.badValue o ("File " ++ quote path ++ " does not exist."))
  else .ok path

/-- A value as the name of a file to write; an empty one asks for no file. -/
def targetValue (folder : Folder) (o : OptionSpec) (path : String) :
    Except UsageFault (Option String) :=
  (fileValue folder false o path).map fun path => if path.isEmpty then none else some path

/-- Adds one option of `run` with the values given for it. All but percentiles keep their last value. -/
def RunOptions.add (folder : Folder) (p : Parsed) (done : RunOptions) (o : OptionSpec) :
    Except UsageFault RunOptions :=
  let value := (p.value? o.long).getD ""
  match o.long with
  | "--iterations" => (countValue o value).map fun n => { done with iterations := some n }
  | "--bins" => (countValue o value).map fun n => { done with bins := some n }
  | "--seed" => (integerValue o "integer" value).map fun n => { done with seed := some n }
  | "--percentile" =>
    ((p.values o.long).mapM (percentValue o)).map fun ps => { done with percentiles := ps }
  | "--config" => (fileValue folder true o value).map fun path => { done with config := some path }
  | "--plot" => (targetValue folder o value).map fun path => { done with plot := path }
  | "--output" => (targetValue folder o value).map fun path => { done with output := path }
  | _ => .ok done

/-- The options of `run`, checked in the order they were first given. -/
def RunOptions.ofParsed (folder : Folder) (p : Parsed) : Except UsageFault RunOptions :=
  p.given.foldlM (RunOptions.add folder p) {}

/-! ## Commands -/

/-- The settings of the file that was named, or the defaults. -/
def loadSettings (folder : Folder) (config : Option String) : Except SettingsFault Settings :=
  match config with
  | none => .ok {}
  | some path => Settings.ofFile path ((folder.text? path).getD "")

/-- The result of a settings file that is refused. -/
def settingsRefused (fault : SettingsFault) : CommandResult :=
  if fault.isReported then .error fault.message
  else { exitCode := 1, failure := some (.settings fault) }

/-- The files that are written in order, up to the first one that cannot be, and the failure of that. -/
def writeAll (folder : Folder) :
    List (String × FileContent) → List (String × FileContent) × Option Failure
  | [] => ([], none)
  | (path, content) :: rest =>
    match folder.writeFault? path with
    | some fault => ([], some (.notWritten path fault))
    | none =>
      let (written, failure) := writeAll folder rest
      (((Path.ofString path).text, content) :: written, failure)

/-- The result of a calculation: its report, and the files asked for. No chart is drawn without
results. -/
def reportOutcome (folder : Folder) (options : RunOptions) (outcome : Outcome) : CommandResult :=
  let record := (options.output.map fun path => (path, FileContent.record (outcome.record false))).toList
  let succeeds := outcome.error?.isNone
  let chart :=
    if succeeds then
      (options.plot.map fun path =>
        (path, FileContent.chart (outcome.chart Chart.defaultTitle))).toList
    else []
  let (written, failure) := writeAll folder (record ++ chart)
  { exitCode := if succeeds && failure.isNone then 0 else 1
    lines := outcome.report
    written
    failure }

/-- Calculates the arguments, joined by blanks. -/
def run (ambient : Generator) (folder : Folder) (p : Parsed) : CommandResult :=
  match RunOptions.ofParsed folder p with
  | .error fault => .usage runSpec fault
  | .ok options =>
    if p.arguments.isEmpty then .usage runSpec (.missingArgument "EXPRESSION...")
    else
      match loadSettings folder options.config with
      | .error fault => settingsRefused fault
      | .ok settings =>
        let percentiles :=
          if options.percentiles.isEmpty then none else some (options.percentiles.map Percent.decimal)
        let request : Request Generator :=
          { expression := " ".intercalate p.arguments
            iterations := options.iterations
            bins := options.bins
            percentiles
            settings
            generator := options.seed.map Generator.ofSeed }
        match calculate ambient request with
        | .ok outcome => reportOutcome folder options outcome
        | .error (.statistics fault) => { exitCode := 1, failure := some (.statistics fault) }
        | .error fault => .error fault.message

/-- All functions with their descriptions, in alphabetical order. -/
def functionLines : List String :=
  let functions := Function.all.mergeSort fun f g => f.name < g.name || f.name == g.name
  let width := (Function.all.map fun f => f.name.length).foldl max 0
  functions.map fun f => f.name ++ blanks (width - f.name.length + 2) ++ f.description

/-- Lists the functions, or explains one. -/
def functions (p : Parsed) : CommandResult :=
  match p.arguments with
  | [] => { lines := functionLines ++ ["\nRun `mccalc functions <name>` for help on a function."] }
  | [name] =>
    match Function.ofName? name with
    | some f => { lines := [f.help] }
    | none => .error ("function " ++ name ++ " not found.")
  | _ :: more => .usage functionsSpec (.extraArguments more)

/-- Writes a settings file, unless it exists. -/
def initConfig (folder : Folder) (p : Parsed) : CommandResult :=
  match p.arguments with
  | _ :: next :: more => .usage initConfigSpec (.extraArguments (next :: more))
  | arguments =>
    let path := arguments.head?.getD "settings.yaml"
    if folder.hasFile path || folder.isFolder path then
      .error (SettingsFault.fileExists path).message
    else
      match writeAll folder [(path, .text Settings.template)] with
      | (written, none) =>
        { lines := ["Default settings written to " ++ path ++ "."], written }
      | (_, some (.notWritten path .isFolder)) =>
        { exitCode := 1, failure := some (.notWritten path .noSuchFolder) }
      | (_, some failure) => { exitCode := 1, failure := some failure }

/-- Reads the options of a command; asking for help goes before all else. -/
def withParsed (c : CommandSpec) (words : List String) (f : Parsed → CommandResult) : CommandResult :=
  match c.parse words with
  | .error fault => .usage c fault
  | .ok p => if p.asksHelp then { lines := helpPage c [] } else f p

/-- The result of words that start with the name of no command. A word that looks like an option is read
as one, even if it was meant as a name. -/
def commandUnknown (name : String) (words : List String) : CommandResult :=
  match mainSpec.parse words with
  | .error fault => .usage mainSpec fault
  | .ok p =>
    if p.asksHelp then { lines := helpPage mainSpec commands }
    else .usage mainSpec (.noSuchCommand name (closeMatches name (commands.map (·.1))))

/-- The command that some words call. -/
def execute (ambient : Generator) (folder : Folder) (words : List String) : CommandResult :=
  if words.isEmpty then { exitCode := 2, lines := helpPage mainSpec commands }
  else
    match mainSpec.parse words with
    | .error fault => .usage mainSpec fault
    | .ok p =>
      if p.asksHelp then { lines := helpPage mainSpec commands }
      else
        match p.arguments with
        | [] => .usage mainSpec .missingCommand
        | "run" :: rest => withParsed runSpec rest (run ambient folder)
        | "functions" :: rest => withParsed functionsSpec rest functions
        | "init-config" :: rest => withParsed initConfigSpec rest (initConfig folder)
        | name :: rest => commandUnknown name (name :: rest)

end RangeCalc.CommandLine
