import RangeCalc.CommandLine.Similar
import RangeCalc.Text.Quoted

/-!
# Options and arguments

A command has options with long names and perhaps a letter, and arguments. Letters may be joined behind
one hyphen, a value may be joined to its option, and after a double hyphen all words are arguments.

* `OptionSpec`, `CommandSpec`: what a command takes;
* `UsageFault`: why words are no call of a command;
* `CommandSpec.parse`: the options and arguments among some words.
-/

namespace RangeCalc.CommandLine

/-- An option: its long name, its letter, the name of its value unless it is a switch, and its help. -/
structure OptionSpec where
  long : String
  letter : Option Char
  value : Option String
  help : String

/-- A command: its full name, what follows the options, its help, its options, and whether options may
follow arguments. -/
structure CommandSpec where
  name : String
  arguments : String
  help : String
  options : List OptionSpec
  mixed : Bool

/-- Why words are no call of a command. -/
inductive UsageFault where
  | noSuchOption (name : String) (similar : List String)
  | valueMissing (name : String)
  | valueRefused (name : String)
  | missingCommand
  | noSuchCommand (name : String) (similar : List String)
  | badValue (option : OptionSpec) (reason : String)
  | missingArgument (name : String)
  | extraArguments (words : List String)

/-- A text between quotes. -/
def quote (s : String) : String :=
  String.ofList (Text.quoted s.toList)

namespace OptionSpec

/-- The option that asks for help. -/
def helpOption : OptionSpec := ⟨"--help", none, none, "Show this message and exit."⟩

/-- The names of an option as faults give them. -/
def hint (o : OptionSpec) : String :=
  match o.letter with
  | some c => "'" ++ o.long ++ "' / '-" ++ String.singleton c ++ "'"
  | none => "'" ++ o.long ++ "'"

end OptionSpec

namespace UsageFault

/-- The hint at similar names. -/
def suggestion (similar : List String) : String :=
  match similar.map quote with
  | [] => ""
  | [name] => " Did you mean " ++ name ++ "?"
  | names => " (Did you mean one of: " ++ ", ".intercalate names ++ "?)"

def message : UsageFault → String
  | noSuchOption name similar => "No such option " ++ quote name ++ "." ++ suggestion similar
  | valueMissing name => "Option " ++ quote name ++ " requires an argument."
  | valueRefused name => "Option " ++ quote name ++ " does not take a value."
  | missingCommand => "Missing command."
  | noSuchCommand name similar => "No such command " ++ quote name ++ "." ++ suggestion similar
  | badValue option reason => "Invalid value for " ++ option.hint ++ ": " ++ reason
  | missingArgument name => "Missing argument '" ++ name ++ "'."
  | extraArguments words =>
    "Got unexpected extra argument" ++ (if words.length = 1 then "" else "s") ++ " (" ++
      " ".intercalate words ++ ")"

end UsageFault

/-- An option as it was given. A switch has an empty value. -/
structure GivenOption where
  option : OptionSpec
  value : String

/-- The options in the order they were given, and the arguments. -/
structure Parsed where
  options : List GivenOption
  arguments : List String

namespace CommandSpec

/-- All options of a command, with the one that asks for help. -/
def allOptions (c : CommandSpec) : List OptionSpec :=
  c.options ++ [OptionSpec.helpOption]

/-- Switches behind one hyphen, and the option at their end that takes a value, with the value that is
joined to it. -/
structure Letters where
  switches : List GivenOption
  last : Option (OptionSpec × List Char)

/-- The options behind one hyphen. -/
def letters (c : CommandSpec) : List Char → Except UsageFault Letters
  | [] => .ok ⟨[], none⟩
  | letter :: rest =>
    match c.options.find? fun o => o.letter == some letter with
    | none => .error (.noSuchOption ("-" ++ String.singleton letter) [])
    | some o =>
      if o.value.isSome then .ok ⟨[], some (o, rest)⟩
      else (letters c rest).map fun following =>
        { following with switches := ⟨o, ""⟩ :: following.switches }

/-- A long option: its name and the value that is joined to it by an equals sign. -/
def splitLong (word : List Char) : String × Option String :=
  match word.span (· != '=') with
  | (name, _ :: value) => (String.ofList name, some (String.ofList value))
  | (name, []) => (String.ofList name, none)

/-- Adds options in front of what was parsed. -/
def Parsed.prepend (given : List GivenOption) (p : Parsed) : Parsed :=
  { p with options := given ++ p.options }

/-- What a word says before arguments are told apart. -/
inductive WordMeaning where
  /-- All further words are arguments. -/
  | endOfOptions
  | options (given : List GivenOption)
  /-- The next word is the value of an option, which the word calls by `name`. -/
  | awaitsValue (given : List GivenOption) (option : OptionSpec) (name : String)
  | argument

/-- The meaning of a long option with the value joined to it, if any. -/
def meaningOfLong (c : CommandSpec) (long : String) (joined : Option String) :
    Except UsageFault WordMeaning :=
  match c.allOptions.find? fun o => o.long == long with
  | none => .error (.noSuchOption long (closeMatches long (c.allOptions.map (·.long))))
  | some o =>
    match o.value, joined with
    | some _, some value => .ok (.options [⟨o, value⟩])
    | some _, none => .ok (.awaitsValue [] o long)
    | none, some _ => .error (.valueRefused long)
    | none, none => .ok (.options [⟨o, ""⟩])

/-- The meaning of the letters behind one hyphen. -/
def meaningOfLetters (c : CommandSpec) (word : List Char) : Except UsageFault WordMeaning :=
  (c.letters word).map fun read =>
    match read.last with
    | none => .options read.switches
    | some (o, []) =>
      .awaitsValue read.switches o ((o.letter.map fun l => "-" ++ String.singleton l).getD o.long)
    | some (o, joined) => .options (read.switches ++ [⟨o, String.ofList joined⟩])

/-- The meaning of a word. -/
def meaning (c : CommandSpec) (word : String) : Except UsageFault WordMeaning :=
  match word.toList with
  | ['-', '-'] => .ok .endOfOptions
  | '-' :: '-' :: name =>
    let (long, joined) := splitLong ('-' :: '-' :: name)
    c.meaningOfLong long joined
  | '-' :: first :: more => c.meaningOfLetters (first :: more)
  | _ => .ok .argument

/-- The options and arguments among some words. -/
def parse (c : CommandSpec) : List String → Except UsageFault Parsed
  | [] => .ok ⟨[], []⟩
  | word :: rest =>
    match c.meaning word with
    | .error e => .error e
    | .ok .endOfOptions => .ok ⟨[], rest⟩
    | .ok (.options given) => (c.parse rest).map (Parsed.prepend given)
    | .ok (.awaitsValue given o name) =>
      match rest with
      | [] => .error (.valueMissing name)
      | value :: after => (c.parse after).map (Parsed.prepend (given ++ [⟨o, value⟩]))
    | .ok .argument =>
      if c.mixed then
        (c.parse rest).map fun p => { p with arguments := word :: p.arguments }
      else .ok ⟨[], word :: rest⟩

end CommandSpec

namespace Parsed

/-- Whether help was asked for. -/
def asksHelp (p : Parsed) : Bool :=
  p.options.any fun given => given.option.long == OptionSpec.helpOption.long

/-- The values of an option, in order. -/
def values (p : Parsed) (long : String) : List String :=
  (p.options.filter fun given => given.option.long == long).map (·.value)

/-- The last value of an option. -/
def value? (p : Parsed) (long : String) : Option String :=
  (p.values long).getLast?

/-- The options that were given, each once, in the order they were first given. -/
def given (p : Parsed) : List OptionSpec :=
  p.options.foldl (fun done given =>
    if done.any fun o => o.long == given.option.long then done else done ++ [given.option]) []

end Parsed

end RangeCalc.CommandLine
