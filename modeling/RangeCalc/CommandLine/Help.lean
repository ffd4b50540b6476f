import RangeCalc.CommandLine.Option

/-!
# Help pages

* `wrap`: a text in lines of limited width;
* `usageLine`, `usageText`: how a command is called, and a fault in its call;
* `helpPage`: the help page of a command.
-/

namespace RangeCalc.CommandLine

/-- The width of a help page. -/
def pageWidth : Nat := 78

/-- The words of a text, each with the blanks before it. -/
def spacedWords : (blanks : Nat) → (word : List Char) → List Char → List (Nat × List Char)
  | blanks, word, [] => if word.isEmpty then [] else [(blanks, word.reverse)]
  | blanks, word, c :: rest =>
    if c = ' ' then
      if word.isEmpty then spacedWords (blanks + 1) [] rest
      else (blanks, word.reverse) :: spacedWords 1 [] rest
    else spacedWords blanks (c :: word) rest

/-- Words in lines, after the current line. -/
def fillLines (width : Nat) : (line : List Char) → List (Nat × List Char) → List (List Char)
  | line, [] => if line.isEmpty then [] else [line]
  | line, (blanks, word) :: rest =>
    if line.isEmpty then fillLines width word rest
    else if line.length + blanks + word.length ≤ width then
      fillLines width (line ++ List.replicate blanks ' ' ++ word) rest
    else line :: fillLines width word rest

/-- A text in lines that are no wider than given, unless a word is. -/
def wrap (width : Nat) (text : String) : List String :=
  (fillLines width [] (spacedWords 0 [] text.toList)).map String.ofList

/-- A number of blanks. -/
def blanks (n : Nat) : String :=
  String.ofList (List.replicate n ' ')

/-- Terms and their explanations in two columns. -/
def definitions (rows : List (String × String)) : List String :=
  let column := min ((rows.map fun (term, _) => term.length).foldl max 0) 30 + 2
  rows.flatMap fun (term, text) =>
    match wrap (max (pageWidth - column - 2) 10) text with
    | [] => ["  " ++ term]
    | first :: more =>
      let following := more.map (blanks (column + 2) ++ ·)
      if term.length + 2 ≤ column then
        ("  " ++ term ++ blanks (column - term.length) ++ first) :: following
      else ("  " ++ term) :: (blanks (column + 2) ++ first) :: following

/-- How an option is written. -/
def OptionSpec.term (o : OptionSpec) : String :=
  let letter :=
    match o.letter with
    | some c => "-" ++ String.singleton c ++ ", "
    | none => ""
  let value :=
    match o.value with
    | some name => " " ++ name
    | none => ""
  letter ++ o.long ++ value

/-- How a command is called. -/
def usageLine (c : CommandSpec) : String :=
  "Usage: " ++ c.name ++ " [OPTIONS] " ++ c.arguments

/-- The first sentence of a help text, shortened at a word to fit. A full stop ends a sentence where the
next word starts with no small letter, so an abbreviation does not. -/
def shortHelp (limit : Nat) (help : String) : String :=
  let words := help.splitOn " "
  let ends (n : Nat) := (" ".intercalate (words.take n)).length
  let goesOn (i : Nat) := (words[i + 1]?.getD "").toList.head?.any Char.isLower
  let sentence := (List.range words.length).find? fun i =>
    (words[i]?.getD "").endsWith "." && !goesOn i && ends (i + 1) ≤ limit
  match sentence with
  | some i => " ".intercalate (words.take (i + 1))
  | none =>
    if ends words.length ≤ limit then help
    else
      let kept := ((List.range words.length).reverse.find? fun n => ends n + 3 ≤ limit).getD 0
      " ".intercalate (words.take kept) ++ "..."

/-- The lines of a help page; a command that only leads to others lists them. -/
def helpPage (c : CommandSpec) (commands : List (String × CommandSpec)) : List String :=
  let options := c.allOptions.map fun o => (o.term, o.help)
  let longest := (commands.map fun (name, _) => name.length).foldl max 0
  let listed := commands.map fun (name, command) =>
    (name, shortHelp (pageWidth - 4 - longest) command.help)
  [usageLine c, ""] ++ (wrap (pageWidth - 2) c.help).map ("  " ++ ·) ++
    ["", "Options:"] ++ definitions options ++
    (if commands.isEmpty then [] else ["", "Commands:"] ++ definitions listed)

/-- The lines about a fault in the call of a command. How it is called is shown too, unless an option lacks
its value or has one that it does not take. -/
def usageText (c : CommandSpec) (fault : UsageFault) : List String :=
  let complaint := "Error: " ++ fault.message
  match fault with
  | .valueMissing _ | .valueRefused _ => [complaint]
  | _ => [usageLine c, "Try '" ++ c.name ++ " --help' for help.", "", complaint]

end RangeCalc.CommandLine
