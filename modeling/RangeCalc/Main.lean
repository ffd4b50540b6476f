import RangeCalc.CommandLine

/-!
# The program

Reads the files that the words of the command line may name, runs the command, and prints and writes what
it answers.
-/

namespace RangeCalc

open CommandLine

/-- The names of files that a word may stand for: the word itself, what is joined to a long option, and
what is joined to a letter. -/
def namedFiles (word : String) : List String :=
  let joined := (word.toList.dropWhile (· != '=')).drop 1
  [word, String.ofList joined, String.ofList (word.toList.drop 2)]

/-- Adds the file or folder with a name, if there is one. -/
def lookInto (folder : Folder) (path : String) : IO Folder := do
  if path.isEmpty then return folder
  try
    let text ← IO.FS.readFile path
    return { folder with files := (path, text) :: folder.files }
  catch e =>
    match e with
    | .noFileOrDirectory .. => return folder
    | _ => return { folder with folders := path :: folder.folders }

/-- The folder that a file is to be written to, as its name says. -/
def parentOf (path : String) : String :=
  String.ofList ((path.toList.reverse.dropWhile (· != '/')).drop 1).reverse

/-- The files and folders that some words may name. -/
def folderOf (words : List String) : IO Folder := do
  let names := "settings.yaml" :: words.flatMap namedFiles
  (names ++ names.map parentOf).foldlM lookInto ⟨[], []⟩

/-- A generator with a new seed. -/
def freshGenerator : IO Generator := do
  let seed ← IO.rand 0 0x3FFFFFFFFFFFFFFF
  return .ofSeed seed

/-- Writes what a command answers; the exit code. -/
def carryOut (result : CommandResult) : IO UInt32 := do
  IO.print (CommandResult.joinLines result.lines)
  IO.eprint (CommandResult.joinLines result.complaints)
  let mut code := UInt32.ofNat result.exitCode
  for (path, content) in result.written do
    match content.text? path with
    | some text => IO.FS.writeFile path text
    | none =>
      IO.eprintln ("Error: " ++ path ++ ": charts are written as .html pages only")
      code := 1
  if let some failure := result.failure then
    IO.eprintln ("Error: " ++ failure.message)
  return code

end RangeCalc

def main (words : List String) : IO UInt32 := do
  let folder ← RangeCalc.folderOf words
  let ambient ← RangeCalc.freshGenerator
  RangeCalc.carryOut (RangeCalc.CommandLine.execute ambient folder words)
