import RangeCalc.Text.Segment

/-!
# The files that a command sees

A command is run in a folder. It reads and writes files by their paths, whose parts lead from folder to
folder.

* `Path`: where a path leads, whatever way it is written;
* `Folder`: files and folders, and what is found in it under a path;
* `Folder.writeFault?`: why no file can be written.
-/

namespace RangeCalc.CommandLine

/-- Where a path leads: the names of folders, and then of a file or folder. -/
structure Path where
  isAbsolute : Bool
  parts : List String
deriving DecidableEq

namespace Path

/-- Where a text leads as a path. Empty parts and single dots stay in the same folder. -/
def ofString (s : String) : Path where
  isAbsolute := s.toList.head? == some '/'
  parts := ((Text.splitAtEach '/' s.toList).map String.ofList).filter fun part =>
    !part.isEmpty && part != "."

/-- The shortest text that leads to the same place. -/
def text (p : Path) : String :=
  (if p.isAbsolute then "/" else "") ++ "/".intercalate p.parts

/-- Whether a path leads to something in the folder that another one leads to. -/
def isBelow (p folder : Path) : Bool :=
  p.isAbsolute == folder.isAbsolute && folder.parts.length < p.parts.length &&
    p.parts.take folder.parts.length == folder.parts

/-- The folders that a path leads through. -/
def ancestors (p : Path) : List Path :=
  (List.range p.parts.length).map fun n => { p with parts := p.parts.take n }

end Path

/-- Files with their texts, and the names of folders. -/
structure Folder where
  files : List (String × String)
  folders : List String

/-- What is found under a path. A path to nothing leads to a place where a file may be written. -/
inductive Found where
  | file (text : String)
  | folder
  | nothing
  /-- A stroke at the end says that there should be a folder. -/
  | noFolderThere
  /-- A folder that the path leads through is missing. -/
  | noFolderBefore
  /-- The path leads through a file. -/
  | fileBefore
  | nameTooLong

/-- Why no file can be written. -/
inductive WriteFault where
  | noSuchFolder
  | isFolder
  | isNoFolder
  | nameTooLong
deriving DecidableEq

namespace Folder

/-- The text of the file that a path leads to. -/
def file? (f : Folder) (p : Path) : Option String :=
  (f.files.find? fun (name, _) => Path.ofString name = p).map (·.2)

/-- Whether a path leads to a folder: a known one, or one that holds a known file or folder. -/
def holds (f : Folder) (p : Path) : Bool :=
  let known := (f.folders ++ f.files.map (·.1)).map Path.ofString
  p.parts.isEmpty || f.folders.any (fun name => Path.ofString name = p) ||
    known.any fun name => name.isBelow p

/-- How many bytes the name of a file may have. -/
def nameLimit : Nat := 255

/-- What is found at a place whose folders are all there, under a path that ends with a stroke or not. -/
def foundAt (f : Folder) (p : Path) (endsWithStroke : Bool) : Found :=
  if f.holds p then .folder
  else if p.parts.any fun part => nameLimit < part.utf8ByteSize then .nameTooLong
  else if endsWithStroke then .noFolderThere
  else
    match f.file? p with
    | some text => .file text
    | none => .nothing

/-- What is found under a path. A dot at its end leads to a folder, as a further part would. -/
def find (f : Folder) (path : String) : Found :=
  let p := Path.ofString path
  let endsWithDot := (Text.splitAtEach '/' path.toList).getLast? == some ['.']
  let before := if endsWithDot then p.ancestors ++ [p] else p.ancestors
  match before.find? fun folder => !f.holds folder with
  | some missing => if (f.file? missing).isSome then .fileBefore else .noFolderBefore
  | none =>
    if path.isEmpty then .noFolderBefore
    else f.foundAt p (path.toList.getLast? == some '/')

/-- The text of the file under a path. -/
def text? (f : Folder) (path : String) : Option String :=
  match f.find path with
  | .file text => some text
  | _ => none

def isFolder (f : Folder) (path : String) : Bool :=
  match f.find path with
  | .folder => true
  | _ => false

def hasFile (f : Folder) (path : String) : Bool := (f.text? path).isSome

/-- Why no file can be written under a path. -/
def writeFault? (f : Folder) (path : String) : Option WriteFault :=
  match f.find path with
  | .file _ | .nothing => none
  | .folder | .noFolderThere => some .isFolder
  | .noFolderBefore => some .noSuchFolder
  | .fileBefore => some .isNoFolder
  | .nameTooLong => some .nameTooLong

end Folder

example : Path.ofString "./a//b/" = ⟨false, ["a", "b"]⟩ := by decide +kernel

example : (⟨[("a/b", "")], []⟩ : Folder).writeFault? "a" = some .isFolder := by decide +kernel

example : (⟨[("a", "")], []⟩ : Folder).writeFault? "a/b" = some .isNoFolder := by decide +kernel

end RangeCalc.CommandLine
