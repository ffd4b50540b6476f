import RangeCalc.Settings.Lexeme

/-!
# The structure of a settings file

The lexemes of a settings file are put together to a tree of words, texts, lists and mappings. An anchor
names a node, and a reference stands for the node with its name.

* `Node`: the tree, with the places where its parts start;
* `Node.ofText?`: the tree of a text, if the text holds any.
-/

namespace RangeCalc

/-- A part of a settings file and the place where it starts. A word is not in quotes, so that its form says
what it means. A mapping keeps its keys and values as they were given. -/
inductive Node where
  | word (text : List Char) (place : Place)
  | text (text : List Char) (place : Place)
  | list (items : List Node) (place : Place)
  | mapping (entries : List (Node × Node)) (place : Place)

namespace Node

/-- Where a node starts. -/
def place : Node → Place
  | word _ p | text _ p | list _ p | mapping _ p => p

/-- A node with another start. -/
def startingAt (p : Place) : Node → Node
  | word cs _ => word cs p
  | text cs _ => text cs p
  | list items _ => list items p
  | mapping entries _ => mapping entries p

/-- The kind of a node, as faults call it. -/
def kindName : Node → String
  | word _ _ | text _ _ => "scalar"
  | list _ _ => "sequence"
  | mapping _ _ => "mapping"

/-- Whether a node is a word with one text. -/
def isWord (cs : List Char) : Node → Bool
  | word other _ => other == cs
  | _ => false

/-- What is left of the lexemes, with the fault that ends them, and the nodes that have names. -/
structure Assembly where
  lexemes : Lexemes
  anchors : List (List Char × Node) := []

/-- Puts lexemes together, unless it meets a fault. -/
abbrev Assemble := StateT Assembly (Except ReadFault)

/-- The next lexeme, which stays. -/
def peek : Assemble Lexeme := do
  let s ← get
  match s.lexemes.lexemes with
  | lexeme :: _ => return lexeme
  | [] => throw s.lexemes.fault

/-- Takes the next lexeme away. -/
def drop : Assemble Unit :=
  modify fun s => { s with lexemes := { s.lexemes with lexemes := s.lexemes.lexemes.tail } }

/-- Takes the next lexeme away if it is of a kind, and says so. -/
def dropIf (kind : LexemeKind) : Assemble Bool := do
  if (← peek).kind = kind then
    drop
    return true
  else return false

/-- Whether the next lexeme is of one of some kinds. -/
def nextIs (kinds : List LexemeKind) : Assemble Bool := do
  return kinds.contains (← peek).kind

/-- A fault at the next lexeme, in what started at a place. -/
def misfit {α : Type} (start : Place) (cause : String → StructureFault) : Assemble α := do
  let found ← peek
  throw (.structure (cause found.kind.name) start found.place)

/-- A value that is left out. -/
def blank (place : Place) : Node := word [] place

/-- The place after a mark of one character. -/
def afterMark (lexeme : Lexeme) : Place :=
  { lexeme.place with index := lexeme.place.index + 1, column := lexeme.place.column + 1 }

/-- The node that a reference stands for. -/
def namedNode (name : List Char) (place : Place) : Assemble Node := do
  match (← get).anchors.lookup name with
  | some node => return node
  | none => throw (.name (.unknownAlias (String.ofList name)) place place)

/-- Checks that a name is not given yet. -/
def checkAnchor (name : List Char) (place : Place) : Assemble Unit := do
  match (← get).anchors.lookup name with
  | some first => throw (.name (.repeatedAnchor (String.ofList name)) first.place place)
  | none => return

/-- What may stand where a node is asked for: lists and mappings of lines, or also a list whose items are
not indented further than the key that it belongs to. -/
inductive Position where
  | inBrackets
  | lines
  | value
deriving DecidableEq

mutual

/-- The next node. -/
def node (position : Position) : (fuel : Nat) → Assemble Node
  | 0 => do throw (← get).lexemes.fault
  | fuel + 1 => do
    let first ← peek
    match first.kind with
    | .reference name =>
      drop
      namedNode name first.place
    | .anchor name =>
      drop
      checkAnchor name first.place
      let node := (← content position true fuel).startingAt first.place
      checkAnchor name first.place
      modify fun s => { s with anchors := (name, node) :: s.anchors }
      return node
    | _ => content position false fuel

/-- The next node, after its anchor, if it has one. -/
def content (position : Position) (hasAnchor : Bool) : (fuel : Nat) → Assemble Node
  | 0 => do throw (← get).lexemes.fault
  | fuel + 1 => do
    let first ← peek
    match first.kind, position with
    | .item, .value => return list (← looseItems fuel) first.place
    | .word cs, _ =>
      drop
      return word cs first.place
    | .text cs, _ =>
      drop
      return text cs first.place
    | .listStart, _ =>
      drop
      return list (← bracketItems first.place true fuel) first.place
    | .mappingStart, _ =>
      drop
      return mapping (← bracketEntries first.place true fuel) first.place
    | .itemLines, .lines | .itemLines, .value =>
      drop
      return list (← itemLines first.place fuel) first.place
    | .keyLines, .lines | .keyLines, .value =>
      drop
      return mapping (← keyLines first.place fuel) first.place
    | _, _ =>
      if hasAnchor then return blank first.place
      else misfit first.place (if position = .inBrackets then .noValue else .noLines)

/-- A node, unless one of some lexemes follows at once; then it is left out. -/
def nodeUnless (position : Position) (ends : List LexemeKind) (place : Place) :
    (fuel : Nat) → Assemble Node
  | 0 => do throw (← get).lexemes.fault
  | fuel + 1 => do
    if ← nextIs ends then return blank place
    else node position fuel

/-- The items of a list of lines. -/
def itemLines (start : Place) : (fuel : Nat) → Assemble (List Node)
  | 0 => do throw (← get).lexemes.fault
  | fuel + 1 => do
    let next ← peek
    if ← dropIf .item then
      let first ← nodeUnless .lines [.item, .linesEnd] (afterMark next) fuel
      return first :: (← itemLines start fuel)
    else if ← dropIf .linesEnd then return []
    else misfit start .listLines

/-- The items of a list that is not indented further than its key. -/
def looseItems : (fuel : Nat) → Assemble (List Node)
  | 0 => do throw (← get).lexemes.fault
  | fuel + 1 => do
    let next ← peek
    if ← dropIf .item then
      let first ← nodeUnless .lines [.item, .key, .colon, .linesEnd] (afterMark next) fuel
      return first :: (← looseItems fuel)
    else return []

/-- The entries of a mapping of lines. After a key the colon and its value may be left out. -/
def keyLines (start : Place) : (fuel : Nat) → Assemble (List (Node × Node))
  | 0 => do throw (← get).lexemes.fault
  | fuel + 1 => do
    let next ← peek
    if ← dropIf .key then
      let key ← nodeUnless .value [.key, .colon, .linesEnd] (afterMark next) fuel
      let colon ← peek
      let value ←
        if ← dropIf .colon then nodeUnless .value [.key, .colon, .linesEnd] (afterMark colon) fuel
        else pure (blank colon.place)
      return (key, value) :: (← keyLines start fuel)
    else if ← dropIf .linesEnd then return []
    else misfit start .mappingLines

/-- The items of a list in brackets. A key with its value is a mapping of its own. -/
def bracketItems (start : Place) (isFirst : Bool) : (fuel : Nat) → Assemble (List Node)
  | 0 => do throw (← get).lexemes.fault
  | fuel + 1 => do
    if ← dropIf .listEnd then return []
    unless isFirst do
      unless ← dropIf .comma do
        misfit start .listItems
    let next ← peek
    if ← dropIf .key then
      let entry ← bracketEntry next .listEnd fuel
      return mapping [entry] next.place :: (← bracketItems start false fuel)
    else if ← dropIf .listEnd then return []
    else
      let first ← node .inBrackets fuel
      return first :: (← bracketItems start false fuel)

/-- The entries of a mapping in brackets. -/
def bracketEntries (start : Place) (isFirst : Bool) : (fuel : Nat) → Assemble (List (Node × Node))
  | 0 => do throw (← get).lexemes.fault
  | fuel + 1 => do
    if ← dropIf .mappingEnd then return []
    unless isFirst do
      unless ← dropIf .comma do
        misfit start .mappingItems
    let next ← peek
    if ← dropIf .key then
      let entry ← bracketEntry next .mappingEnd fuel
      return entry :: (← bracketEntries start false fuel)
    else if ← dropIf .mappingEnd then return []
    else
      let key ← node .inBrackets fuel
      let entry := (key, blank (← peek).place)
      return entry :: (← bracketEntries start false fuel)

/-- A key in brackets after its mark, with its value, up to a comma or the bracket that closes. -/
def bracketEntry (mark : Lexeme) (closing : LexemeKind) : (fuel : Nat) → Assemble (Node × Node)
  | 0 => do throw (← get).lexemes.fault
  | fuel + 1 => do
    let key ← nodeUnless .inBrackets [.colon, .comma, closing] (afterMark mark) fuel
    let colon ← peek
    if ← dropIf .colon then
      return (key, ← nodeUnless .inBrackets [.comma, closing] (afterMark colon) fuel)
    else return (key, blank colon.place)

end

/-- The node of a document, which may be left out after the line that starts it. -/
def document (fuel : Nat) : Assemble (Option Node) := do
  if ← nextIs [.documentStart, .textEnd] then
    if ← dropIf .textEnd then return none
    drop
    return some (← nodeUnless .lines [.documentStart, .documentEnd, .textEnd] (← peek).place fuel)
  else return some (← node .lines fuel)

/-- Drops the lines that end documents. -/
def dropEnds : (fuel : Nat) → Assemble Unit
  | 0 => return
  | fuel + 1 => do
    if ← dropIf .documentEnd then dropEnds fuel

/-- The only document of a text. -/
def onlyDocument (fuel : Nat) : Assemble (Option Node) := do
  match ← document fuel with
  | none => return none
  | some root =>
    dropEnds fuel
    let next ← peek
    match next.kind with
    | .textEnd => return some root
    | .documentStart => throw (.name .secondDocument root.place next.place)
    | _ => misfit next.place .noDocument

/-- The tree of a text, if the text holds any. A lexeme is used up every few steps. -/
def ofText? (text : List Char) : Except ReadFault (Option Node) :=
  let lexemes := Lexemes.ofText text
  (onlyDocument (4 * lexemes.lexemes.length + 4)).run' ⟨lexemes, []⟩

end Node

end RangeCalc
