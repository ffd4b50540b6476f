import RangeCalc.Settings.Node
import RangeCalc.Settings.Scalar

/-!
# Reading a settings file

The value of a settings file is made from its tree: words become what their form says, of equal keys the
last value counts, and a mapping can take over the entries of others.

* `Document.ofNode`: the value of a tree;
* `Document.ofText`: the value of a settings file.
-/

namespace RangeCalc.Document

/-- Whether a value may be a key. -/
def isKey : Document → Bool
  | list _ | mapping _ => false
  | _ => true

/-- The value of a word. -/
def ofWordAt (cs : List Char) (place : Place) : Except ReadFault Document :=
  if isReserved cs then .error (.value (.reserved (String.ofList cs)) place place)
  else (ofWord cs).mapError .word

/-- Whether a node is a mapping. -/
def isMappingNode : Node → Bool
  | .mapping _ _ => true
  | _ => false

/-- Checks that a mapping that starts at a place can take over the entries of a node: a mapping, or a list of
mappings. -/
def checkTakenOver (start : Place) : Node → Except ReadFault Unit
  | .mapping _ _ => .ok ()
  | .list nodes _ =>
    match nodes.find? fun node => !isMappingNode node with
    | some node => .error (.value (.mergedNotMapping node.kindName) start node.place)
    | none => .ok ()
  | node => .error (.value (.mergedNotMappings node.kindName) start node.place)

/-- Checks all that a mapping at a place takes over. -/
def checkMerges (start : Place) (entries : List (Node × Node)) : Except ReadFault Unit :=
  entries.forM fun (key, value) =>
    if key.isWord mergeWord then checkTakenOver start value else .ok ()

/-- The entries of a mapping. -/
def entries : Document → List (Document × Document)
  | mapping entries => entries
  | _ => []

/-- The entries that are taken over from a mapping or a list of mappings, of which the first one that gives
a key comes last. -/
def entriesTakenOver : Document → List (Document × Document)
  | list values => values.reverse.flatMap entries
  | value => value.entries

/-- Some entries in order, with the last value of each key. -/
def putAll (entries : List (Document × Document)) : List (Document × Document) :=
  entries.foldl (fun done (key, value) => put key value done) []

mutual

/-- The value of a tree. -/
def ofNode : Node → Except ReadFault Document
  | .word cs place => ofWordAt cs place
  | .text cs _ => .ok (text (String.ofList cs))
  | .list nodes _ => (ofNodes nodes).map list
  | .mapping entries place => do
    checkMerges place entries
    let (taken, own) ← ofEntries place entries
    return mapping (putAll (taken ++ own))

/-- The values of some trees. -/
def ofNodes : List Node → Except ReadFault (List Document)
  | [] => .ok []
  | node :: rest => do
    let value ← ofNode node
    return value :: (← ofNodes rest)

/-- The entries that a mapping at a place takes over, and its own. -/
def ofEntries (start : Place) :
    List (Node × Node) → Except ReadFault (List (Document × Document) × List (Document × Document))
  | [] => .ok ([], [])
  | (key, value) :: rest => do
    if key.isWord mergeWord then
      let merged ← ofNode value
      let (taken, own) ← ofEntries start rest
      return (merged.entriesTakenOver ++ taken, own)
    else
      let keyValue ← if key.isWord ['='] then pure (text "=") else ofNode key
      unless keyValue.isKey do
        throw (.value .keyNotSimple start key.place)
      let entry := (keyValue, ← ofNode value)
      let (taken, own) ← ofEntries start rest
      return (taken, entry :: own)

end

/-- Whether a settings file may hold a character. -/
def isPrintable (c : Char) : Bool :=
  let n := c.toNat
  n == 9 || n == 10 || n == 13 || (32 ≤ n && n ≤ 126) || n == 0x85 || (0xA0 ≤ n && n ≤ 0xFFFD) ||
    0x10000 ≤ n

/-- The value of a settings file, if it holds any. -/
def ofText (file : String) : Except ReadFault Document := do
  let text := unifyBreaks file.toList
  match text.findIdx? fun c => !isPrintable c with
  | some index => throw (.notPrintable (text[index]?.getD ' ') index)
  | none =>
    match ← Node.ofText? text with
    | some node => ofNode node
    | none => return null

end RangeCalc.Document
