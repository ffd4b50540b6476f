import RangeCalc.Outcome
import RangeCalc.Text.Quoted

/-!
# The record of an outcome

An outcome as plain data with named fields. An undefined number is nothing.

* `Record`: plain data;
* `Outcome.record`: the record of an outcome;
* `Record.json`: the text of a record, one entry a line.
-/

namespace RangeCalc

/-- Plain data. -/
inductive Record where
  | null
  | flag (b : Bool)
  | integer (n : Int)
  | number (x : Float)
  | text (s : String)
  | list (items : List Record)
  | fields (entries : List (String × Record))

namespace Record

/-- A number, or nothing if it is undefined. -/
def ofFloat (x : Float) : Record :=
  if x.isNaN then null else number x

/-- A text, or nothing. -/
def ofText? (s : Option String) : Record :=
  s.elim null text

/-- Gives a field a value; a field that has one already keeps its place. -/
def put (name : String) (value : Record) : List (String × Record) → List (String × Record)
  | [] => [(name, value)]
  | (other, old) :: rest =>
    if other = name then (other, value) :: rest else (other, old) :: put name value rest

/-- The record of a bin. -/
def ofBin (b : Statistics.Bin Float) : Record :=
  fields [("lower_bound", ofFloat b.lower), ("upper_bound", ofFloat b.upper),
    ("center", ofFloat b.center), ("label", text b.label), ("probability", ofFloat b.probability),
    ("sigma_zone", text b.zone.name)]

/-- The record of percentiles, each under its own text. -/
def ofPercentiles (percentiles : List (Percent × Float)) : Record :=
  fields (percentiles.foldl (fun done (p, x) => put p.text (ofFloat x) done) [])

/-! ## Text -/

/-- A character of a text in ASCII; one beyond sixteen bits takes two escapes. -/
def escapedChar (c : Char) : List Char :=
  let unit (n : Nat) := '\\' :: 'u' :: Text.hexDigits 4 n
  let n := c.toNat
  if c = '"' then ['\\', '"']
  else if c = '\\' then ['\\', '\\']
  else if c = '\n' then ['\\', 'n']
  else if c = '\r' then ['\\', 'r']
  else if c = '\t' then ['\\', 't']
  else if n = 8 then ['\\', 'b']
  else if n = 12 then ['\\', 'f']
  else if 32 ≤ n ∧ n < 127 then [c]
  else if n < 0x10000 then unit n
  else unit (0xD800 + (n - 0x10000) / 0x400) ++ unit (0xDC00 + (n - 0x10000) % 0x400)

/-- A text between double quotes. -/
def quotedText (s : String) : String :=
  String.ofList ('"' :: s.toList.flatMap escapedChar ++ ['"'])

/-- A number; those that are not finite have names. -/
def numberJson (x : Float) : String :=
  if x.isNaN then "NaN"
  else if x.isInf then if Binary64.isNegative x then "-Infinity" else "Infinity"
  else numberText x

/-- A line break and the blanks of a depth of nesting. -/
def lineBreak (depth : Nat) : String :=
  "\n" ++ String.ofList (List.replicate (2 * depth) ' ')

/-- Entries between brackets, one a line. -/
def block (opening closing : String) (depth : Nat) (entries : List String) : String :=
  if entries.isEmpty then opening ++ closing
  else
    opening ++ lineBreak (depth + 1) ++ ("," ++ lineBreak (depth + 1)).intercalate entries ++
      lineBreak depth ++ closing

mutual

/-- The text of a record at a depth of nesting. -/
def jsonAt (depth : Nat) : Record → String
  | null => "null"
  | flag b => if b then "true" else "false"
  | integer n => toString n
  | number x => numberJson x
  | text s => quotedText s
  | list items => block "[" "]" depth (jsonItems (depth + 1) items)
  | fields entries => block "\x7b" "\x7d" depth (jsonFields (depth + 1) entries)

/-- The texts of items at a depth of nesting. -/
def jsonItems (depth : Nat) : List Record → List String
  | [] => []
  | r :: rs => jsonAt depth r :: jsonItems depth rs

/-- The texts of fields at a depth of nesting. -/
def jsonFields (depth : Nat) : List (String × Record) → List String
  | [] => []
  | (name, r) :: rest => (quotedText name ++ ": " ++ jsonAt depth r) :: jsonFields depth rest

end

/-- The text of a record. -/
def json (r : Record) : String := jsonAt 0 r

end Record

namespace Outcome

/-- Why there are no results, if there are none. -/
def error? (outcome : Outcome) : Option String :=
  match outcome.summary with
  | .ok _ => none
  | .error fault => some fault.message

/-- A number of the summary, undefined without results. -/
def statistic (outcome : Outcome) (f : Summary → Float) : Float :=
  match outcome.summary with
  | .ok summary => f summary
  | .error _ => Binary64.nan

/-- A list of the summary, empty without results. -/
def listed {α : Type} (outcome : Outcome) (f : Summary → List α) : List α :=
  match outcome.summary with
  | .ok summary => f summary
  | .error _ => []

/-- Whether there is a single result of a text that draws nothing. -/
def deterministic (outcome : Outcome) : Bool :=
  match outcome.summary with
  | .ok summary => summary.deterministic
  | .error _ => false

/-- The fields of an outcome; the results themselves only if asked for. -/
def entries (outcome : Outcome) (includeResults : Bool) : List (String × Record) :=
  let number (f : Summary → Float) := Record.ofFloat (outcome.statistic f)
  [("expression", .text outcome.expression),
    ("iterations", .integer outcome.iterations),
    ("normalized", .text outcome.normalized),
    ("deterministic", .flag outcome.deterministic),
    ("analytical_min", .ofFloat outcome.analytical.min),
    ("analytical_max", .ofFloat outcome.analytical.max),
    ("analytical_note", .ofText? outcome.analytical.note),
    ("approximate", .flag outcome.analytical.approximate),
    ("simulated_min", number (·.min)),
    ("simulated_max", number (·.max)),
    ("mean", number (·.mean)),
    ("std_dev", number (·.deviation)),
    ("median", number (·.median)),
    ("percentiles", .ofPercentiles (outcome.listed (·.percentiles))),
    ("histogram", .list ((outcome.listed (·.histogram)).map Record.ofBin))] ++
  (if includeResults then [("results", .list ((outcome.listed (·.results)).map Record.ofFloat))]
    else []) ++
  [("invalid", .integer outcome.invalid),
    ("warnings", .list (outcome.warnings.map Record.text)),
    ("error", .ofText? outcome.error?)]

/-- The record of an outcome. -/
def record (outcome : Outcome) (includeResults : Bool) : Record :=
  .fields (outcome.entries includeResults)

end Outcome

end RangeCalc
