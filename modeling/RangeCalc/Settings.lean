import RangeCalc.Settings.Reader
import RangeCalc.Statistics.Percent

/-!
# Settings

What a calculation uses where the user asks for nothing else. A settings file overrides some of them; a
file with a fault is refused as a whole.

* `Settings`: the settings, with their defaults;
* `Settings.ofDocument`: the settings of a file, given its value;
* `Settings.ofFile`: the settings of a file, given its text;
* `Settings.template`: a file with all defaults.
-/

namespace RangeCalc

/-- The settings of a calculation. -/
structure Settings where
  iterations : Int := 100000
  bins : Int := 23
  percentiles : List Percent := [.whole 5, .whole 10, .whole 50, .whole 90, .whole 95]
  maxExactRanges : Int := 8
  seed : Option Int := none

/-- Why a settings file is refused. -/
inductive SettingsFault where
  | unreadable (path : String) (fault : ReadFault)
  | notMapping (path : String)
  | unknownKeys (path : String) (names : List String)
  /-- An unknown key is no text, but a value of another type. -/
  | keyNotText (typeName : String)
  /-- Two unknown keys have no order, so that they cannot be listed. -/
  | keysUnordered (first second : Document)
  | percentiles (got : Document)
  | seed (got : Document)
  | notPositive (key : String) (got : Document)
  /-- A value is refused that no message can show. -/
  | notDisplayable
  | fileExists (path : String)

namespace Document

/-- The name of a value's type. -/
def typeName : Document → String
  | null => "NoneType"
  | flag _ => "bool"
  | integer _ => "int"
  | decimal _ => "float"
  | text _ => "str"
  | day _ => "datetime.date"
  | moment _ => "datetime.datetime"
  | list _ => "list"
  | mapping _ => "dict"
  | foreign typeName _ _ => typeName

/-- Whether two keys have an order: numbers of any type have, else keys of one type. -/
def isOrderedWith : Document → Document → Bool
  | text _, text _ | day _, day _ => true
  | moment a, moment b => a.offset.isSome == b.offset.isSome
  | foreign s _ _, foreign t _ _ => s == t
  | a, b => a.number?.isSome && b.number?.isSome

/-- What is said about two keys without an order. -/
def unorderedText : Document → Document → String
  | moment _, moment _ => "can't compare offset-naive and offset-aware datetimes"
  | day _, moment _ | moment _, day _ => "can't compare datetime.datetime to datetime.date"
  | a, b => "'<' not supported between instances of '" ++ b.typeName ++ "' and '" ++ a.typeName ++ "'"

end Document

def SettingsFault.message : SettingsFault → String
  | unreadable path fault => fault.message path
  | notMapping path => path ++ ": expected a mapping at the top level"
  | unknownKeys path names => path ++ ": unknown settings " ++ ", ".intercalate names
  | keyNotText typeName => "sequence item 0: expected str instance, " ++ typeName ++ " found"
  | keysUnordered first second => Document.unorderedText first second
  | percentiles got =>
    "percentiles must be a list of numbers between 0 and 100, got " ++ got.display
  | seed got => "seed must be an integer, got " ++ got.display
  | notPositive key got => key ++ " must be a positive integer, got " ++ got.display
  | notDisplayable =>
    "Exceeds the limit (4300 digits) for integer string conversion; " ++
      "use sys.set_int_max_str_digits() to increase the limit"
  | fileExists path => path ++ " already exists"

/-- Whether a fault is reported as one of the settings. The others escape while the file is read, while its
unknown keys are listed or while a value is displayed. -/
def SettingsFault.isReported : SettingsFault → Bool
  | unreadable _ _ | keyNotText _ | keysUnordered _ _ | notDisplayable => false
  | _ => true

namespace Document

/-- A number from zero to one hundred. -/
def percent? : Document → Option Percent
  | integer n => if 0 ≤ n ∧ n ≤ 100 then some (.whole n) else none
  | decimal x => if 0 ≤ x ∧ x ≤ 100 then some (.decimal x) else none
  | _ => none

/-- A list of numbers from zero to one hundred. -/
def percents? : Document → Option (List Percent)
  | list items => items.mapM percent?
  | _ => none

/-- An integer above zero. -/
def positive? : Document → Option Int
  | integer n => if 1 ≤ n then some n else none
  | _ => none

/-- An integer or nothing. -/
def seed? : Document → Option (Option Int)
  | integer n => some (some n)
  | null => some none
  | _ => none

end Document

namespace Settings

/-- The known keys with their default values. -/
def defaults : List (String × Document) :=
  [("iterations", .integer 100000),
    ("bins", .integer 23),
    ("percentiles", .list [.integer 5, .integer 10, .integer 50, .integer 90, .integer 95]),
    ("max_exact_ranges", .integer 8),
    ("seed", .null)]

/-- Whether a key is known. -/
def isKnown : Document → Bool
  | .text key => defaults.any fun (known, _) => known == key
  | _ => false

/-- The value that a file gives for a key, else the default. -/
def valueOf (entries : List (Document × Document)) (key : String) : Document :=
  match entries.find? fun (other, _) => Document.sameKey other (.text key) with
  | some (_, value) => value
  | none => (defaults.lookup key).getD .null

/-- The texts among some keys. -/
def texts (keys : List Document) : List String :=
  keys.filterMap fun key =>
    match key with
    | .text s => some s
    | _ => none

/-- Whether a key is a text. -/
def isText : Document → Bool
  | .text _ => true
  | _ => false

/-- The lesser of two keys, as far as both are numbers; else the first. -/
def lesserKey (a b : Document) : Document :=
  match a.number?, b.number? with
  | some x, some y => if y < x then b else a
  | _, _ => a

/-- The first two of some keys that have no order. -/
def unordered? : List Document → Option (Document × Document)
  | [] => none
  | key :: keys =>
    match keys.find? fun other => !key.isOrderedWith other with
    | some other => some (key, other)
    | none => unordered? keys

/-- Checks that all keys are known. Unknown keys are put in order first; of those that are no texts the least
is reported. -/
def checkKeys (path : String) (keys : List Document) : Except SettingsFault Unit :=
  let unknown := keys.filter fun key => !isKnown key
  match unordered? unknown, unknown.filter fun key => !isText key with
  | some (first, second), _ => .error (.keysUnordered first second)
  | none, key :: more => .error (.keyNotText (more.foldl lesserKey key).typeName)
  | none, [] =>
    if unknown.isEmpty then .ok ()
    else .error (.unknownKeys path ((texts unknown).mergeSort fun a b => a < b || a == b))

/-- The fault of a value that is refused, if its message can show the value. -/
def refusal (fault : Document → SettingsFault) (value : Document) : SettingsFault :=
  if value.isDisplayable then fault value else .notDisplayable

/-- The value of a key, if it is one of those that `read` takes. -/
def checked {α : Type} (entries : List (Document × Document)) (key : String) (read : Document → Option α)
    (fault : Document → SettingsFault) : Except SettingsFault α :=
  let value := valueOf entries key
  match read value with
  | some x => .ok x
  | none => .error (refusal fault value)

/-- The value of a key, if it is an integer above zero. -/
def positive (entries : List (Document × Document)) (key : String) : Except SettingsFault Int :=
  checked entries key Document.positive? (.notPositive key)

/-- The settings that the entries of a file give. -/
def ofEntries (path : String) (entries : List (Document × Document)) :
    Except SettingsFault Settings := do
  checkKeys path (entries.map (·.1))
  let percentiles ← checked entries "percentiles" Document.percents? .percentiles
  let seed ← checked entries "seed" Document.seed? .seed
  let iterations ← positive entries "iterations"
  let bins ← positive entries "bins"
  let maxExactRanges ← positive entries "max_exact_ranges"
  return ⟨iterations, bins, percentiles, maxExactRanges, seed⟩

/-- The settings that the value of a file gives; an empty file overrides nothing. -/
def ofDocument (path : String) : Document → Except SettingsFault Settings
  | .null => ofEntries path []
  | .mapping entries => ofEntries path entries
  | _ => .error (.notMapping path)

/-- The settings of a file with a name and a text. -/
def ofFile (path text : String) : Except SettingsFault Settings :=
  match Document.ofText text with
  | .ok document => ofDocument path document
  | .error fault => .error (.unreadable path fault)

/-- Whether all settings are the defaults, where numbers of either kind may be equal. -/
def isDefault (s : Settings) : Bool :=
  let plain : Settings := {}
  s.iterations == plain.iterations && s.bins == plain.bins &&
    s.percentiles.map Percent.toFloat == plain.percentiles.map Percent.toFloat &&
    s.maxExactRanges == plain.maxExactRanges && s.seed == plain.seed

/-- A settings file with all defaults. -/
def template : String :=
  "# Number of Monte Carlo iterations per calculation.\n" ++
    "iterations: 100000\n" ++
    "# Number of histogram bins.\n" ++
    "bins: 23\n" ++
    "# Percentiles reported alongside the mean and standard deviation.\n" ++
    "percentiles: [5, 10, 50, 90, 95]\n" ++
    "# Above this many ranges the analytical range is approximated.\n" ++
    "max_exact_ranges: 8\n" ++
    "# Random seed; leave empty for a fresh seed on every run.\n" ++
    "seed:\n"

end Settings

end RangeCalc
