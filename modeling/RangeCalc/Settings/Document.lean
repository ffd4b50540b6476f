import RangeCalc.Number.Literal
import RangeCalc.Number.Numeral
import RangeCalc.Settings.Moment

/-!
# Values of a settings file

A settings file holds nested lists and mappings of numbers, texts, truth values, days and moments.

* `Document`: the values;
* `Document.display`: how a value is shown in a message;
* `Document.isDisplayable`: whether a message can show a value.
-/

namespace RangeCalc

/-- A value of a settings file. A mapping keeps the order in which its keys were first given. -/
inductive Document where
  | null
  | flag (b : Bool)
  | integer (n : Int)
  | decimal (x : Float)
  | text (s : String)
  | day (d : Day)
  | moment (m : Moment)
  | list (items : List Document)
  | mapping (entries : List (Document × Document))
  /-- A value of another type, such as bytes or a set: the name of its type, its display, and whether a message
  can show that. A set of integers with too many digits cannot be shown. -/
  | foreign (typeName shown : String) (displayable : Bool)

namespace Document

/-- A value as a number, where a truth value counts as one or zero. -/
def number? : Document → Option Float
  | flag b => some (if b then 1 else 0)
  | integer n => some (Binary64.ofInt n)
  | decimal x => some x
  | _ => none

/-- A value as an exact number of units, if it is a finite number. -/
def units? : Document → Option Int
  | flag b => some (if b then Binary64.one else 0)
  | integer n => some (n * Binary64.one)
  | decimal x => if x.isFinite then some (Binary64.units x) else none
  | _ => none

/-- Whether two keys of a mapping are the same, which all equal numbers are, and all undefined ones. Lists
and mappings are no keys. -/
def sameKey : Document → Document → Bool
  | null, null => true
  | text a, text b => a == b
  | day a, day b => a == b
  | moment a, moment b => a.isSame b
  | decimal a, decimal b => a == b || (a.isNaN && b.isNaN)
  | foreign s a _, foreign t b _ => s == t && a == b
  | a, b =>
    match a.units?, b.units? with
    | some m, some n => m == n
    | _, _ => false

/-- Gives a key a value; a key that has one already keeps its place. -/
def put (key value : Document) : List (Document × Document) → List (Document × Document)
  | [] => [(key, value)]
  | (other, old) :: rest =>
    if sameKey other key then (other, value) :: rest else (other, old) :: put key value rest

mutual

/-- A value as messages display it. -/
def display : Document → String
  | null => "None"
  | flag b => if b then "True" else "False"
  | integer n => toString n
  | decimal x => numberText x
  | text s => String.ofList (Text.quoted s.toList)
  | day d => d.display
  | moment m => m.display
  | list items => "[" ++ ", ".intercalate (displayAll items) ++ "]"
  | mapping entries => "\x7b" ++ ", ".intercalate (displayEntries entries) ++ "\x7d"
  | foreign _ shown _ => shown

/-- Some values as messages display them. -/
def displayAll : List Document → List String
  | [] => []
  | d :: ds => display d :: displayAll ds

/-- Keys and values as messages display them. -/
def displayEntries : List (Document × Document) → List String
  | [] => []
  | (key, value) :: rest => (display key ++ ": " ++ display value) :: displayEntries rest

end

mutual

/-- Whether a value can be displayed, which needs integers that do not have too many digits. -/
def isDisplayable : Document → Bool
  | integer n => decide (n.natAbs < 10 ^ integerDigits)
  | list items => allDisplayable items
  | mapping entries => entriesDisplayable entries
  | foreign _ _ displayable => displayable
  | _ => true

/-- Whether some values can be displayed. -/
def allDisplayable : List Document → Bool
  | [] => true
  | d :: ds => isDisplayable d && allDisplayable ds

/-- Whether keys and values can be displayed. -/
def entriesDisplayable : List (Document × Document) → Bool
  | [] => true
  | (key, value) :: rest => isDisplayable key && isDisplayable value && entriesDisplayable rest

end

end Document

end RangeCalc
