import RangeCalc.Number.Literal
import RangeCalc.Number.Numeral
import RangeCalc.Shorthand.Numeral
import RangeCalc.Text.Segment

/-!
# Shorthand for numbers and percentages

Five passes, each over the whole text that the one before it left.

* `thousands`: `1,234` is `1234`;
* `sharedPercent`: `(10-20%)` is `(10% - 20%)`;
* `appliedPercent`: `500 (10%~20%)` is `500 * (1.1~1.2)`;
* `percentSpan`: `10% - 20%` is `10% ~ 20%`;
* `timesSign`: `2 x 3` is `2 * 3`;
* `expand`: all five in this order.
-/

namespace RangeCalc.Shorthand

open Text

/-- A comma between a digit and exactly three digits is dropped. -/
def thousands : Finder (List Char)
  | before :: _, ',' :: rest =>
    let group := rest.takeWhile isDigit
    if isDigit before ∧ group.length = 3 then some ([], rest) else none
  | _, _ => none

/-- Whether a numeral ends here: the text goes on neither with more of it nor with a percent sign. -/
def endsWithoutPercent (rest : List Char) : Bool :=
  match rest with
  | c :: _ => !(isDigit c || c == '.') && (skipBlanks rest).head? != some '%'
  | [] => true

/-- Two bounds in parentheses that share the percent sign of the second. -/
def sharedPercent : Finder (List Char) := fun _ text => do
  let rest ← expect? '(' text
  let (low, rest) ← negatable? (skipBlanks rest)
  guard (endsWithoutPercent rest)
  let (mark, rest) ← separator? (skipBlanks rest)
  let (high, rest) ← negatable? (skipBlanks rest)
  let rest ← expect? '%' rest
  let rest ← expect? ')' (skipBlanks rest)
  return ('(' :: low ++ ['%', ' ', mark, ' '] ++ high ++ ['%', ')'], rest)

/-- The value of a numeral with an optional minus. -/
def numeralValue (cs : List Char) : Float :=
  match cs with
  | '-' :: digits => -literalValue digits
  | digits => literalValue digits

/-- What a change by a percentage multiplies by. -/
def growthFactor (percentage : List Char) : Float :=
  1 + numeralValue percentage / 100

/-- A number followed by a percent range in parentheses is changed by that range. -/
def appliedPercent : Finder (List Char) := fun before text => do
  guard (standsAlone before)
  let (base, rest) ← negatable? text
  let rest ← expect? '(' (skipBlanks rest)
  let (low, rest) ← negatable? (skipBlanks rest)
  let rest ← expect? '%' rest
  let (_, rest) ← separator? (skipBlanks rest)
  let (high, rest) ← negatable? (skipBlanks rest)
  let rest ← expect? '%' rest
  let rest ← expect? ')' (skipBlanks rest)
  let first := growthFactor low
  let second := growthFactor high
  let least := if second < first then second else first
  let greatest := if first < second then second else first
  return (base ++ [' ', '*', ' ', '('] ++ plainChars least ++ '~' :: plainChars greatest ++ [')'], rest)

/-- Two percentages with a hyphen between them are a range. -/
def percentSpan : Finder (List Char) := fun _ text => do
  let (low, rest) ← negatable? text
  let rest ← expect? '%' rest
  let rest ← expect? '-' (skipBlanks rest)
  let (high, rest) ← negatable? (skipBlanks rest)
  let rest ← expect? '%' rest
  return (low ++ ['%', ' ', '~', ' '] ++ high ++ ['%'], rest)

/-- The letter `x` that stands beside no letter and no underscore is a product sign. -/
def timesSign : Finder (List Char)
  | before, c :: rest =>
    if (c = 'x' ∨ c = 'X') ∧ !before.head?.any isNameStart ∧ !rest.head?.any isNameStart then
      some (['*'], rest)
    else none
  | _, [] => none

/-- All shorthand written out. -/
def expand (text : List Char) : List Char :=
  let text := replaceEach thousands text
  let text := replaceEach sharedPercent text
  let text := replaceEach appliedPercent text
  let text := replaceEach percentSpan text
  replaceEach timesSign text

example : expand "1,234 (10-20%) x 2".toList = "1234 * (1.1~1.2) * 2".toList := by decide +kernel

end RangeCalc.Shorthand
