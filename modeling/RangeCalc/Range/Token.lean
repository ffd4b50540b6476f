import RangeCalc.Shorthand.Numeral
import RangeCalc.Text.Segment

/-!
# Ranges in a text

A range is written as two bounds with a tilde between them, such as `5~10` or `-2.5% ~ +3%`.

* `RangeToken`: a range as it is written;
* `rangeTokens`: the ranges of a text, from left to right;
* `substituteRanges`: the text with each range replaced.
-/

namespace RangeCalc

open Text Shorthand

/-- A range as it is written: the whole text, the texts of its bounds, and whether each bound has a
percent sign. -/
structure RangeToken where
  text : List Char
  minText : List Char
  maxText : List Char
  minPercent : Bool
  maxPercent : Bool
deriving DecidableEq

/-- A range found in a text. A sign in front that joins the range to what stands before it is not part
of the range. -/
structure FoundRange where
  operator : Option Char
  token : RangeToken
deriving DecidableEq

namespace RangeToken

/-- A percent sign at the front of a text, and the rest. -/
def percentSign : List Char → Bool × List Char
  | '%' :: rest => (true, rest)
  | rest => (false, rest)

/-- Whether a sign after these characters, nearest first, is an operator: an operand ends there. -/
def endsOperand (before : List Char) : Bool :=
  match skipBlanks before with
  | c :: _ => isAlphanumeric c || c == '_' || c == '.' || c == ')' || c == '%'
  | [] => false

/-- A range at a place where a token may start. -/
def find : Finder FoundRange := fun before text => do
  guard (standsAlone before)
  let (minText, rest) ← signed? text
  let (minPercent, rest) := percentSign rest
  let rest ← expect? '~' (skipBlanks rest)
  let (maxText, rest) ← signed? (skipBlanks rest)
  let (maxPercent, rest) := percentSign rest
  let whole := text.take (text.length - rest.length)
  match minText with
  | sign :: unsigned =>
    if (sign = '+' ∨ sign = '-') ∧ endsOperand before then
      return (⟨some sign, ⟨whole.drop 1, unsigned, maxText, minPercent, maxPercent⟩⟩, rest)
    else
      return (⟨none, ⟨whole, minText, maxText, minPercent, maxPercent⟩⟩, rest)
  | [] => none

end RangeToken

/-- The ranges of a text, in order. -/
def rangeTokens (text : List Char) : List RangeToken :=
  (occurrences RangeToken.find text).map (·.token)

/-- The text of segments with each range replaced, where `index` counts the ranges. An operator stands
apart from the replacement. -/
def substituteSegments (replace : Nat → RangeToken → List Char) :
    (index : Nat) → List (Segment FoundRange) → List Char
  | _, [] => []
  | index, .char c :: rest => c :: substituteSegments replace index rest
  | index, .found range :: rest =>
    (match range.operator with
      | some sign => [sign, ' ']
      | none => []) ++
      replace index range.token ++ substituteSegments replace (index + 1) rest

/-- The text with each range replaced by what `replace` gives for its number and token. -/
def substituteRanges (replace : Nat → RangeToken → List Char) (text : List Char) : List Char :=
  substituteSegments replace 0 (segments RangeToken.find text)

example : substituteRanges (fun _ _ => ['r']) "3 -1~2 * (-1 ~ 2%)".toList = "3 - r * (r)".toList := by
  decide +kernel

end RangeCalc
