import RangeCalc.Range.Box
import RangeCalc.Shorthand.Expand
import RangeCalc.Shorthand.Product

/-!
# Ranges as variables

Each range of a text becomes a variable, so that the text can be evaluated at any point of the box that
the ranges span.

* `placeholderStem`: what all placeholders of a text start with; it occurs nowhere in the text;
* `Extraction`: the ranges with their placeholders, and the text with placeholders for ranges;
* `Extraction.ofText`: the extraction from a text with shorthand.
-/

namespace RangeCalc

open Text Shorthand

/-- The stem with `n` additional underscores. -/
def stemWith (n : Nat) : List Char :=
  List.replicate n '_' ++ "__range".toList

/-- The shortest stem that does not occur in a text. One with as many additional underscores as the
text has characters is longer than the text. -/
def placeholderStem (text : List Char) : List Char :=
  stemWith (((List.range text.length).find? fun n => !occursIn (stemWith n) text).getD text.length)

/-- The name of the range with the given number. -/
def placeholderName (stem : List Char) (index : Nat) : List Char :=
  stem ++ digitChars index ++ ['_', '_']

/-- The ranges of a text, and the text with a placeholder for each. -/
structure Extraction where
  ranges : List (RangeVar Float)
  expression : String
  faults : List RangeFault

namespace Extraction

/-- The texts of all faults, or nothing if there is none. -/
def faultText? (e : Extraction) : Option String :=
  if e.faults.isEmpty then none
  else some ("; ".intercalate (e.faults.map RangeFault.message))

/-- The extraction from a text. Shorthand is expanded before ranges are looked for, and finished around
the placeholders. -/
def ofText (raw : String) : Extraction :=
  let text := expand raw.toList
  let stem := placeholderStem text
  let tokens := rangeTokens text
  { ranges := tokens.mapIdx fun index token =>
      ⟨String.ofList (placeholderName stem index), token.interval⟩
    expression := String.ofList
      (finish (substituteRanges (fun index _ => placeholderName stem index) text) (some stem))
    faults := tokens.flatMap RangeToken.faults }

end Extraction

end RangeCalc
