import RangeCalc.Range.Interval
import RangeCalc.Shorthand.Expand
import RangeCalc.Shorthand.Product

/-!
# The sampling form

Each range becomes a call that draws from its interval, so that one evaluation of the text is one draw
of all its ranges.

* `NormalForm`: the text, and whether it mentions a sampling call;
* `NormalForm.ofText`: the sampling form of a text with shorthand.
-/

namespace RangeCalc

open Text Shorthand

/-- A text ready to be evaluated, and whether a sampling call is written in it. -/
structure NormalForm where
  expression : String
  isProbabilistic : Bool
deriving DecidableEq

/-- A bound as an argument; an undefined one is the constant `nan`. -/
def boundChars (x : Float) : List Char :=
  if x.isNaN then "nan".toList else plainChars x

/-- The call that draws from the interval of a range. -/
def samplingCall (token : RangeToken) : List Char :=
  "sample(uniform(".toList ++ boundChars token.interval.min ++ [',', ' '] ++
    boundChars token.interval.max ++ [')', ')']

/-- Whether a sampling call is written in a text, in any case of its letters. -/
def mentionsSampling (text : List Char) : Bool :=
  let lowered := lowerAscii text
  occursIn "sample(".toList lowered || occursIn "uniform(".toList lowered

/-- The sampling form of a text. -/
def NormalForm.ofText (raw : String) : NormalForm :=
  let text := finish (substituteRanges (fun _ token => samplingCall token) (expand raw.toList)) none
  ⟨String.ofList text, mentionsSampling text⟩

end RangeCalc
