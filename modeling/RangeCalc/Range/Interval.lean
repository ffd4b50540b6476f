import RangeCalc.Number.Literal
import RangeCalc.Range.Token
import RangeCalc.Scalar.Binary64

/-!
# The interval a range denotes

* `RangeToken.interval`: the bounds of a range in ascending order; a bound that is no finite number is
  undefined;
* `RangeToken.faults`: what is wrong with the bounds.
-/

namespace RangeCalc

/-- One of the two bounds of a range. -/
inductive RangeSide where
  | min
  | max
deriving DecidableEq

def RangeSide.name : RangeSide → String
  | .min => "min"
  | .max => "max"

/-- A bound that is no finite number. -/
structure RangeFault where
  range : List Char
  side : RangeSide
  text : List Char
deriving DecidableEq

def RangeFault.message (fault : RangeFault) : String :=
  "invalid numeric value in range '" ++ String.ofList fault.range ++ "' (could not parse " ++
    fault.side.name ++ " '" ++ String.ofList fault.text ++ "')"

/-- Two bounds, in ascending order or with one of them undefined. -/
structure Interval (α : Type) where
  min : α
  max : α

namespace Interval

variable {α : Type} [Scalar α]

/-- The bounds in ascending order. -/
def ordered (a b : α) : Interval α :=
  if b < a then ⟨b, a⟩ else ⟨a, b⟩

/-- Whether both bounds are defined. -/
def isValid (i : Interval α) : Bool :=
  !(Scalar.isUndefined i.min || Scalar.isUndefined i.max)

end Interval

/-- The value of a bound, if its text is a finite number. -/
def boundValue? (text : List Char) (percent : Bool) : Option Float := do
  let value ← readNumber? text
  guard value.isFinite
  return if percent then value / 100 else value

namespace RangeToken

def min? (token : RangeToken) : Option Float := boundValue? token.minText token.minPercent

def max? (token : RangeToken) : Option Float := boundValue? token.maxText token.maxPercent

/-- The interval of a range; bounds in descending order are exchanged. -/
def interval (token : RangeToken) : Interval Float :=
  .ordered (token.min?.getD Binary64.nan) (token.max?.getD Binary64.nan)

/-- The faults of a range, those of its first bound first. -/
def faults (token : RangeToken) : List RangeFault :=
  (if token.min?.isNone then [⟨token.text, .min, token.minText⟩] else []) ++
    (if token.max?.isNone then [⟨token.text, .max, token.maxText⟩] else [])

end RangeToken

end RangeCalc
