import RangeCalc.Number.Numeral
import RangeCalc.Scalar.Binary64
import RangeCalc.Statistics.Summary

/-!
# Percentiles that are asked for

* `Percent`: a percentile as it was asked for;
* `Percent.same`: equality of percentiles as numbers.
-/

namespace RangeCalc

/-- A percentile as it was asked for: a whole number or not. -/
inductive Percent where
  | whole (n : Int)
  | decimal (x : Float)

namespace Percent

def toFloat : Percent → Float
  | whole n => Binary64.ofInt n
  | decimal x => x

/-- A percentile as a number, unless it is a whole number that is too large. -/
def toFloat? [MathLibrary] : Percent → Except StatisticsFault Float
  | whole n => Statistics.ofInt? n
  | decimal x => .ok x

/-- Whether a number is the given integer. -/
def isWhole (x : Float) (n : Int) : Bool :=
  x.isFinite && Binary64.isInteger x && Binary64.floorInt x == n

/-- Whether two percentiles are equal as numbers. -/
def same : Percent → Percent → Bool
  | whole m, whole n => m == n
  | whole n, decimal x => isWhole x n
  | decimal x, whole n => isWhole x n
  | decimal x, decimal y => x == y

def text : Percent → String
  | whole n => toString n
  | decimal x => numberText x

end Percent

end RangeCalc
