import RangeCalc.Number.Binary64

/-!
# Sums without rounding errors

A sum is kept exactly as a list of floating-point parts: a rounded total, and what rounding has left over
at each step. Only the last total is rounded. A sum overflows where adding a term to the parts gives a
part that is too large for a finite number, even if later terms would bring it back.

* `SumParts.add?`, `SumParts.addAll?`: adds a term or some terms to the parts, unless it overflows;
* `exactSum?`: the sum of finite numbers, unless it overflows.
-/

namespace RangeCalc.Binary64

/-- The least number of units that rounds to infinity: half a step above the largest number. -/
def overflowUnits : Int := twoTo 2098 - twoTo 2044

/-- Whether a number of units rounds to a finite number. -/
def isRoundable (n : Int) : Bool :=
  -overflowUnits < n && n < overflowUnits

/-- A number of units rounded to one with 53 binary digits, ties to even. -/
def roundUnits (n : Int) : Int :=
  let shift := n.natAbs.log2 - 52
  if shift = 0 then n
  else
    let size : Int := shiftRoundEven n.natAbs shift <<< shift
    if n < 0 then -size else size

namespace SumParts

/-- The parts, in units, after a term is added to them in turn. What rounding leaves over stays in the
place of the part, and the rounded total goes on to the next part. Parts that are zero are dropped. -/
def add? (term : Int) : List Int → Option (List Int)
  | [] => some (if term = 0 then [] else [term])
  | part :: rest =>
    let total := term + part
    if isRoundable total then
      let rounded := roundUnits total
      let leftover := total - rounded
      (add? rounded rest).map fun parts => if leftover = 0 then parts else leftover :: parts
    else none

/-- The parts after some terms are added one after the other. -/
def addAll? (terms : List Float) (parts : List Int) : Option (List Int) :=
  terms.foldlM (fun parts x => add? (units x) parts) parts

end SumParts

/-- The number nearest to the sum of finite terms, unless it overflows. -/
def exactSum? (terms : List Float) : Option Float :=
  (SumParts.addAll? terms []).map fun parts => ofUnits (parts.foldl (· + ·) 0)

example : roundUnits (2 ^ 60 + 128) = 2 ^ 60 ∧ roundUnits (-2 ^ 60 - 129) = -2 ^ 60 - 256 := by
  decide +kernel

example : (exactSum? [1e300, 1.0, -1e300]).map Float.toBits = some (1.0 : Float).toBits := by
  decide +kernel

example : (exactSum? [1e308, 1e308, -1e308]).isNone = true := by decide +kernel

/-- What is added last goes to the leftovers first, and so can overflow where the exact total does not. -/
example : (exactSum? [1.7976931348623157e308, -5e-324, 9.9792015476736e291]).isNone = true := by
  decide +kernel

end RangeCalc.Binary64
