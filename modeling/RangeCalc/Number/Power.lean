import RangeCalc.Number.Binary64
import RangeCalc.Number.Library

/-!
# Powers

Powers of zero, one, infinities and undefined numbers, and the signs of odd powers, are settled by rules;
the rest is computed for a finite positive base other than one.

* `PowerFault`: why there is no power;
* `power?`: the power; an even root of a negative number is undefined.
-/

namespace RangeCalc

/-- Why two numbers have no power. -/
inductive PowerFault where
  /-- Zero has no negative powers. -/
  | zeroDivision
  /-- The power is too large. -/
  | overflow
deriving DecidableEq, Repr

namespace Binary64

variable [MathLibrary]

/-- Whether a finite number is an odd integer. -/
def isOddInteger (x : Float) : Bool :=
  magnitude x % (2 * one) == one

/-- The power of a finite non-zero base with an infinite exponent. -/
def infinitePower (base exponent : Float) : Float :=
  if base.abs == 1 then 1
  else if (0 < exponent) = (1 < base.abs) then infinity
  else 0

/-- The power of an infinite base with a finite non-zero exponent. -/
def powerOfInfinity (base exponent : Float) : Float :=
  let size := if 0 < exponent then infinity else 0
  if isOddInteger exponent then withSignOf size base else size

/-- The power of a zero with a finite non-zero exponent. -/
def powerOfZero? (base exponent : Float) : Except PowerFault Float :=
  if exponent < 0 then .error .zeroDivision
  else if isOddInteger exponent then .ok base
  else .ok 0

/-- A power as the library computes it, unless it is too large. -/
def libraryPower? (base exponent : Float) : Except PowerFault Float :=
  let size := MathLibrary.pow base exponent
  if size.isInf then .error .overflow else .ok size

/-- The power of a finite negative base with a finite non-zero exponent. -/
def powerOfNegative? (base exponent : Float) : Except PowerFault Float := do
  let size ← if base == -1 then pure 1 else libraryPower? (-base) exponent
  if !isInteger exponent then return nan
  else if isOddInteger exponent then return -size
  else return size

/-- The power `base ^ exponent`. -/
def power? (base exponent : Float) : Except PowerFault Float :=
  if exponent == 0 then .ok 1
  else if base.isNaN then .ok nan
  else if exponent.isNaN then if base == 1 then .ok 1 else .ok nan
  else if exponent.isInf then .ok (infinitePower base exponent)
  else if base.isInf then .ok (powerOfInfinity base exponent)
  else if base == 0 then powerOfZero? base exponent
  else if base < 0 then powerOfNegative? base exponent
  else if base == 1 then .ok 1
  else libraryPower? base exponent

end Binary64

end RangeCalc
