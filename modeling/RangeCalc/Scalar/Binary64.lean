import RangeCalc.Number.ExactSum
import RangeCalc.Number.Rounding
import RangeCalc.Scalar

/-!
# Floating-point numbers as scalars

The functions of formulas on floating-point numbers. A function has no value outside its domain, and none
where its value is too large.

* `mathFunction?`: the functions;
* the instance of `Scalar`.
-/

namespace RangeCalc.Binary64

variable [MathLibrary]

/-- A function of the library. It is outside its domain where it is undefined for a number that is not; a
finite number with an infinite value is one whose value is too large, or outside the domain of a function
that is bounded. -/
def checked (bounded : Bool) (f : Float → Float) (x : Float) : Except ArithmeticFault Float :=
  let y := f x
  if y.isNaN && !x.isNaN then .error .domain
  else if y.isInf && x.isFinite then .error (if bounded then .domain else .overflow)
  else .ok y

/-- A logarithm of the library, for numbers above zero. -/
def logarithm? (log : Float → Float) (x : Float) : Except ArithmeticFault Float :=
  if x ≤ 0 then .error .domain else .ok (log x)

/-- The logarithm to a base; the base one has none. -/
def logarithmTo? (base x : Float) : Except ArithmeticFault Float := do
  let y ← logarithm? MathLibrary.log x
  let scale ← logarithm? MathLibrary.log base
  if scale == 0 then throw .zeroDivision else return y / scale

/-- An integer near a number. -/
def toInteger? (round : Float → Int) (x : Float) : Except ArithmeticFault Int :=
  if x.isNaN then .error .domain
  else if x.isInf then .error .overflow
  else .ok (round x)

/-- A number rounded to as many places as the second number says, which is undefined unless that is an
integer. -/
def roundTo? (x places : Float) : Except ArithmeticFault Float := do
  let digits ← toInteger? floorInt places
  if isInteger places then return roundHalfAway x digits else return nan

/-- The least argument, the first of equal ones. -/
def leastOf (first : Float) (rest : List Float) : Float :=
  rest.foldl (fun a b => if b < a then b else a) first

/-- The greatest argument, the first of equal ones. -/
def greatestOf (first : Float) (rest : List Float) : Float :=
  rest.foldl (fun a b => if a < b then b else a) first

/-- A function of formulas. A number of arguments that it does not take is outside its domain. -/
def mathFunction? : MathFunction → List Float → Except ArithmeticFault Float
  | .round, [x] => .ok (roundHalfAway x 0)
  | .round, [x, places] => roundTo? x places
  | .abs, [x] => .ok x.abs
  | .sqrt, [x] => if x < 0 then .error .domain else .ok x.sqrt
  | .exp, [x] => checked false MathLibrary.exp x
  | .log, [x] => logarithm? MathLibrary.log x
  | .log, [x, base] => logarithmTo? base x
  | .log10, [x] => logarithm? MathLibrary.log10 x
  | .sin, [x] => checked true MathLibrary.sin x
  | .cos, [x] => checked true MathLibrary.cos x
  | .tan, [x] => checked true MathLibrary.tan x
  | .floor, [x] => ofInt <$> toInteger? floorInt x
  | .ceil, [x] => ofInt <$> toInteger? ceilInt x
  | .min, x :: rest => .ok (leastOf x rest)
  | .max, x :: rest => .ok (greatestOf x rest)
  | _, _ => .error .domain

/-- The values of the named numbers. -/
def constantValue : Constant → Float
  | .pi => 3.141592653589793
  | .e => 2.718281828459045
  | .infinity => infinity
  | .undefined => nan

end RangeCalc.Binary64

namespace RangeCalc

instance [MathLibrary] : Scalar Float where
  decidableLT := inferInstance
  decidableLE := inferInstance
  ofInt := Binary64.ofInt
  floor := Binary64.floorInt
  ceil := Binary64.ceilInt
  abs := Float.abs
  power? := Binary64.power?
  constant := Binary64.constantValue
  call? := Binary64.mathFunction?
  isFinite := Float.isFinite
  isUndefined := Float.isNaN
  undefined := Binary64.nan
  sum? := Binary64.exactSum?

end RangeCalc
