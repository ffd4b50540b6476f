import RangeCalc.Formula.Basic
import RangeCalc.Number.Power

/-!
# Numbers that formulas are evaluated over

What evaluation and statistics need of a type of numbers. The program computes with floating-point
numbers; the same definitions over exact rationals have the laws of arithmetic.

* `ArithmeticFault`: why a function has no value;
* `Scalar`: the operations;
* `Scalar.powerOrInfinity`, `Scalar.recover`: what stands for a power or a value that there is not;
* `Scalar.lesser`, `Scalar.greater`: the first of two numbers unless the second is beyond it.
-/

namespace RangeCalc

/-- Why a function of formulas has no value. -/
inductive ArithmeticFault where
  /-- The value is too large. -/
  | overflow
  /-- An argument is outside the domain. -/
  | domain
  | zeroDivision
deriving DecidableEq, Repr

/-- Arithmetic, comparison and the functions of formulas. Some numbers may be undefined or infinite. -/
class Scalar (α : Type) extends Add α, Sub α, Mul α, Div α, Neg α, LT α, LE α where
  decidableLT : DecidableLT α
  decidableLE : DecidableLE α
  ofInt : Int → α
  /-- The greatest integer that is not above a number. -/
  floor : α → Int
  /-- The least integer that is not below a number. -/
  ceil : α → Int
  abs : α → α
  power? : α → α → Except PowerFault α
  constant : Constant → α
  call? : MathFunction → List α → Except ArithmeticFault α
  isFinite : α → Bool
  isUndefined : α → Bool
  /-- The result of what has no result. -/
  undefined : α
  /-- The sum of finite numbers, unless it overflows. -/
  sum? : List α → Option α

attribute [reducible, instance] Scalar.decidableLT Scalar.decidableLE

namespace Scalar

variable {α : Type} [Scalar α]

/-- A power as the result of an operation; both faults give infinity. -/
def powerOrInfinity (x y : α) : α :=
  match power? x y with
  | .ok z => z
  | .error .zeroDivision => constant .infinity
  | .error .overflow => constant .infinity

/-- The value of a function as the result of a call; only what is too large is infinite. -/
def recover : Except ArithmeticFault α → α
  | .ok x => x
  | .error .overflow => constant .infinity
  | .error .domain => undefined
  | .error .zeroDivision => undefined

/-- The first number, unless the second is below it. -/
@[inline] def lesser (a b : α) : α := if b < a then b else a

/-- The first number, unless the second is above it. -/
@[inline] def greater (a b : α) : α := if a < b then b else a

/-- The least of some numbers, the first of equal ones. -/
@[specialize] def least (first : α) (rest : List α) : α := rest.foldl lesser first

/-- The greatest of some numbers, the first of equal ones. -/
@[specialize] def greatest (first : α) (rest : List α) : α := rest.foldl greater first

end Scalar

end RangeCalc
