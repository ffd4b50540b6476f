import RangeCalc.Formula.Compile
import RangeCalc.Formula.Eval
import RangeCalc.Number.Numeral
import RangeCalc.Scalar.Binary64

/-!
# Why a calculation has no result

* `CalcError`: the causes, and `CalcError.message`, their texts;
* `fixedValue`: the value of a text without ranges.
-/

namespace RangeCalc

/-- A range of numbers as error messages show it. -/
def rangeText (low high : Float) : String :=
  numberText low ++ "~" ++ numberText high

def EvalError.message : EvalError Float → String
  | .unboundVariable name => "unknown identifier " ++ name
  | .rangeAsOperand low high => "number expected, got " ++ rangeText low high
  | .rangeAsResult low high =>
    "'" ++ rangeText low high ++ "' is a range, not a number; use sample()"
  | .notFinite x => "expression evaluated to a non-finite value (" ++ numberText x ++ ")"

/-- Why a calculation over numbers `α` has no result. -/
inductive CalcError (α : Type) where
  | compile (e : CompileError)
  | eval (e : EvalError α)
  /-- A text that is evaluated only once draws. -/
  | sampling (text : String)
  /-- No combination of bounds gave a finite number. -/
  | noFiniteCorner
  /-- No iteration gave a finite number. -/
  | noFiniteIteration (count : Nat)

def CalcError.message : CalcError Float → String
  | .compile e => e.message
  | .eval e => e.message
  | .sampling text => "'" ++ text ++ "' contains sampling calls"
  | .noFiniteCorner => "no combination of range endpoints gave a finite result"
  | .noFiniteIteration count =>
    "calculation resulted in errors for all " ++ toString count ++ " iterations"

/-- The value of a formula that neither draws nor has variables. It may be infinite or undefined. -/
def Formula.fixedValue {α : Type} [Scalar α] (text : String) (f : Formula α) : Except (CalcError α) α :=
  if f.isProbabilistic then .error (.sampling text)
  else f.toFixed.mapError .eval

/-- The value of a text that neither draws nor has variables. -/
def fixedValue [MathLibrary] (text : String) : Except (CalcError Float) Float :=
  match compile text with
  | .error e => .error (.compile e)
  | .ok formula => formula.fixedValue text

end RangeCalc
