/-!
# Formulas

The expressions that are evaluated, over any type of numbers. A uniform range and a draw from one are
forms of their own, so both always have the right number of arguments.

* `Formula`: the tree;
* `Formula.isProbabilistic`: whether it speaks of ranges or draws;
* `Formula.vars`: its variables, from left to right.
-/

namespace RangeCalc

/-- A named number. -/
inductive Constant where
  | pi
  | e
  | infinity
  | undefined
deriving DecidableEq, Repr

inductive BinaryOp where
  | add
  | sub
  | mul
  | div
  | pow
deriving DecidableEq, Repr

inductive Sign where
  | minus
  | plus
deriving DecidableEq, Repr

/-- The functions from numbers to a number. -/
inductive MathFunction where
  | round
  | abs
  | sqrt
  | exp
  | log
  | log10
  | sin
  | cos
  | tan
  | floor
  | ceil
  | min
  | max
deriving DecidableEq, Repr

/-- An expression with literals from `α`. -/
inductive Formula (α : Type) where
  | number (value : α)
  | constant (c : Constant)
  | var (name : String)
  | signed (sign : Sign) (operand : Formula α)
  | binary (op : BinaryOp) (lhs rhs : Formula α)
  | call (function : MathFunction) (args : List (Formula α))
  | uniform (low high : Formula α)
  | sample (range : Formula α)

namespace Formula

variable {α : Type}

mutual

/-- Whether a formula holds a range or a draw. -/
def isProbabilistic : Formula α → Bool
  | number _ => false
  | constant _ => false
  | var _ => false
  | signed _ operand => operand.isProbabilistic
  | binary _ lhs rhs => lhs.isProbabilistic || rhs.isProbabilistic
  | call _ args => anyProbabilistic args
  | uniform _ _ => true
  | sample _ => true

/-- Whether one of some formulas holds a range or a draw. -/
def anyProbabilistic : List (Formula α) → Bool
  | [] => false
  | f :: fs => f.isProbabilistic || anyProbabilistic fs

end

mutual

/-- The variables of a formula, from left to right, as often as they occur. -/
def vars : Formula α → List String
  | number _ => []
  | constant _ => []
  | var name => [name]
  | signed _ operand => operand.vars
  | binary _ lhs rhs => lhs.vars ++ rhs.vars
  | call _ args => varsOfAll args
  | uniform low high => low.vars ++ high.vars
  | sample range => range.vars

/-- The variables of some formulas, from left to right. -/
def varsOfAll : List (Formula α) → List String
  | [] => []
  | f :: fs => f.vars ++ varsOfAll fs

end

end Formula

end RangeCalc
