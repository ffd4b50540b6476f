import RangeCalc.Formula.Function
import RangeCalc.Number.Numeral

/-!
# How formulas are written

Every binary operation has its parentheses, so the text shows how operators were grouped.

* `Formula.text`: the text of a formula.
-/

namespace RangeCalc

def Constant.name : Constant → String
  | .pi => "pi"
  | .e => "e"
  | .infinity => "inf"
  | .undefined => "nan"

def BinaryOp.symbol : BinaryOp → String
  | .add => "+"
  | .sub => "-"
  | .mul => "*"
  | .div => "/"
  | .pow => "^"

def Sign.symbol : Sign → String
  | .minus => "-"
  | .plus => "+"

namespace Formula

mutual

/-- The text of a formula. -/
def text : Formula Float → String
  | number value => numberText value
  | constant c => c.name
  | var name => name
  | signed sign operand => sign.symbol ++ operand.text
  | binary op lhs rhs => "(" ++ lhs.text ++ " " ++ op.symbol ++ " " ++ rhs.text ++ ")"
  | call f args => f.name ++ "(" ++ ", ".intercalate (texts args) ++ ")"
  | uniform low high => "uniform(" ++ low.text ++ ", " ++ high.text ++ ")"
  | sample range => "sample(" ++ range.text ++ ")"

/-- The texts of some formulas. -/
def texts : List (Formula Float) → List String
  | [] => []
  | f :: fs => f.text :: texts fs

end

end Formula

end RangeCalc
