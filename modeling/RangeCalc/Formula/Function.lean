import RangeCalc.Formula.Basic

/-!
# The functions of formulas

What a user may call, with the number of arguments each takes and the texts that explain it.

* `Function`: the functions, `Function.all` in the order of their introduction;
* `Function.ofName?`: look-up without regard to case;
* `Function.arity`, `Function.description`, `Function.help`.
-/

namespace RangeCalc

/-- A function that a formula may call. -/
inductive Function where
  | math (f : MathFunction)
  | uniform
  | sample
deriving DecidableEq, Repr

/-- The least and, if there is one, the greatest number of arguments. -/
structure Arity where
  least : Nat
  greatest : Option Nat
deriving DecidableEq, Repr

/-- Whether a number of arguments is within the limits. -/
def Arity.admits (arity : Arity) (count : Nat) : Bool :=
  arity.least ≤ count && arity.greatest.all (count ≤ ·)

/-- How many arguments are expected, in words. -/
def Arity.text (arity : Arity) : String :=
  match arity.greatest with
  | none => "at least " ++ toString arity.least
  | some greatest =>
    if greatest = arity.least then toString arity.least
    else toString arity.least ++ " to " ++ toString greatest

def MathFunction.name : MathFunction → String
  | .round => "round"
  | .abs => "abs"
  | .sqrt => "sqrt"
  | .exp => "exp"
  | .log => "log"
  | .log10 => "log10"
  | .sin => "sin"
  | .cos => "cos"
  | .tan => "tan"
  | .floor => "floor"
  | .ceil => "ceil"
  | .min => "min"
  | .max => "max"

def MathFunction.arity : MathFunction → Arity
  | .round => ⟨1, some 2⟩
  | .log => ⟨1, some 2⟩
  | .min => ⟨1, none⟩
  | .max => ⟨1, none⟩
  | _ => ⟨1, some 1⟩

namespace Function

/-- All functions. -/
def all : List Function :=
  [.math .round,
    .math .abs,
    .math .sqrt,
    .math .exp,
    .math .log,
    .math .log10,
    .math .sin,
    .math .cos,
    .math .tan,
    .math .floor,
    .math .ceil,
    .math .min,
    .math .max,
    .uniform,
    .sample]

def name : Function → String
  | .math f => f.name
  | .uniform => "uniform"
  | .sample => "sample"

def arity : Function → Arity
  | .math f => f.arity
  | .uniform => ⟨2, some 2⟩
  | .sample => ⟨1, some 1⟩

/-- The function with a name; capitals count as small letters. -/
def ofName? (name : String) : Option Function :=
  all.find? fun f => f.name == name.toLower

/-- What a function computes, in a few words. -/
def description : Function → String
  | .math .round => "round to the nearest integer or decimal place"
  | .math .abs => "absolute value"
  | .math .sqrt => "square root"
  | .math .exp => "e raised to a power"
  | .math .log => "logarithm (natural unless a base is given)"
  | .math .log10 => "base 10 logarithm"
  | .math .sin => "sine (radians)"
  | .math .cos => "cosine (radians)"
  | .math .tan => "tangent (radians)"
  | .math .floor => "round down"
  | .math .ceil => "round up"
  | .math .min => "smallest of the arguments"
  | .math .max => "largest of the arguments"
  | .uniform => "a uniform range, for use with sample"
  | .sample => "draw a random value from a range"

/-- How a function is used, for those that need more than a description. -/
def help : Function → String
  | .math .round =>
    "round(<x>[, <digits>])\n" ++
    "\n" ++
    "Arguments:\n" ++
    "    x - A number\n" ++
    "    digits - Optional. Number of decimal places to keep.\n" ++
    "\n" ++
    "Result:\n" ++
    "    Rounds x, with halves rounded away from zero\n" ++
    "    (round(2.5) is 3, round(-2.5) is -3).\n" ++
    "\n" ++
    "Examples:\n" ++
    "    round(1~6)\n" ++
    "    round(1~6) + round(1~6)\n" ++
    "    round(pi, 2)\n"
  | .math .sqrt =>
    "sqrt(<x>)\n" ++
    "\n" ++
    "Result:\n" ++
    "    Square root of x. Negative x gives an invalid result.\n" ++
    "\n" ++
    "Examples:\n" ++
    "    sqrt(16)\n" ++
    "    sqrt(10~20)\n"
  | .math .log =>
    "log(<x>[, <base>])\n" ++
    "\n" ++
    "Arguments:\n" ++
    "    x - A positive number\n" ++
    "    base - Optional. Defaults to e.\n" ++
    "\n" ++
    "Examples:\n" ++
    "    log(e)\n" ++
    "    log(8, 2)\n"
  | .math .min =>
    "min(<x>, <y>, ...)\n" ++
    "\n" ++
    "Result:\n" ++
    "    Returns the smallest argument.\n" ++
    "\n" ++
    "Examples:\n" ++
    "    min(1~10, 5)\n"
  | .math .max =>
    "max(<x>, <y>, ...)\n" ++
    "\n" ++
    "Result:\n" ++
    "    Returns the largest argument.\n" ++
    "\n" ++
    "Examples:\n" ++
    "    max(1~10, 5)\n" ++
    "    (100~200) / max(0.5~2, 1)\n"
  | .uniform =>
    "uniform(<min>, <max>)\n" ++
    "\n" ++
    "Result:\n" ++
    "    Describes the interval [min, max]. On its own it is\n" ++
    "    not a number; pass it to sample to draw from it.\n" ++
    "    The range syntax min~max is shorthand for\n" ++
    "    sample(uniform(min, max)).\n" ++
    "\n" ++
    "Examples:\n" ++
    "    sample(uniform(1, 6))\n"
  | .sample =>
    "sample(<range>)\n" ++
    "\n" ++
    "Arguments:\n" ++
    "    range - A range built with uniform, or a plain number.\n" ++
    "\n" ++
    "Result:\n" ++
    "    Draws one value uniformly from the range every time the\n" ++
    "    expression is evaluated. If min equals max the result is\n" ++
    "    exactly that value; if min is greater than max the draw\n" ++
    "    is invalid. A plain number is returned unchanged.\n" ++
    "\n" ++
    "Examples:\n" ++
    "    sample(uniform(0.55, 0.65))\n" ++
    "    1400~1700 * 0.55~0.65\n"
  | _ => "No help text available for this function."

end Function

end RangeCalc
