/-!
# The mathematical library

Powers, exponentials, logarithms and angles of floating-point numbers come from a mathematical library,
and the last digits of its results differ from one library to another. Whatever is said of calculations is
said for any library.

* `MathLibrary`: the functions that are taken from a library;
* `platformLibrary`: those of the platform.
-/

namespace RangeCalc

/-- The functions that are taken from a mathematical library. -/
class MathLibrary where
  pow : Float → Float → Float
  exp : Float → Float
  log : Float → Float
  log10 : Float → Float
  sin : Float → Float
  cos : Float → Float
  tan : Float → Float

instance platformLibrary : MathLibrary where
  pow := Float.pow
  exp := Float.exp
  log := Float.log
  log10 := Float.log10
  sin := Float.sin
  cos := Float.cos
  tan := Float.tan

end RangeCalc
