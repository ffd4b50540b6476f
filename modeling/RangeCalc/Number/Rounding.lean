import RangeCalc.Number.Power

/-!
# Rounding to decimal places

* `roundHalfAway`: the nearest multiple of a power of ten, halves away from zero.
-/

namespace RangeCalc.Binary64

/-- Above this bound every number is an integer. -/
def integersFrom : Float := 4503599627370496

/-- A number rounded to some decimal places, negative for tens and hundreds. A number that has no digit
to be rounded stays as it is. -/
def roundHalfAway [MathLibrary] (x : Float) (digits : Int) : Float :=
  if !x.isFinite then x
  else
    let places := ofInt digits
    if places.isInf then x
    else
      match power? 10 places with
      | .error _ => x
      | .ok factor =>
        if factor == 0 then withSignOf 0 x
        else
          let scaled := x.abs * factor
          if integersFrom ≤ scaled then x
          else withSignOf (ofInt (floorInt (scaled + 0.5)) / factor) x

end RangeCalc.Binary64
