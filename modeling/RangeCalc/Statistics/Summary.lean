import RangeCalc.Scalar

/-!
# Mean, deviation and percentiles

Statistics of the finite numbers among some data; all others are left out.

* `StatisticsFault`: why a statistic has no value;
* `finite`: the numbers that count;
* `mean`: the arithmetic mean;
* `standardDeviation`: the deviation of a sample;
* `percentile`: percentiles with linear interpolation between neighbours.
-/

namespace RangeCalc

/-- Why a statistic has no value. -/
inductive StatisticsFault where
  /-- A sum is too large, at its end or on the way. -/
  | sumOverflow
  /-- A square is too large. -/
  | squareOverflow
  | negativeRoot
  | zeroDivision
  /-- An infinite number is taken for an integer. -/
  | infinitePlace
  /-- An undefined number is taken for an integer. -/
  | undefinedPlace
  /-- There is no entry at a place. -/
  | noEntry
  /-- An integer is too large for a number. -/
  | countOverflow
  /-- A list is too long. -/
  | sizeOverflow
deriving DecidableEq, Repr

def StatisticsFault.message : StatisticsFault → String
  | .sumOverflow => "intermediate overflow in fsum"
  | .squareOverflow => "(34, 'Numerical result out of range')"
  | .negativeRoot => "math domain error"
  | .zeroDivision => "float division by zero"
  | .infinitePlace => "cannot convert float infinity to integer"
  | .undefinedPlace => "cannot convert float NaN to integer"
  | .noEntry => "list index out of range"
  | .countOverflow => "int too large to convert to float"
  | .sizeOverflow => "cannot fit 'int' into an index-sized integer"

namespace Statistics

variable {α : Type} [Scalar α]

/-- The numbers that count. -/
def finite (data : List α) : List α :=
  data.filter Scalar.isFinite

def zero : α := Scalar.ofInt 0

def one : α := Scalar.ofInt 1

/-- A count as a number. -/
def ofCount (n : Nat) : α := Scalar.ofInt n

/-- An integer as a number, unless it is too large. -/
def ofInt? (n : Int) : Except StatisticsFault α :=
  let x : α := Scalar.ofInt n
  if Scalar.isFinite x then .ok x else .error .countOverflow

/-- The quotient of two numbers, unless the second is zero. -/
def quotient? (x y : α) : Except StatisticsFault α :=
  if y ≤ zero ∧ zero ≤ y then .error .zeroDivision else .ok (x / y)

/-- An integer near a number. -/
def place? (round : α → Int) (x : α) : Except StatisticsFault Int :=
  if Scalar.isFinite x then .ok (round x)
  else if Scalar.isUndefined x then .error .undefinedPlace
  else .error .infinitePlace

/-- The sum of some numbers, unless it overflows. -/
def sum (xs : List α) : Except StatisticsFault α :=
  match Scalar.sum? xs with
  | some total => .ok total
  | none => .error .sumOverflow

/-- The mean of some finite numbers. If their sum overflows, the numbers are divided before they are
added; that sum may overflow too. -/
@[specialize] def meanOfFinite (xs : List α) : Except StatisticsFault α :=
  if xs.isEmpty then .ok Scalar.undefined
  else do
    let count ← ofInt? xs.length
    match sum xs with
    | .ok total => quotient? total count
    | .error _ => do
      let shares ← xs.mapM fun x => quotient? x count
      sum shares

/-- The mean of some data, undefined without finite numbers. -/
def mean (data : List α) : Except StatisticsFault α :=
  meanOfFinite (finite data)

/-- The greatest absolute value. -/
@[specialize] def magnitude (first : α) (rest : List α) : α :=
  Scalar.greatest (Scalar.abs first) (rest.map Scalar.abs)

/-- The square of a number, unless it is too large. -/
def square? (x : α) : Except StatisticsFault α :=
  match Scalar.power? x (Scalar.ofInt 2) with
  | .ok y => .ok y
  | .error .zeroDivision => .error .zeroDivision
  | .error .overflow => .error .squareOverflow

/-- The square of the deviation of a number from `center`, both in units of `scale`. -/
def scaledSquare? (center scale x : α) : Except StatisticsFault α := do
  let place ← quotient? x scale
  let middle ← quotient? center scale
  square? (place - middle)

/-- The sum of the squared deviations from `center`, all in units of `scale`. -/
@[specialize] def scaledSquares (xs : List α) (center scale : α) : Except StatisticsFault α := do
  let squares ← xs.mapM (scaledSquare? center scale)
  sum squares

/-- The square root of a number that is not negative. -/
def root? (x : α) : Except StatisticsFault α :=
  match Scalar.call? .sqrt [x] with
  | .ok y => .ok y
  | .error _ => .error .negativeRoot

/-- The deviation of a sample of finite numbers: the root of the mean square with one degree of freedom
less than there are numbers. Squares are taken in units of the greatest absolute value, so that they stay
finite. -/
@[specialize] def deviationOfFinite (xs : List α) : Except StatisticsFault α :=
  match xs with
  | [] => .ok zero
  | [_] => .ok zero
  | first :: rest => do
    let center ← meanOfFinite xs
    let scale := magnitude first rest
    if zero < scale then
      let squares ← scaledSquares xs center scale
      let variance ← quotient? squares (ofCount (xs.length - 1))
      return scale * (← root? variance)
    else return zero

/-- The standard deviation of some data, zero for fewer than two finite numbers. -/
def standardDeviation (data : List α) : Except StatisticsFault α :=
  deviationOfFinite (finite data)

/-! ## Percentiles -/

/-- Finite numbers in ascending order. -/
@[specialize] def ascending (xs : List α) : List α :=
  xs.mergeSort fun a b => decide (a ≤ b)

/-- The number at a rank between two neighbours: on the straight line through them. Where their
difference overflows, both are weighted instead. -/
def interpolate (lower upper fraction : α) : α :=
  let delta := upper - lower
  if Scalar.isFinite delta then lower + delta * fraction
  else lower * (one - fraction) + upper * fraction

/-- The item of an array at a place. -/
def item? (xs : Array α) (place : Int) : Except StatisticsFault α :=
  match xs[place.toNat]? with
  | some x => .ok x
  | none => .error .noEntry

/-- A percentile of numbers in ascending order, given as an array. -/
def percentileOfSorted (sorted : Array α) (p : α) : Except StatisticsFault α :=
  if sorted.isEmpty || Scalar.isUndefined p then .ok Scalar.undefined
  else
    let last := sorted.size - 1
    if p ≤ zero then item? sorted 0
    else if Scalar.ofInt 100 ≤ p then item? sorted last
    else do
      let rank := p / Scalar.ofInt 100 * ofCount last
      let lower ← place? Scalar.floor rank
      let upper ← place? Scalar.ceil rank
      let low ← item? sorted lower
      let high ← item? sorted upper
      return interpolate low high (rank - Scalar.ofInt lower)

/-- The number below which `p` percent of the finite numbers among some data lie. -/
def percentile (data : List α) (p : α) : Except StatisticsFault α :=
  percentileOfSorted (ascending (finite data)).toArray p

end Statistics

end RangeCalc
