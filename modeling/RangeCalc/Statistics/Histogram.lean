import RangeCalc.Number.Numeral
import RangeCalc.Statistics.Summary

/-!
# Histograms

The finite numbers among some data are counted in bins of equal width. A bin holds its lower bound and,
unless it is the last, not its upper bound.

* `SigmaZone`: how many deviations a number is away from the mean;
* `Bin`: bounds, count and zone;
* `Grid`: bins of equal width;
* `histogram`: the bins of some data.
-/

namespace RangeCalc

/-- The band of deviations around the mean that a number falls in. -/
inductive SigmaZone where
  | first
  | second
  | third
  | beyond
deriving DecidableEq, Repr

def SigmaZone.name : SigmaZone → String
  | .first => "1"
  | .second => "2"
  | .third => "3"
  | .beyond => "other"

namespace Statistics

variable {α : Type} [Scalar α]

/-- The band of a number, given mean and deviation. -/
def sigmaZone (x center deviation : α) : SigmaZone :=
  if Scalar.isUndefined center || Scalar.isUndefined deviation then .beyond
  else
    let distance := Scalar.abs (x - center)
    if distance ≤ Scalar.ofInt 1 * deviation then .first
    else if distance ≤ Scalar.ofInt 2 * deviation then .second
    else if distance ≤ Scalar.ofInt 3 * deviation then .third
    else .beyond

/-- A part of a histogram: its bounds, how many of all numbers it holds, and the zone of its middle. -/
structure Bin (α : Type) where
  lower : α
  upper : α
  count : Nat
  total : Nat
  zone : SigmaZone

namespace Bin

/-- The middle of two bounds, each halved first so that no sum overflows. -/
def middle (lower upper : α) : α :=
  lower / Scalar.ofInt 2 + upper / Scalar.ofInt 2

def center (b : Bin α) : α := middle b.lower b.upper

/-- The bounds of a bin as they are shown. -/
def label (b : Bin Float) : String :=
  displayText b.lower ++ " ~ " ++ displayText b.upper

/-- The share of all numbers that a bin holds. -/
def probability (b : Bin α) : α := ofCount b.count / ofCount b.total

end Bin

/-- Bins of equal width between two numbers. Numbers are divided by `scale` before they are compared. -/
structure Grid (α : Type) where
  low : α
  high : α
  scale : α
  width : α
  size : Nat

namespace Grid

/-- The grid between the least and the greatest number. Where their difference overflows, it is taken
between their halves. -/
def between? (low high : α) (size : Nat) : Except StatisticsFault (Grid α) := do
  let scale : α := Scalar.ofInt (if Scalar.isFinite (high - low) then 1 else 2)
  let width ← quotient? (high / scale - low / scale) (← ofInt? size)
  return ⟨low, high, scale, width, size⟩

/-- Whether the grid cannot be told from a single bin. -/
def isSingle (g : Grid α) : Bool :=
  !(decide (g.low < g.high)) || decide (g.width ≤ zero)

/-- The bin of a number; the greatest number belongs to the last one. -/
@[inline] def index? (g : Grid α) (x : α) : Except StatisticsFault Nat :=
  if x < g.high then do
    let place ← place? Scalar.floor (← quotient? (x / g.scale - g.low / g.scale) g.width)
    return min place.toNat (g.size - 1)
  else .ok (g.size - 1)

/-- The bound between bin `i` and the one before it. -/
def bound (g : Grid α) (i : Nat) : α :=
  (g.low / g.scale + g.width * ofCount i) * g.scale

/-- The upper bound of a bin; that of the last bin is the greatest number. -/
def upperBound (g : Grid α) (i : Nat) : α :=
  if i = g.size - 1 then g.high else g.bound (i + 1)

/-- How many bins a grid may have at most. -/
def sizeLimit : Nat := 0x7FFFFFFFFFFFFFFF

/-- One more number in its bin. -/
def count? (g : Grid α) (counts : Array Nat) (x : α) : Except StatisticsFault (Array Nat) := do
  return counts.modify (← g.index? x) (· + 1)

/-- How many numbers each bin holds. -/
@[specialize] def counts (g : Grid α) (xs : List α) : Except StatisticsFault (Array Nat) :=
  if sizeLimit < g.size then .error .sizeOverflow
  else xs.foldlM g.count? (Array.replicate g.size 0)

end Grid

/-- The histogram of some finite numbers with at least one bin. -/
@[specialize] def histogramOfFinite (xs : List α) (size : Nat) : Except StatisticsFault (List (Bin α)) :=
  match xs with
  | [] => .ok []
  | first :: rest => do
    let total := xs.length
    let center ← meanOfFinite xs
    let deviation ← deviationOfFinite xs
    let low := Scalar.least first rest
    let high := Scalar.greatest first rest
    let bin (lower upper : α) (count : Nat) : Bin α :=
      ⟨lower, upper, count, total, sigmaZone (Bin.middle lower upper) center deviation⟩
    let grid ← Grid.between? low high size
    if grid.isSingle then return [bin low high total]
    else
      let counts ← grid.counts xs
      return counts.toList.mapIdx fun i count => bin (grid.bound i) (grid.upperBound i) count

/-- Why there is no histogram. -/
inductive HistogramError where
  | binCount (n : Int)
  | statistics (fault : StatisticsFault)
deriving DecidableEq, Repr

def HistogramError.message : HistogramError → String
  | .binCount n => "number of bins must be a positive integer, got " ++ toString n
  | .statistics fault => fault.message

/-- The histogram of some data: no bin without finite numbers, one bin if they are too close together,
else as many as asked for. -/
@[specialize] def histogram (data : List α) (size : Int) : Except HistogramError (List (Bin α)) :=
  if size < 1 then .error (.binCount size)
  else (histogramOfFinite (finite data) size.toNat).mapError .statistics

end Statistics

end RangeCalc
