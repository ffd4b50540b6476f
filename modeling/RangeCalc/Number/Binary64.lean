/-!
# Floating-point numbers as exact integers

Every finite binary64 number is a whole multiple of the least positive one, `2⁻¹⁰⁷⁴`. Counting in
that unit makes sums, comparisons and roundings exact integer arithmetic.

* `magnitude`, `units`: a finite number as a count of units, without and with its sign;
* `ofUnits`: the number nearest to a count of units, ties to even, infinite beyond the largest one;
* `floorInt`, `ceilInt`: the integers around a finite number.
-/

namespace RangeCalc.Binary64

/-- The power `2 ^ n`. -/
def twoTo (n : Nat) : Nat := 1 <<< n

/-- How many units make up one. -/
def one : Nat := twoTo 1074

/-- The bits of an infinity, without the sign. -/
def infinityBits : Nat := 0x7FF0000000000000

/-- The sign bit. -/
def isNegative (x : Float) : Bool :=
  0x8000000000000000 ≤ x.toBits

/-- The bits after the sign bit. -/
def magnitudeBits (x : Float) : Nat :=
  (x.toBits &&& 0x7FFFFFFFFFFFFFFF).toNat

/-- The number of units that bits without a sign stand for: below `2⁵²` the bits themselves, and
from there on each exponent doubles the step. -/
def unitsOfBits (bits : Nat) : Nat :=
  let exponent := bits / twoTo 52
  if exponent = 0 then bits else (twoTo 52 + bits % twoTo 52) <<< (exponent - 1)

/-- The absolute value of a finite number, in units. -/
def magnitude (x : Float) : Nat :=
  unitsOfBits (magnitudeBits x)

/-- A finite number in units. -/
def units (x : Float) : Int :=
  if isNegative x then -(magnitude x : Int) else magnitude x

/-- The quotient `n / 2ˢ` rounded to the nearest integer, ties to even. -/
def shiftRoundEven (n s : Nat) : Nat :=
  let quotient := n >>> s
  let rest := n % twoTo s
  match compare (2 * rest) (twoTo s) with
  | .lt => quotient
  | .gt => quotient + 1
  | .eq => quotient + quotient % 2

/-- The bits, without a sign, of the number nearest to `n` units. A mantissa that rounds up to
`2⁵³` carries into the exponent, and an exponent that is too large gives infinity. -/
def bitsOfUnits (n : Nat) : Nat :=
  if n < twoTo 53 then n
  else
    let shift := n.log2 - 52
    min (shift * twoTo 52 + shiftRoundEven n shift) infinityBits

/-- The number with the given sign and bits. -/
def ofSignBits (negative : Bool) (bits : Nat) : Float :=
  Float.ofBits (UInt64.ofNat (if negative then twoTo 63 + bits else bits))

/-- The number nearest to `n` units. -/
def ofUnits (n : Int) : Float :=
  ofSignBits (n < 0) (bitsOfUnits n.natAbs)

/-- The number nearest to an integer. -/
def ofInt (n : Int) : Float :=
  ofUnits (n * one)

/-- The greatest integer that is not above a finite number. -/
def floorInt (x : Float) : Int :=
  units x / one

/-- The least integer that is not below a finite number. -/
def ceilInt (x : Float) : Int :=
  -(-units x / one)

/-- Whether a finite number is an integer. -/
def isInteger (x : Float) : Bool :=
  magnitude x % one == 0

/-- The number `|x|` with the sign of `sign`. -/
def withSignOf (x sign : Float) : Float :=
  ofSignBits (isNegative sign) (magnitudeBits x)

def infinity : Float := ofSignBits false infinityBits

def nan : Float := 0.0 / 0.0

example : units 1.0 = 2 ^ 1074 ∧ units (-0.5) = -2 ^ 1073 := by decide +kernel

example : (ofUnits (2 ^ 53 + 1)).toBits = (ofUnits (2 ^ 53)).toBits := by decide +kernel

example : (ofInt 3).toBits = (3.0 : Float).toBits ∧ floorInt (-0.5) = -1 ∧ ceilInt 2.5 = 3 := by
  decide +kernel

example : (ofUnits (2 ^ 2098)).toBits = infinity.toBits := by decide +kernel

end RangeCalc.Binary64
