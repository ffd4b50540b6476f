import RangeCalc.Number.Decimal

/-!
# How numbers are written

Three forms share one decomposition of a decimal into whole part and fraction.

* `numberText`: the fewest digits that read back; positional from `10⁻⁴` to below `10¹⁶`, otherwise
  with an exponent;
* `plainText`: the same digits, always positional, without a needless point;
* `displayText`: two places, thousands grouped, whole numbers without places;
* `percentText`: a fraction as a percentage with two places.
-/

namespace RangeCalc

open Binary64 (isNegative magnitude)

/-- The decimal digits of a natural number. -/
def digitChars (n : Nat) : List Char :=
  Nat.toDigits 10 n

/-- A list without the zeros at its end, but never empty. -/
def dropTrailingZeros (cs : List Char) : List Char :=
  match (cs.reverse.dropWhile (· == '0')).reverse with
  | [] => ['0']
  | kept => kept

/-- The written digits of a decimal, and how many of them stand before the point; the count may be
negative or exceed the digits. -/
structure Numeral where
  digits : List Char
  point : Int

namespace Numeral

def ofDecimal (d : Decimal) : Numeral :=
  let all := digitChars d.digits
  ⟨dropTrailingZeros all, d.exponent + all.length⟩

/-- The digits before the point, at least one. -/
def whole (x : Numeral) : List Char :=
  if x.point ≤ 0 then ['0']
  else
    let places := x.point.toNat
    x.digits.take places ++ List.replicate (places - x.digits.length) '0'

/-- The digits after the point. -/
def fraction (x : Numeral) : List Char :=
  if x.point ≤ 0 then
    if x.digits = ['0'] then [] else List.replicate (-x.point).toNat '0' ++ x.digits
  else x.digits.drop x.point.toNat

/-- Positional, with a point only before digits. -/
def plain (x : Numeral) : List Char :=
  match x.fraction with
  | [] => x.whole
  | places => x.whole ++ '.' :: places

/-- Positional, with at least one digit after the point. -/
def positional (x : Numeral) : List Char :=
  match x.fraction with
  | [] => x.whole ++ ['.', '0']
  | places => x.whole ++ '.' :: places

/-- One digit before the point, and an exponent with a sign and at least two digits. -/
def scientific (x : Numeral) : List Char :=
  let exponent := x.point - 1
  let mantissa :=
    match x.digits with
    | first :: second :: rest => first :: '.' :: second :: rest
    | digits => digits
  let size := digitChars exponent.natAbs
  mantissa ++ 'e' :: (if exponent < 0 then '-' else '+') ::
    (if size.length < 2 then '0' :: size else size)

/-- Positional for leading digits from `10⁻⁴` to `10¹⁵`. -/
def natural (x : Numeral) : List Char :=
  if -4 < x.point ∧ x.point ≤ 16 then x.positional else x.scientific

end Numeral

/-- The shortest numeral of the absolute value of a finite number. -/
def shortestNumeral (x : Float) : Numeral :=
  .ofDecimal (.shortest (magnitude x))

/-- A minus sign before the text of a negative number. -/
def signed (x : Float) (text : List Char) : List Char :=
  if isNegative x then '-' :: text else text

/-- The fewest digits that read back, with an exponent for very large and very small numbers. -/
def numberText (x : Float) : String :=
  if x.isNaN then "nan"
  else if x.isInf then if isNegative x then "-inf" else "inf"
  else String.ofList (signed x (shortestNumeral x).natural)

/-- A decimal literal without an exponent; both zeros are written alike. -/
def plainChars (x : Float) : List Char :=
  if x.isNaN then "NaN".toList
  else if x.isInf then if isNegative x then "-Infinity".toList else "Infinity".toList
  else if magnitude x = 0 then ['0']
  else signed x (shortestNumeral x).plain

def plainText (x : Float) : String :=
  String.ofList (plainChars x)

/-! ## A fixed number of places -/

/-- A comma before each group of three digits, for digits in reverse. -/
def groupReversed : List Char → List Char
  | a :: b :: c :: d :: rest => a :: b :: c :: ',' :: groupReversed (d :: rest)
  | digits => digits

/-- Thousands separated by commas. -/
def groupThousands (digits : List Char) : List Char :=
  (groupReversed digits.reverse).reverse

/-- The absolute value of a finite number in hundredths, ties to even. -/
def hundredths (x : Float) : Nat :=
  Binary64.shiftRoundEven (100 * magnitude x) 1074

/-- The two digits of a number below one hundred. -/
def twoDigits (n : Nat) : List Char :=
  [Nat.digitChar (n / 10 % 10), Nat.digitChar (n % 10)]

/-- Two places and grouped thousands; a whole number of units is written without places. -/
def displayText (x : Float) : String :=
  if x.isNaN then "N/A"
  else if x.isInf then if isNegative x then "-inf" else "inf"
  else
    let total := hundredths x
    let whole := groupThousands (digitChars (total / 100))
    let places := if total % 100 = 0 then [] else '.' :: twoDigits (total % 100)
    String.ofList (signed x (whole ++ places))

/-- A fraction of one as a percentage with two places. -/
def percentText (fraction : Float) : String :=
  let x := fraction * 100
  if x.isNaN then "nan%"
  else if x.isInf then if isNegative x then "-inf%" else "inf%"
  else
    let total := hundredths x
    String.ofList (signed x (digitChars (total / 100) ++ '.' :: twoDigits (total % 100) ++ ['%']))

example : numberText 1e16 = "1e+16" ∧ numberText 123456.5 = "123456.5" ∧ numberText (-0.0) = "-0.0" := by
  decide +kernel

example : plainText 1e-7 = "0.0000001" ∧ plainText 2.5e3 = "2500" ∧ plainText (-0.0) = "0" := by
  decide +kernel

example : displayText 1234567.125 = "1,234,567.12" ∧ displayText 12 = "12" := by decide +kernel

end RangeCalc
