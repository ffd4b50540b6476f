import RangeCalc.Number.Binary64
import RangeCalc.Text.Blank
import RangeCalc.Text.DecimalDigit

/-!
# How numbers are read

* `spanLiteral?`: the longest unsigned literal at the front of a text;
* `literalValue`: the number nearest to a literal;
* `readNumber?`, `readInteger?`: a whole text as a number, with sign, padding and digit separators;
* `integerDigits`: how many digits an integer may have.
-/

namespace RangeCalc

open Text

/-- The number nearest to `digits × 10 ^ exponent`. Exponents far outside the range of the format
are answered without computing the power. -/
def nearestDecimal (digits : Nat) (exponent : Int) : Float :=
  if digits = 0 then 0
  else if 400 < exponent then Binary64.infinity
  else if exponent + digits.log2 < -400 then 0
  else Float.ofScientific digits (decide (exponent < 0)) exponent.natAbs

/-! ## Literals -/

/-- An exponent at the front of a text: `e` or `E`, perhaps a sign, and digits. Without digits there
is no exponent. -/
def spanExponent : List Char → List Char × List Char
  | [] => ([], [])
  | e :: rest =>
    if e = 'e' ∨ e = 'E' then
      let (sign, tail) :=
        match rest with
        | '+' :: tail => (['+'], tail)
        | '-' :: tail => (['-'], tail)
        | tail => ([], tail)
      match tail.span isDigit with
      | ([], _) => ([], e :: rest)
      | (digits, after) => (e :: sign ++ digits, after)
    else ([], e :: rest)

/-- Digits with an optional fraction, or a fraction alone. -/
def spanMantissa? (cs : List Char) : Option (List Char × List Char) :=
  match cs.span isDigit with
  | ([], '.' :: rest) =>
    match rest.span isDigit with
    | ([], _) => none
    | (places, after) => some ('.' :: places, after)
  | ([], _) => none
  | (whole, '.' :: rest) =>
    let (places, after) := rest.span isDigit
    some (whole ++ '.' :: places, after)
  | (whole, after) => some (whole, after)

/-- The longest unsigned literal at the front of a text, and the rest. -/
def spanLiteral? (cs : List Char) : Option (List Char × List Char) :=
  (spanMantissa? cs).map fun (mantissa, rest) =>
    let (exponent, after) := spanExponent rest
    (mantissa ++ exponent, after)

/-- The value of an exponent that `spanExponent` recognised. -/
def exponentValue (cs : List Char) : Int :=
  match cs.drop 1 with
  | '-' :: digits => -(natOfDigits digits : Int)
  | '+' :: digits => natOfDigits digits
  | digits => natOfDigits digits

/-- The number nearest to a literal that `spanLiteral?` recognised. -/
def literalValue (cs : List Char) : Float :=
  let (whole, rest) := cs.span isDigit
  let (places, exponent) :=
    match rest with
    | '.' :: tail => tail.span isDigit
    | tail => ([], tail)
  nearestDecimal (natOfDigits (whole ++ places)) (exponentValue exponent - places.length)

/-! ## Whole texts -/

/-- White space that may stand around a number; the information separators may not. -/
def isPadding (c : Char) : Bool :=
  isBlank c && !(28 ≤ c.toNat && c.toNat ≤ 31)

/-- The text between its padding. -/
def trimPadding (cs : List Char) : List Char :=
  ((cs.dropWhile isPadding).reverse.dropWhile isPadding).reverse

/-- Removes single underscores between digits; any other underscore is refused. `before` tells
whether a digit was the last character. -/
def dropSeparators? : (before : Bool) → List Char → Option (List Char)
  | _, [] => some []
  | before, '_' :: rest =>
    match rest with
    | next :: _ => if before && isDigit next then dropSeparators? false rest else none
    | [] => none
  | _, c :: rest => (dropSeparators? (isDigit c) rest).map (c :: ·)

/-- A sign in front of a text, as whether it is negative. -/
def splitSign : List Char → Bool × List Char
  | '-' :: rest => (true, rest)
  | '+' :: rest => (false, rest)
  | rest => (false, rest)

/-- A text as a number: an optional sign before a literal, `inf`, `infinity` or `nan`. -/
def readNumber? (text : List Char) : Option Float := do
  let cs ← dropSeparators? false (trimPadding text)
  let (negative, body) := splitSign cs
  let size ←
    match String.ofList (body.map Char.toLower) with
    | "inf" | "infinity" => some Binary64.infinity
    | "nan" => some Binary64.nan
    | _ =>
      match spanLiteral? body with
      | some (literal, []) => some (literalValue literal)
      | _ => none
  return if negative then -size else size

/-- How many digits an integer may have. -/
def integerDigits : Nat := 4300

/-- A text as an integer: an optional sign before digits, of which there are not too many. -/
def readInteger? (text : List Char) : Option Int := do
  let cs ← dropSeparators? false (trimPadding text)
  let (negative, body) := splitSign cs
  if body.isEmpty || !body.all isDigit || integerDigits < body.length then none
  else
    let size := natOfDigits body
    return if negative then -(size : Int) else size

example : spanLiteral? "2.5e+3x".toList = some ("2.5e+3".toList, ['x']) := by decide +kernel

example : spanLiteral? "1e+".toList = some (['1'], ['e', '+']) := by decide +kernel

example : (literalValue "2.5e3".toList).toBits = (2500.0 : Float).toBits := by decide +kernel

example : readInteger? "-1_000".toList = some (-1000) ∧ readInteger? "1__0".toList = none := by
  decide +kernel

end RangeCalc
