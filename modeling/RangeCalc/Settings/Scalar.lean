import RangeCalc.Number.Literal
import RangeCalc.Settings.Document
import RangeCalc.Text.Segment

/-!
# Plain words of a settings file

A word without quotes is the value that its form says: nothing, a truth value, a number, a day, a moment, or
else a text.

* `Document.ofWord`: the value of a word;
* `Document.isReserved`: the words that are no values.
-/

namespace RangeCalc.Document

open Text

/-- Words for truth values, in small letters. -/
def flagOfWord? (word : String) : Option Bool :=
  if ["yes", "Yes", "YES", "true", "True", "TRUE", "on", "On", "ON"].contains word then some true
  else if ["no", "No", "NO", "false", "False", "FALSE", "off", "Off", "OFF"].contains word then
    some false
  else none

/-- A digit of a base up to sixteen. -/
def digitIn? (base : Nat) (c : Char) : Option Nat :=
  let n := c.toNat
  let value :=
    if 48 ≤ n ∧ n ≤ 57 then n - 48
    else if 97 ≤ n ∧ n ≤ 102 then n - 87
    else if 65 ≤ n ∧ n ≤ 70 then n - 55
    else base
  if value < base then some value else none

/-- Whether all characters are digits of a base or underscores. -/
def allDigits (base : Nat) (cs : List Char) : Bool :=
  cs.all fun c => c == '_' || (digitIn? base c).isSome

/-- The number that digits of a base denote; underscores are skipped. -/
def natInBase (base : Nat) (cs : List Char) : Nat :=
  cs.foldl (fun n c => match digitIn? base c with
    | some d => base * n + d
    | none => n) 0

/-- A part of a number in base sixty: below sixty, in at most two digits. -/
def isSixtieth : List Char → Bool
  | [a] => isAsciiDigit a
  | [a, b] => 48 ≤ a.toNat && a.toNat ≤ 53 && isAsciiDigit b
  | _ => false

/-- A number that starts with a digit other than zero. -/
def startsCounting : List Char → Bool
  | c :: rest => c != '0' && isAsciiDigit c && allDigits 10 rest
  | [] => false

/-- An integer without its sign: binary, octal, hexadecimal, decimal or in base sixty. -/
def naturalOfWord? : List Char → Option Nat
  | ['0'] => some 0
  | '0' :: 'b' :: digits =>
    if digits.isEmpty || !allDigits 2 digits then none else some (natInBase 2 digits)
  | '0' :: 'x' :: digits =>
    if digits.isEmpty || !allDigits 16 digits then none else some (natInBase 16 digits)
  | '0' :: digits => if allDigits 8 digits then some (natInBase 8 digits) else none
  | cs =>
    if startsCounting cs then some (natInBase 10 cs)
    else
      match splitAtEach ':' cs with
      | first :: second :: rest =>
        if startsCounting first && (second :: rest).all isSixtieth then
          some ((second :: rest).foldl (fun n part => 60 * n + natInBase 10 part) (natInBase 10 first))
        else none
      | _ => none

/-- An exponent with a sign, if there is one. -/
def exponentOfWord? : List Char → Option Int
  | [] => some 0
  | e :: sign :: digits =>
    if (e = 'e' ∨ e = 'E') ∧ (sign = '+' ∨ sign = '-') ∧ digits ≠ [] ∧ digits.all isAsciiDigit then
      let size : Int := natOfDigits digits
      some (if sign = '-' then -size else size)
    else none
  | _ => none

/-- A number with a point, without its sign. Its exponent needs a sign. -/
def fractionOfWord? (cs : List Char) : Option Float :=
  let isPlace (c : Char) := isAsciiDigit c || c == '_'
  let (whole, rest) := cs.span isPlace
  match whole.head?.all isAsciiDigit, rest with
  | true, '.' :: tail =>
    let (places, exponent) := tail.span isPlace
    if whole.isEmpty && !places.head?.any isAsciiDigit then none
    else
      (exponentOfWord? exponent).map fun e =>
        let digits := places.filter isAsciiDigit
        nearestDecimal (natInBase 10 (whole ++ places)) (e - digits.length)
  | _, _ => none

/-- The number of sixtieths, the lowest first. The parts are added from the lowest one up, and each sum
is rounded. -/
def sumOfSixtieths (parts : List Float) : Float :=
  (parts.foldl (fun (sum, base) part => (sum + part * Binary64.ofInt base, 60 * base))
    ((0 : Float), (1 : Int))).1

/-- A number in base sixty with a point, without its sign. -/
def sixtiethsOfWord? (cs : List Char) : Option Float :=
  let (body, tail) := cs.span (· != '.')
  match splitAtEach ':' body, tail with
  | first :: second :: rest, '.' :: places =>
    let parts := second :: rest
    if first.head?.any isAsciiDigit && allDigits 10 first && parts.all isSixtieth &&
        allDigits 10 places then
      let digits := places.filter isAsciiDigit
      let lowest := nearestDecimal (natInBase 10 (parts.getLast?.getD [] ++ digits)) (-digits.length)
      let higher := (first :: parts.dropLast).map fun part => nearestDecimal (natInBase 10 part) 0
      some (sumOfSixtieths (lowest :: higher.reverse))
    else none
  | _, _ => none

/-- A word as a number that is no integer. -/
def decimalOfWord? (cs : List Char) : Option Float :=
  let (negative, body) := splitSign cs
  let isSigned := body.length < cs.length
  let withSign (x : Float) := if negative then -x else x
  if [".inf", ".Inf", ".INF"].contains (String.ofList body) then some (withSign Binary64.infinity)
  else if [".nan", ".NaN", ".NAN"].contains (String.ofList cs) then some Binary64.nan
  else if isSigned && body.head? == some '.' then none
  else (fractionOfWord? body <|> sixtiethsOfWord? body).map withSign

/-- The base of an integer that has underscores in place of digits. -/
def baseWithoutDigits? : List Char → Option Nat
  | '0' :: 'b' :: digits => if digits.all (· == '_') then some 2 else none
  | '0' :: 'x' :: digits => if digits.all (· == '_') then some 16 else none
  | _ => none

/-- Whether a number in base ten has too many digits. -/
def hasTooManyDigits (body : List Char) : Bool :=
  startsCounting body && integerDigits < (body.filter isAsciiDigit).length

/-- A word as an integer. -/
def integerOfWord? (cs : List Char) : Option (Except WordFault Int) :=
  let (negative, body) := splitSign cs
  (naturalOfWord? body).map fun (n : Nat) =>
    match baseWithoutDigits? body with
    | some base => .error (.noDigits base)
    | none =>
      if hasTooManyDigits body then .error (.tooManyDigits (body.filter isAsciiDigit).length)
      else .ok (if negative then -(n : Int) else n)

/-- The word that stands for the entries of another mapping, if it is a key. -/
def mergeWord : List Char := ['<', '<']

/-- A word without a meaning that no value may be. -/
def isReserved (cs : List Char) : Bool :=
  cs == mergeWord || cs == ['=']

/-- The value of a word without quotes. -/
def ofWord (cs : List Char) : Except WordFault Document :=
  let word := String.ofList cs
  if ["", "~", "null", "Null", "NULL"].contains word then .ok null
  else
    match flagOfWord? word, decimalOfWord? cs, integerOfWord? cs with
    | some b, _, _ => .ok (flag b)
    | _, some x, _ => .ok (decimal x)
    | _, _, some n => n.map integer
    | _, _, _ =>
      match Day.ofWord? cs, Moment.ofWord? cs with
      | some d, _ => d.map day
      | _, some m => m.map moment
      | _, _ => .ok (text word)

end RangeCalc.Document
