import RangeCalc.Text.Blank
import RangeCalc.Text.DecimalDigit
import RangeCalc.Text.WordChar

/-!
# Numerals inside shorthand

Shorthand is recognised on plain decimal numerals: digits, and perhaps a point and more digits.
Each recogniser takes the longest numeral at the front of a text and answers with it and the rest.

* `numeral?`, `negatable?`, `signed?`: without a sign, with an optional minus, with either sign;
* `standsAlone`: nothing that belongs to a word or number stands before.
-/

namespace RangeCalc.Shorthand

open Text

/-- Digits, and perhaps a point with digits after it. -/
def numeral? (cs : List Char) : Option (List Char × List Char) :=
  match cs.span isDigit with
  | ([], _) => none
  | (whole, '.' :: rest) =>
    match rest.span isDigit with
    | ([], _) => some (whole, '.' :: rest)
    | (places, after) => some (whole ++ '.' :: places, after)
  | (whole, rest) => some (whole, rest)

/-- A numeral, perhaps with a minus sign. -/
def negatable? : List Char → Option (List Char × List Char)
  | '-' :: rest => (numeral? rest).map fun (digits, after) => ('-' :: digits, after)
  | rest => numeral? rest

/-- A numeral, perhaps with a sign. -/
def signed? : List Char → Option (List Char × List Char)
  | '-' :: rest => (numeral? rest).map fun (digits, after) => ('-' :: digits, after)
  | '+' :: rest => (numeral? rest).map fun (digits, after) => ('+' :: digits, after)
  | rest => numeral? rest

/-- Whether a token may start after these characters, nearest first: not inside a word or number. -/
def standsAlone : List Char → Bool
  | [] => true
  | c :: _ => !(isWordChar c || c == '.')

/-- The text after one given character. -/
def expect? (c : Char) : List Char → Option (List Char)
  | first :: rest => if first = c then some rest else none
  | [] => none

/-- The text after a tilde or a hyphen, and which of them it was. -/
def separator? : List Char → Option (Char × List Char)
  | '~' :: rest => some ('~', rest)
  | '-' :: rest => some ('-', rest)
  | _ => none

end RangeCalc.Shorthand
