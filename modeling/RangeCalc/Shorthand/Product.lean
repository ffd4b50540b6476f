import RangeCalc.Shorthand.Numeral
import RangeCalc.Text.Segment

/-!
# Products without a sign, and percentages

A number, a placeholder or a closing parenthesis directly before an opening parenthesis or a name is a
factor of it.

* `insertProducts`: writes the missing product signs;
* `percent`: `5%` is `(5/100)`;
* `finish`: percentages and products written out, white space squeezed.
-/

namespace RangeCalc.Shorthand

open Text

/-- Whether a text starts with a letter or underscore, given as what it starts with and the rest. -/
def nameStart? : List Char → Option (Char × List Char)
  | c :: rest => if isNameStart c then some (c, rest) else none
  | [] => none

/-- Whether a text starts with the exponent of a literal: `e`, perhaps a sign, and a digit. -/
def startsWithExponent : List Char → Bool
  | e :: rest =>
    (e == 'e' || e == 'E') &&
      match rest with
      | sign :: next :: _ => isDigit sign || ((sign == '+' || sign == '-') && isDigit next)
      | [next] => isDigit next
      | [] => false
  | [] => false

/-- A placeholder: the given stem, digits and two underscores. -/
def placeholder? (stem text : List Char) : Option (List Char × List Char) :=
  if stem.isPrefixOf text then
    match (text.drop stem.length).span isDigit with
    | ([], _) => none
    | (number, '_' :: '_' :: rest) => some (stem ++ number ++ ['_', '_'], rest)
    | _ => none
  else none

/-- A placeholder before an opening parenthesis or a name. -/
def placeholderProduct (stem : List Char) : Finder (List Char) := fun before text => do
  guard (standsAlone before)
  let (name, rest) ← placeholder? stem text
  let rest := skipBlanks rest
  guard (rest.head?.any fun c => c == '(' || isNameStart c)
  return (name ++ ['*'], rest)

/-- A number before an opening parenthesis. -/
def numberParenthesis : Finder (List Char) := fun before text => do
  guard (standsAlone before)
  let (number, rest) ← numeral? text
  let rest ← expect? '(' (skipBlanks rest)
  return (number ++ ['*', '('], rest)

/-- A closing parenthesis before an opening one. -/
def parenthesisParenthesis : Finder (List Char) := fun _ text => do
  let rest ← expect? ')' text
  let rest ← expect? '(' (skipBlanks rest)
  return ([')', '*', '('], rest)

/-- A number before a name that is not its own exponent. -/
def numberName : Finder (List Char) := fun before text => do
  guard (standsAlone before)
  let (number, rest) ← numeral? text
  let rest := skipBlanks rest
  guard !(startsWithExponent rest)
  let (letter, rest) ← nameStart? rest
  return (number ++ ['*', letter], rest)

/-- A closing parenthesis before a name. -/
def parenthesisName : Finder (List Char) := fun _ text => do
  let rest ← expect? ')' text
  let (letter, rest) ← nameStart? (skipBlanks rest)
  return ([')', '*', letter], rest)

/-- All missing product signs; with a stem also those after placeholders. -/
def insertProducts (text : List Char) (stem : Option (List Char)) : List Char :=
  let text :=
    match stem with
    | some stem => replaceEach (placeholderProduct stem) text
    | none => text
  let text := replaceEach numberParenthesis text
  let text := replaceEach parenthesisParenthesis text
  let text := replaceEach numberName text
  replaceEach parenthesisName text

/-- A numeral with a percent sign is that many hundredths. -/
def percent : Finder (List Char) := fun before text => do
  guard (standsAlone before)
  let (number, rest) ← numeral? text
  let rest ← expect? '%' rest
  return ('(' :: number ++ "/100)".toList, rest)

/-- Percentages and products written out, and white space squeezed. -/
def finish (text : List Char) (stem : Option (List Char)) : List Char :=
  squeeze (insertProducts (replaceEach percent text) stem)

example : finish " 2 (3 + 5%)  pi ".toList none = "2*(3 + (5/100))*pi".toList := by decide +kernel

example : insertProducts "2e3 2e log10(2)(3)".toList none = "2e3 2*e log10(2)*(3)".toList := by
  decide +kernel

end RangeCalc.Shorthand
