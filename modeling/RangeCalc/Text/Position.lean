/-!
# Places in a text

* `lineAt`, `columnAt`: line and column of a place, both counted from one; only a line feed ends a line;
* `excerptAt`: the surroundings of a place with a mark under it.
-/

namespace RangeCalc.Text

/-- The characters of the line of a place that stand before it. -/
def lineBefore (before : List Char) : List Char :=
  (before.reverse.takeWhile (· != '\n')).reverse

/-- The line of the place that `offset` characters precede. -/
def lineAt (text : List Char) (offset : Nat) : Nat :=
  (text.take offset).count '\n' + 1

/-- The column of the place that `offset` characters precede. -/
def columnAt (text : List Char) (offset : Nat) : Nat :=
  (lineBefore (text.take offset)).length + 1

/-- How many blanks are as wide as a text with tab stops at every eighth column, starting at column
`column`. A carriage return goes back to the first column. -/
def widthFrom (column : Nat) : List Char → Nat
  | [] => 0
  | '\t' :: rest =>
    let step := 8 - column % 8
    step + widthFrom (column + step) rest
  | '\r' :: rest => 1 + widthFrom 0 rest
  | _ :: rest => 1 + widthFrom (column + 1) rest

/-- At most forty characters of the line on either side of a place, and below them a mark. -/
def excerptAt (text : List Char) (offset : Nat) : List Char :=
  let before := lineBefore ((text.take offset).drop (offset - 40))
  let after := ((text.drop offset).take 40).takeWhile (· != '\n')
  before ++ after ++ '\n' :: List.replicate (widthFrom 0 before) ' ' ++ ['^', '\n']

example : lineAt "a\nbc".toList 3 = 2 ∧ columnAt "a\nbc".toList 3 = 2 := by decide +kernel

end RangeCalc.Text
