/-!
# White space

The characters that separate words: the ASCII controls tab to carriage return, the four information
separators, the space, and the spaces and line separators of Unicode. A run of them counts as one
blank.

* `isBlank`: the class;
* `trim`, `squeeze`: text without white space at its ends, and with single spaces inside.
-/

namespace RangeCalc.Text

/-- A character of the bidirectional classes of separators, or a space of any width. -/
def isBlank (c : Char) : Bool :=
  let n := c.toNat
  (9 ≤ n && n ≤ 13) || (28 ≤ n && n ≤ 32) || n == 0x85 || n == 0xA0 || n == 0x1680 ||
    (0x2000 ≤ n && n ≤ 0x200A) || n == 0x2028 || n == 0x2029 || n == 0x202F || n == 0x205F ||
    n == 0x3000

/-- The text after its leading white space. -/
def skipBlanks (cs : List Char) : List Char :=
  cs.dropWhile isBlank

/-- The text without white space at either end. -/
def trim (cs : List Char) : List Char :=
  (skipBlanks (skipBlanks cs).reverse).reverse

/-- Each run of white space becomes one space. -/
def squeezeRuns : List Char → List Char
  | [] => []
  | c :: rest =>
    if isBlank c then
      match squeezeRuns rest with
      | ' ' :: tail => ' ' :: tail
      | tail => ' ' :: tail
    else c :: squeezeRuns rest

/-- Single spaces inside, none at the ends. -/
def squeeze (cs : List Char) : List Char :=
  trim (squeezeRuns cs)

end RangeCalc.Text
