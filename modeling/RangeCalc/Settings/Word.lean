import RangeCalc.Settings.Cursor

/-!
# Words without quotes

A word goes on over blanks and over lines that are indented far enough. A line break between its parts is
a blank, and empty lines are kept as line breaks. A colon before a gap, a remark or the start of a
document ends it, and so do marks inside brackets.

* `Word.read`: the word at a cursor.
-/

namespace RangeCalc

/-- Inside brackets, a mark that ends a key or a value. -/
def isBracketMark (c : Char) : Bool :=
  c == ',' || c == '[' || c == ']' || c == '\x7b' || c == '\x7d'

/-- A word, where the text goes on, and whether the word is followed by a line break. -/
structure Word where
  text : List Char
  after : Cursor
  endsLine : Bool

namespace Word

/-- Whether a colon before these characters ends a word. -/
def colonEnds (inBrackets : Bool) (rest : List Char) : Bool :=
  startsWithGap rest || (inBrackets && rest.head?.any isBracketMark)

/-- The characters of a word up to a gap. -/
def part (inBrackets : Bool) : List Char → List Char
  | [] => []
  | c :: rest =>
    if isGapChar c || (c == ':' && colonEnds inBrackets rest) ||
        (inBrackets && (isBracketMark c || c == '?')) then []
    else c :: part inBrackets rest

/-- The line breaks among blanks and line breaks, and the cursor after all of them. -/
def breaksFrom (place : Place) : List Char → List Char × Cursor
  | [] => ([], ⟨[], place⟩)
  | c :: rest =>
    if c == ' ' then breaksFrom (place.after c) rest
    else if isLineBreak c then
      let (breaks, after) := breaksFrom (place.after c) rest
      (breakText c :: breaks, after)
    else ([], ⟨c :: rest, place⟩)

/-- A first line break and those after it, inside a text: the first stands for a blank, unless others
follow. -/
def foldBreaks : (first : List Char) → (others : List Char) → List Char
  | ['\n'], [] => [' ']
  | ['\n'], others => others
  | first, others => first ++ others

/-- What stands between two parts of a word. -/
structure Gap where
  text : List Char
  after : Cursor
  endsLine : Bool

/-- The gap at a cursor. -/
def gap (c : Cursor) : Gap :=
  let (blanks, after) := c.takeWhile (· == ' ')
  match after.lineBreak with
  | ([], _) => ⟨blanks, after, false⟩
  | (first, next) =>
    let (others, after) := breaksFrom next.place next.rest
    ⟨foldBreaks first others, after, true⟩

/-- Whether a word goes on after a gap. -/
def Gap.joins (inBrackets : Bool) (indentation : Nat) (g : Gap) : Bool :=
  !g.text.isEmpty && g.after.head? != some '#' && !(g.endsLine && g.after.isMarker) &&
    (inBrackets || indentation ≤ g.after.column)

/-- What goes on after a gap, with the text of the gap in front, as long as there is any. -/
def readFrom (inBrackets : Bool) (indentation : Nat) : (fuel : Nat) → Gap → Word
  | 0, g => ⟨[], g.after, g.endsLine⟩
  | fuel + 1, g =>
    match part inBrackets g.after.rest with
    | [] => ⟨[], g.after, g.endsLine⟩
    | cs =>
      let next := gap (g.after.skip cs.length)
      let following :=
        if next.joins inBrackets indentation then readFrom inBrackets indentation fuel next
        else ⟨[], next.after, next.endsLine⟩
      { following with text := g.text ++ cs ++ following.text }

/-- The word at a cursor. Outside brackets its further lines are indented at least as far as given. -/
def read (inBrackets : Bool) (indentation : Nat) (c : Cursor) : Word :=
  readFrom inBrackets indentation c.rest.length ⟨[], c, false⟩

end Word

end RangeCalc
