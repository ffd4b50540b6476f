/-!
# Places in a settings file

A settings file is read from a cursor. It knows the line and the column that it stands at, because
indentation says what belongs together.

* `Place`: an index with its line and column;
* `Cursor`: what is left of a text, and the place where that starts;
* `isLineBreak`, `isGapChar`: the characters that end a line, and those that end a word.
-/

namespace RangeCalc

/-- A character that ends a line. -/
def isLineBreak (c : Char) : Bool :=
  c == '\n' || c == '\u0085' || c == '\u2028' || c == '\u2029'

/-- A blank, a tab or the end of a line. -/
def isGapChar (c : Char) : Bool :=
  c == ' ' || c == '\t' || isLineBreak c

/-- Whether a text ends or goes on with a gap. -/
def startsWithGap (cs : List Char) : Bool :=
  cs.head?.all isGapChar

/-- What a line break stands for inside a text. -/
def breakText (c : Char) : Char :=
  if c == '\u2028' || c == '\u2029' then c else '\n'

/-- A text with one character for every way to end a line. -/
def unifyBreaks : List Char → List Char
  | [] => []
  | '\r' :: '\n' :: rest => '\n' :: unifyBreaks rest
  | '\r' :: rest => '\n' :: unifyBreaks rest
  | c :: rest => c :: unifyBreaks rest

/-- A place in a text. Lines and columns are counted from zero. -/
structure Place where
  index : Nat := 0
  line : Nat := 0
  column : Nat := 0
deriving DecidableEq, Repr

/-- The place after a character. A byte order mark takes no column. -/
def Place.after (p : Place) (c : Char) : Place :=
  if isLineBreak c then ⟨p.index + 1, p.line + 1, 0⟩
  else ⟨p.index + 1, p.line, if c == '\ufeff' then p.column else p.column + 1⟩

/-- What is left of a text, and the place where that starts. -/
structure Cursor where
  rest : List Char
  place : Place := {}

namespace Cursor

/-- The character at the cursor. -/
def head? (c : Cursor) : Option Char := c.rest.head?

/-- The column of the cursor. -/
def column (c : Cursor) : Nat := c.place.column

/-- The cursor after the next `n` characters. -/
def skip : Nat → Cursor → Cursor
  | n + 1, ⟨ch :: rest, place⟩ => skip n ⟨rest, place.after ch⟩
  | _, c => c

/-- The characters up to the first one that lacks a property, and the cursor there. -/
def takeWhile (c : Cursor) (p : Char → Bool) : List Char × Cursor :=
  let cs := c.rest.takeWhile p
  (cs, c.skip cs.length)

/-- The line break at the cursor as a text, which is empty if there is none, and the cursor after it. -/
def lineBreak (c : Cursor) : List Char × Cursor :=
  match c.rest with
  | ch :: _ => if isLineBreak ch then ([breakText ch], c.skip 1) else ([], c)
  | [] => ([], c)

/-- Whether a line starts at the cursor with a mark three times, before a gap. -/
def isMarkerOf (c : Cursor) (mark : Char) : Bool :=
  c.column == 0 && c.rest.take 3 == [mark, mark, mark] && startsWithGap (c.rest.drop 3)

/-- Whether the cursor is at a line that starts or ends a document. -/
def isMarker (c : Cursor) : Bool :=
  c.isMarkerOf '-' || c.isMarkerOf '.'

end Cursor

end RangeCalc
