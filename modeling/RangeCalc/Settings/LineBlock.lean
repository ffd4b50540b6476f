import RangeCalc.Settings.Fault

/-!
# Texts as blocks of lines

A text can be written as indented lines below a mark. Below `|` they stay lines. Below `>` they are
folded: single line breaks are blanks, except around lines that are indented further. The mark may be
followed by the number of columns that the lines are indented, and by a sign that says whether line breaks
at the end are all kept or all dropped.

* `LineBlock.read`: the text at a cursor.
-/

namespace RangeCalc.LineBlock

/-- What becomes of the line breaks at the end of a block. -/
inductive Ending where
  | one
  | all
  | none
deriving DecidableEq, Repr

/-- What follows the mark of a block. -/
structure Header where
  ending : Ending
  indentation : Option Nat

/-- The ending that a sign asks for. -/
def ending? : Option Char → Option Ending
  | some '+' => some .all
  | some '-' => some .none
  | _ => none

/-- A number of columns, which is not zero, and the cursor after it. -/
def width (start : Place) (c : Cursor) : Except ReadFault (Option Nat × Cursor) :=
  match c.head? with
  | some ch =>
    if ch == '0' then .error (.lexeme .zeroIndentation start c.place)
    else if 49 ≤ ch.toNat ∧ ch.toNat ≤ 57 then .ok (some (ch.toNat - 48), c.skip 1)
    else .ok (none, c)
  | none => .ok (none, c)

/-- The sign and the number of columns after the mark of a block, in either order. -/
def indicators (start : Place) (c : Cursor) : Except ReadFault (Header × Cursor) :=
  match ending? c.head? with
  | some ending => (width start (c.skip 1)).map fun (columns, after) => (⟨ending, columns⟩, after)
  | none => do
    let (columns, after) ← width start c
    match columns, ending? after.head? with
    | some _, some ending => return (⟨ending, columns⟩, after.skip 1)
    | _, _ => return (⟨.one, columns⟩, after)

/-- What follows the mark of a block, and the cursor at the next line. -/
def header (start : Place) (c : Cursor) : Except ReadFault (Header × Cursor) := do
  let (header, c) ← indicators start c
  unless c.rest.head?.all fun ch => ch == ' ' || isLineBreak ch do
    throw (.lexeme (.badBlockHeader c.head?) start c.place)
  let c := (c.takeWhile (· == ' ')).2
  let c := if c.head? == some '#' then (c.takeWhile fun ch => !isLineBreak ch).2 else c
  unless c.rest.head?.all isLineBreak do
    throw (.lexeme (.blockHeaderGoesOn c.head?) start c.place)
  return (header, c.lineBreak.2)

/-- The line breaks before the first line with a text, how far the lines before it are indented at most,
and the cursor. -/
def leadingBreaks (place : Place) (deepest : Nat) : List Char → List Char × Nat × Cursor
  | [] => ([], deepest, ⟨[], place⟩)
  | c :: rest =>
    let next := place.after c
    if c == ' ' then leadingBreaks next (max deepest next.column) rest
    else if isLineBreak c then
      let (breaks, deepest, after) := leadingBreaks next deepest rest
      (breakText c :: breaks, deepest, after)
    else ([], deepest, ⟨c :: rest, place⟩)

/-- The line breaks before the next line that is indented as far as a block is, and the cursor. -/
def breaksFrom (indentation : Nat) (place : Place) : List Char → List Char × Cursor
  | [] => ([], ⟨[], place⟩)
  | c :: rest =>
    if c == ' ' && place.column < indentation then breaksFrom indentation (place.after c) rest
    else if isLineBreak c then
      let (breaks, after) := breaksFrom indentation (place.after c) rest
      (breakText c :: breaks, after)
    else ([], ⟨c :: rest, place⟩)

/-- A text, the line break after it, the further line breaks, and the cursor after them. -/
structure Lines where
  text : List Char
  lastBreak : List Char
  furtherBreaks : List Char
  after : Cursor

/-- Whether a line of a block starts at a cursor. -/
def startsLine (indentation : Nat) (c : Cursor) : Bool :=
  c.column == indentation && !c.rest.isEmpty

/-- Whether a text starts with a blank. -/
def startsBlank (cs : List Char) : Bool :=
  cs.head?.any fun c => c == ' ' || c == '\t'

/-- The lines of a block from a cursor on, given the line breaks before it. -/
def lines (folded : Bool) (indentation : Nat) : (fuel : Nat) → (breaks : List Char) → Cursor → Lines
  | 0, breaks, c => ⟨[], [], breaks, c⟩
  | fuel + 1, breaks, c =>
    if startsLine indentation c then
      let (line, c) := c.takeWhile fun ch => !isLineBreak ch
      let (lastBreak, c) := c.lineBreak
      let (further, c) := breaksFrom indentation c.place c.rest
      if startsLine indentation c then
        let joins := folded && lastBreak == ['\n'] && !startsBlank line && !startsBlank c.rest
        let joint := if !joins then lastBreak else if further.isEmpty then [' '] else []
        let following := lines folded indentation fuel further c
        { following with text := breaks ++ line ++ joint ++ following.text }
      else ⟨breaks ++ line, lastBreak, further, c⟩
    else ⟨[], [], breaks, c⟩

/-- The text of the block at a cursor, which is at its mark, and the cursor after it. Its lines are
indented at least as far as given. -/
def read (folded : Bool) (least : Nat) (c : Cursor) : Except ReadFault (List Char × Cursor) := do
  let (header, first) ← header c.place (c.skip 1)
  let least := max 1 least
  let (breaks, indentation, first) :=
    match header.indentation with
    | some columns =>
      let indentation := least + columns - 1
      let (breaks, first) := breaksFrom indentation first.place first.rest
      (breaks, indentation, first)
    | none =>
      let (breaks, deepest, first) := leadingBreaks first.place 0 first.rest
      (breaks, max least deepest, first)
  let read := lines folded indentation (first.rest.length + 1) breaks first
  let tail :=
    match header.ending with
    | .none => []
    | .one => read.lastBreak
    | .all => read.lastBreak ++ read.furtherBreaks
  return (read.text ++ tail, read.after)

end RangeCalc.LineBlock
