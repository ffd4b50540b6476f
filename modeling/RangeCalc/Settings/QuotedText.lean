import RangeCalc.Settings.Fault
import RangeCalc.Settings.Word

/-!
# Texts in quotes

A text in quotes may go on over several lines, which are joined as those of a word are. In single quotes a
doubled quote stands for one; in double quotes a backslash starts an escape.

* `QuotedText.read`: the text in quotes at a cursor.
-/

namespace RangeCalc.QuotedText

/-- The character that an escape letter stands for. -/
def escaped? : Char → Option Char
  | '0' => some '\x00'
  | 'a' => some '\x07'
  | 'b' => some '\x08'
  | 't' => some '\t'
  | '\t' => some '\t'
  | 'n' => some '\n'
  | 'v' => some '\x0b'
  | 'f' => some '\x0c'
  | 'r' => some '\r'
  | 'e' => some '\x1b'
  | ' ' => some ' '
  | '"' => some '"'
  | '\\' => some '\\'
  | '/' => some '/'
  | 'N' => some '\u0085'
  | '_' => some '\u00a0'
  | 'L' => some '\u2028'
  | 'P' => some '\u2029'
  | _ => none

/-- How many hexadecimal digits follow an escape letter. -/
def escapeWidth? : Char → Option Nat
  | 'x' => some 2
  | 'u' => some 4
  | 'U' => some 8
  | _ => none

/-- The value of a hexadecimal digit. -/
def hexDigit? (c : Char) : Option Nat :=
  let k := c.toNat
  if 48 ≤ k ∧ k ≤ 57 then some (k - 48)
  else if 97 ≤ k ∧ k ≤ 102 then some (k - 87)
  else if 65 ≤ k ∧ k ≤ 70 then some (k - 55)
  else none

/-- The value of `width` hexadecimal digits, or the first character that is none. -/
def hexValue (width : Nat) (cs : List Char) : Except (Option Char) Nat :=
  (List.range width).foldlM (fun n i =>
    match cs[i]?.bind hexDigit? with
    | some d => .ok (16 * n + d)
    | none => .error cs[i]?) 0

/-- The line breaks at a cursor, without the blanks around them. No document ends or starts among
them. -/
def breaksFrom (start place : Place) : List Char → Except ReadFault (List Char × Cursor)
  | [] => .ok ([], ⟨[], place⟩)
  | c :: rest =>
    if Cursor.isMarker ⟨c :: rest, place⟩ then .error (.lexeme .markerInQuotes start place)
    else if c == ' ' || c == '\t' then breaksFrom start (place.after c) rest
    else if isLineBreak c then
      (breaksFrom start (place.after c) rest).map fun (breaks, after) =>
        (breakText c :: breaks, after)
    else .ok ([], ⟨c :: rest, place⟩)

/-- What a gap at a cursor stands for, and the cursor after it: blanks for themselves, and line breaks as
between the parts of a word. -/
def gap (start : Place) (c : Cursor) : Except ReadFault (List Char × Cursor) :=
  let (blanks, after) := c.takeWhile fun ch => ch == ' ' || ch == '\t'
  match after.lineBreak with
  | ([], _) => .ok (blanks, after)
  | (first, next) => do
    let (others, after) ← breaksFrom start next.place next.rest
    return (Word.foldBreaks first others, after)

/-- What an escape stands for, and the cursor after it, from the character after the backslash on. A line
break after a backslash joins two lines. -/
def escape (start : Place) (c : Cursor) : Except ReadFault (List Char × Cursor) :=
  match c.rest with
  | [] => .error (.lexeme (.badEscape none) start c.place)
  | letter :: rest =>
    match escaped? letter, escapeWidth? letter with
    | some ch, _ => .ok ([ch], c.skip 1)
    | none, some width =>
      match hexValue width rest with
      | .ok n =>
        if n < 0x110000 then .ok ([Char.ofNat n], c.skip (width + 1))
        else .error (.word .escapeTooLarge)
      | .error found => .error (.lexeme (.badEscapeDigit width found) start (c.skip 1).place)
    | none, none =>
      if isLineBreak letter then breaksFrom start (c.skip 1).place (c.skip 1).rest
      else .error (.lexeme (.badEscape letter) start c.place)

/-- The text up to the closing quote, and the cursor after it. -/
def readFrom (quote : Char) (start : Place) :
    (fuel : Nat) → Cursor → Except ReadFault (List Char × Cursor)
  | 0, c => .error (.lexeme .unclosedQuote start c.place)
  | fuel + 1, c =>
    let goOn (read : List Char × Cursor) : Except ReadFault (List Char × Cursor) :=
      (readFrom quote start fuel read.2).map fun (text, after) => (read.1 ++ text, after)
    match c.rest with
    | [] => .error (.lexeme .unclosedQuote start c.place)
    | ch :: rest =>
      if isGapChar ch then (gap start c).bind goOn
      else if ch == quote then
        if quote == '\'' && rest.head? == some quote then goOn ([quote], c.skip 2)
        else .ok ([], c.skip 1)
      else if quote == '"' && ch == '\\' then (escape start (c.skip 1)).bind goOn
      else goOn ([ch], c.skip 1)

/-- The text in quotes at a cursor, which is at the opening one, and the cursor after it. -/
def read (quote : Char) (c : Cursor) : Except ReadFault (List Char × Cursor) :=
  readFrom quote c.place (c.rest.length + 1) (c.skip 1)

end RangeCalc.QuotedText
