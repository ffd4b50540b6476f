import RangeCalc.Settings.LineBlock
import RangeCalc.Settings.QuotedText

/-!
# Lexemes of a settings file

A settings file is cut into words, texts and marks. Indentation becomes marks too: a list or a mapping of
lines has a start and an end, and each of its keys has a mark in front. Whether a word or text is a key
shows only at the colon after it, which must stand in the same line.

* `Lexeme`: a word, text or mark with its place;
* `Lexer`: the state in which a text is cut;
* `Lexemes.ofText`: the lexemes of a text, up to its end or a fault.
-/

namespace RangeCalc

/-- What a lexeme is. -/
inductive LexemeKind where
  | documentStart
  | documentEnd
  | textEnd
  /-- The start of a list of lines. -/
  | itemLines
  /-- The start of a mapping of lines. -/
  | keyLines
  /-- The end of a list or a mapping of lines. -/
  | linesEnd
  | listStart
  | listEnd
  | mappingStart
  | mappingEnd
  | comma
  | item
  | key
  | colon
  | reference (name : List Char)
  | anchor (name : List Char)
  | word (text : List Char)
  | text (text : List Char)
deriving DecidableEq, Repr

/-- How a lexeme is called in a fault. -/
def LexemeKind.name : LexemeKind → String
  | documentStart => "<document start>"
  | documentEnd => "<document end>"
  | textEnd => "<stream end>"
  | itemLines => "<block sequence start>"
  | keyLines => "<block mapping start>"
  | linesEnd => "<block end>"
  | listStart => "["
  | listEnd => "]"
  | mappingStart => "\x7b"
  | mappingEnd => "\x7d"
  | comma => ","
  | item => "-"
  | key => "?"
  | colon => ":"
  | reference _ => "<alias>"
  | anchor _ => "<anchor>"
  | word _ => "<scalar>"
  | text _ => "<scalar>"

/-- A lexeme and the place of its first character. -/
structure Lexeme where
  kind : LexemeKind
  place : Place
deriving DecidableEq, Repr

/-- A lexeme that is a key if a colon follows: how many lexemes stand before it, its place, and whether it
can be nothing else, because it starts a line of a mapping. -/
structure PossibleKey where
  position : Nat
  place : Place
  required : Bool

/-- The state in which a text is cut: the lexemes so far, the latest first; the columns of the lists and
mappings of lines around the cursor, the innermost first; whether a key may start; and the possible keys,
of the innermost brackets first and of the lines last. -/
structure Lexer where
  cursor : Cursor
  lexemes : List Lexeme := []
  columns : List Nat := []
  keyAllowed : Bool := true
  keys : List (Option PossibleKey) := [none]

namespace Lexer

/-- Whether the cursor is inside brackets. -/
def inBrackets (s : Lexer) : Bool := 1 < s.keys.length

/-- The column that words must reach on further lines. -/
def indentation (s : Lexer) : Nat := (s.columns.head?.map (· + 1)).getD 0

/-- The possible key of the brackets or lines around the cursor. -/
def possibleKey? (s : Lexer) : Option PossibleKey := s.keys.head?.join

/-- Adds a lexeme, where it starts. -/
def add (s : Lexer) (kind : LexemeKind) (place : Place) : Lexer :=
  { s with lexemes := ⟨kind, place⟩ :: s.lexemes }

/-- Adds a mark of `length` characters that stands at the cursor. -/
def addMark (s : Lexer) (kind : LexemeKind) (length : Nat) : Lexer :=
  { s.add kind s.cursor.place with cursor := s.cursor.skip length }

/-- The fault at the cursor. -/
def fault {α : Type} (s : Lexer) (cause : LexemeFault) : Except ReadFault α :=
  .error (.lexeme cause s.cursor.place s.cursor.place)

/-- Whether a possible key is so no longer: it must end in its line and within 1024 characters. -/
def isStale (s : Lexer) (key : PossibleKey) : Bool :=
  key.place.line != s.cursor.place.line || 1024 < s.cursor.place.index - key.place.index

/-- Drops a possible key, unless it can be nothing else. -/
def drop (s : Lexer) : Option PossibleKey → Except ReadFault (Option PossibleKey)
  | some key =>
    if key.required then .error (.lexeme .keyWithoutColon key.place s.cursor.place) else .ok none
  | none => .ok none

/-- Drops the possible keys that are so no longer. -/
def dropStale (s : Lexer) : Except ReadFault Lexer := do
  let keys ← s.keys.mapM fun key? =>
    if key?.any s.isStale then s.drop key? else .ok key?
  return { s with keys }

/-- Drops the possible key of the brackets or lines around the cursor. -/
def dropKey (s : Lexer) : Except ReadFault Lexer := do
  let key? ← s.drop s.possibleKey?
  return { s with keys := key? :: s.keys.tail }

/-- What starts at the cursor may be a key, if a key may start here. -/
def offerKey (s : Lexer) : Except ReadFault Lexer := do
  if s.keyAllowed then
    let s ← s.dropKey
    let required := !s.inBrackets && s.columns.head? == some s.cursor.column
    return { s with keys := some ⟨s.lexemes.length, s.cursor.place, required⟩ :: s.keys.tail }
  else return s

/-- Ends the lists and mappings of lines that are indented further than a column, or all of them. -/
def closeBeyond (column? : Option Nat) (s : Lexer) : Lexer :=
  if s.inBrackets then s
  else
    let ended := s.columns.takeWhile fun column => column?.all (· < column)
    let ends := List.replicate ended.length ⟨.linesEnd, s.cursor.place⟩
    { s with columns := s.columns.drop ended.length, lexemes := ends ++ s.lexemes }

/-- Whether lines at a column are indented further than those around them. -/
def isDeeper (s : Lexer) (column : Nat) : Bool :=
  s.columns.head?.all (· < column)

/-- Starts a list or a mapping of lines at the cursor, unless the cursor is in one of its lines. -/
def openLines (kind : LexemeKind) (s : Lexer) : Lexer :=
  if !s.inBrackets && s.isDeeper s.cursor.column then
    { s.add kind s.cursor.place with columns := s.cursor.column :: s.columns }
  else s

/-- The line that starts or ends a document. -/
def marker (kind : LexemeKind) (s : Lexer) : Except ReadFault Lexer := do
  let s ← (s.closeBeyond none).dropKey
  return { s.addMark kind 3 with keyAllowed := false }

/-- The start of a list or a mapping in brackets. -/
def openBracket (kind : LexemeKind) (s : Lexer) : Except ReadFault Lexer := do
  let s ← s.offerKey
  let s := s.addMark kind 1
  return { s with keys := none :: s.keys, keyAllowed := true }

/-- The end of a list or a mapping in brackets. -/
def closeBracket (kind : LexemeKind) (s : Lexer) : Except ReadFault Lexer := do
  let s ← s.dropKey
  let s := s.addMark kind 1
  return { s with keys := if s.inBrackets then s.keys.tail else s.keys, keyAllowed := false }

/-- A comma. -/
def comma (s : Lexer) : Except ReadFault Lexer := do
  let s ← s.dropKey
  return { s.addMark .comma 1 with keyAllowed := true }

/-- The hyphen before an item of a list. -/
def item (s : Lexer) : Except ReadFault Lexer := do
  unless s.inBrackets || s.keyAllowed do
    s.fault .itemMisplaced
  let s ← (s.openLines .itemLines).dropKey
  return { s.addMark .item 1 with keyAllowed := true }

/-- The question mark before a key that is no word or text. -/
def key (s : Lexer) : Except ReadFault Lexer := do
  unless s.inBrackets || s.keyAllowed do
    s.fault .keyMisplaced
  let s ← (s.openLines .keyLines).dropKey
  return { s.addMark .key 1 with keyAllowed := !s.inBrackets }

/-- Inserts the mark of a key in front of it, and before that the start of its mapping, unless the key is
on one of its lines. -/
def markKey (s : Lexer) (key : PossibleKey) : Lexer :=
  let start := if !s.inBrackets && s.isDeeper key.place.column then [key.place.column] else []
  let marks := ⟨.key, key.place⟩ :: start.map fun _ => ⟨.keyLines, key.place⟩
  let after := s.lexemes.length - key.position
  { s with
    lexemes := s.lexemes.take after ++ marks ++ s.lexemes.drop after
    columns := start ++ s.columns
    keys := none :: s.keys.tail }

/-- The colon after a key. -/
def colon (s : Lexer) : Except ReadFault Lexer :=
  match s.possibleKey? with
  | some key => .ok { (s.markKey key).addMark .colon 1 with keyAllowed := false }
  | none => do
    unless s.inBrackets || s.keyAllowed do
      s.fault .colonMisplaced
    let s := s.openLines .keyLines
    return { s.addMark .colon 1 with keyAllowed := !s.inBrackets }

/-- Whether a character may be part of the name of an anchor. -/
def isAnchorChar (c : Char) : Bool :=
  let n := c.toNat
  (48 ≤ n && n ≤ 57) || (65 ≤ n && n ≤ 90) || (97 ≤ n && n ≤ 122) || c == '-' || c == '_'

/-- Whether the name of an anchor ends before a text. -/
def endsAnchor (cs : List Char) : Bool :=
  startsWithGap cs || cs.head?.any fun c => "?:,]\x7d%@\x60".toList.contains c

/-- The name of an anchor, or a reference to it. -/
def anchor (cause : Option Char → LexemeFault) (kind : List Char → LexemeKind) (s : Lexer) :
    Except ReadFault Lexer := do
  let s ← s.offerKey
  let start := s.cursor.place
  let (name, after) := (s.cursor.skip 1).takeWhile isAnchorChar
  if name.isEmpty || !endsAnchor after.rest then
    throw (.lexeme (cause after.head?) start after.place)
  return { s.add (kind name) start with cursor := after, keyAllowed := false }

/-- A text as a block of lines. -/
def lineBlock (folded : Bool) (s : Lexer) : Except ReadFault Lexer := do
  let s ← s.dropKey
  let (text, after) ← LineBlock.read folded s.indentation s.cursor
  return { s.add (.text text) s.cursor.place with cursor := after, keyAllowed := true }

/-- A text in quotes. -/
def quoted (quote : Char) (s : Lexer) : Except ReadFault Lexer := do
  let s ← s.offerKey
  let (text, after) ← QuotedText.read quote s.cursor
  return { s.add (.text text) s.cursor.place with cursor := after, keyAllowed := false }

/-- A word. -/
def word (s : Lexer) : Except ReadFault Lexer := do
  let s ← s.offerKey
  let read := Word.read s.inBrackets s.indentation s.cursor
  return { s.add (.word read.text) s.cursor.place with
    cursor := read.after, keyAllowed := read.endsLine }

/-- Whether a word may start at a text. -/
def startsWord (inBrackets : Bool) : List Char → Bool
  | [] => false
  | c :: rest =>
    !(isGapChar c || "-?:,[]\x7b\x7d#&*!|>'\"%@\x60".toList.contains c) ||
      (!startsWithGap rest && (c == '-' || (!inBrackets && (c == '?' || c == ':'))))

/-- The next lexeme, which starts at the cursor. -/
def lexeme (s : Lexer) : Except ReadFault Lexer :=
  match s.cursor.rest with
  | [] => s.fault (.strange none)
  | c :: rest =>
    let marks := s.inBrackets || startsWithGap rest
    if s.cursor.isMarkerOf '-' then s.marker .documentStart
    else if s.cursor.isMarkerOf '.' then s.marker .documentEnd
    else if c == '[' then s.openBracket .listStart
    else if c == '\x7b' then s.openBracket .mappingStart
    else if c == ']' then s.closeBracket .listEnd
    else if c == '\x7d' then s.closeBracket .mappingEnd
    else if c == ',' then s.comma
    else if c == '-' && startsWithGap rest then s.item
    else if c == '?' && marks then s.key
    else if c == ':' && marks then s.colon
    else if c == '*' then s.anchor .badAlias .reference
    else if c == '&' then s.anchor .badAnchor .anchor
    else if c == '|' && !s.inBrackets then s.lineBlock false
    else if c == '>' && !s.inBrackets then s.lineBlock true
    else if c == '\'' || c == '"' then s.quoted c
    else if startsWord s.inBrackets s.cursor.rest then s.word
    else s.fault (.strange c)

/-- The end of the text. -/
def finish (s : Lexer) : Except ReadFault Lexer := do
  let s ← (s.closeBeyond none).dropKey
  return s.add .textEnd s.cursor.place

/-- Skips blanks, remarks and line breaks, of which `inRemark` says whether the cursor is in a remark. A
key may start on a new line outside brackets. -/
def skipGap (s : Lexer) (inRemark : Bool) (place : Place) : List Char → Lexer
  | [] => { s with cursor := ⟨[], place⟩ }
  | c :: rest =>
    if isLineBreak c then
      skipGap { s with keyAllowed := s.keyAllowed || !s.inBrackets } false (place.after c) rest
    else if inRemark || c == ' ' then skipGap s inRemark (place.after c) rest
    else if c == '#' then skipGap s true (place.after c) rest
    else { s with cursor := ⟨c :: rest, place⟩ }

/-- The state after the next lexeme, which is the end of the text if nothing else follows. -/
def next (s : Lexer) : Except ReadFault Lexer := do
  let s ← (s.skipGap false s.cursor.place s.cursor.rest).dropStale
  if s.cursor.rest.isEmpty then s.finish
  else
    let s ← (s.closeBeyond (some s.cursor.column)).lexeme
    s.dropStale

/-- Whether the end of the text has been read. -/
def isFinished (s : Lexer) : Bool :=
  s.lexemes.head?.any fun lexeme => lexeme.kind == .textEnd

/-- How many lexemes can be used before the next one is known: none from the first possible key on. -/
def settled (s : Lexer) : Nat :=
  s.keys.foldl (fun n key? => (key?.map fun key => min n key.position).getD n) s.lexemes.length

end Lexer

/-- Lexemes, and the fault that is met when they are used up. -/
structure Lexemes where
  lexemes : List Lexeme
  fault : ReadFault

namespace Lexemes

/-- The lexemes up to a fault. -/
def upTo (s : Lexer) (fault : ReadFault) : Lexemes :=
  ⟨s.lexemes.reverse.take s.settled, fault⟩

/-- The fault of a text that goes on where it cannot. -/
def pastEnd (s : Lexer) : ReadFault :=
  .lexeme (.strange none) s.cursor.place s.cursor.place

/-- The lexemes from a state on. Each step but the last one reads a character. -/
def ofState : (fuel : Nat) → Lexer → Lexemes
  | 0, s => upTo s (pastEnd s)
  | fuel + 1, s =>
    match s.next with
    | .error fault => upTo s fault
    | .ok s => if s.isFinished then ⟨s.lexemes.reverse, pastEnd s⟩ else ofState fuel s

/-- The lexemes of a text. A byte order mark in front of it is passed over. -/
def ofText (text : List Char) : Lexemes :=
  let start : Cursor := ⟨text, {}⟩
  let start := if start.head? == some '\ufeff' then start.skip 1 else start
  ofState (text.length + 1) { cursor := start }

end Lexemes

end RangeCalc
