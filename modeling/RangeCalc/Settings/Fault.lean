import RangeCalc.Settings.Cursor
import RangeCalc.Text.Quoted

/-!
# Faults of a settings file

Why a text is no settings file, and where. A fault shows itself while the text is cut into lexemes, while
lexemes are put together, while names are looked up, or when a value is made.

* `ReadFault`: a fault with its places;
* `ReadFault.message`: what is said about it.
-/

namespace RangeCalc

/-- Why a text cannot be cut into lexemes. A missing character is the end of the text. -/
inductive LexemeFault where
  /-- No lexeme starts with this character. -/
  | strange (found : Option Char)
  | keyWithoutColon
  | itemMisplaced
  | keyMisplaced
  | colonMisplaced
  | badAnchor (found : Option Char)
  | badAlias (found : Option Char)
  | zeroIndentation
  | badBlockHeader (found : Option Char)
  | blockHeaderGoesOn (found : Option Char)
  | badEscapeDigit (width : Nat) (found : Option Char)
  | badEscape (found : Option Char)
  | unclosedQuote
  | markerInQuotes
deriving DecidableEq, Repr

/-- Why lexemes cannot be put together; `found` is how the lexeme is called that does not fit. -/
inductive StructureFault where
  | noDocument (found : String)
  | noLines (found : String)
  | noValue (found : String)
  | listLines (found : String)
  | mappingLines (found : String)
  | listItems (found : String)
  | mappingItems (found : String)
deriving DecidableEq, Repr

/-- Why a name cannot be given or looked up. -/
inductive NameFault where
  | unknownAlias (name : String)
  | repeatedAnchor (name : String)
  | secondDocument
deriving DecidableEq, Repr

/-- Why a value cannot be made. -/
inductive ValueFault where
  | keyNotSimple
  | mergedNotMapping (found : String)
  | mergedNotMappings (found : String)
  | reserved (word : String)
deriving DecidableEq, Repr

/-- Why a word that looks like a number or a date is none. -/
inductive WordFault where
  | noDigits (base : Nat)
  | tooManyDigits (count : Nat)
  | escapeTooLarge
  | yearOutOfRange (year : Nat)
  | monthOutOfRange
  | dayOutOfRange
  | hourOutOfRange
  | minuteOutOfRange
  | secondOutOfRange
  /-- An offset from the universal time is not below a day; `shown` is how it is displayed. -/
  | offsetOutOfRange (shown : String)
deriving DecidableEq, Repr

/-- A fault of a settings file: what is wrong at a place, and for most faults where it started. -/
inductive ReadFault where
  | notPrintable (c : Char) (index : Nat)
  | lexeme (fault : LexemeFault) (start place : Place)
  | structure (fault : StructureFault) (start place : Place)
  | name (fault : NameFault) (start place : Place)
  | value (fault : ValueFault) (start place : Place)
  | word (fault : WordFault)
deriving DecidableEq, Repr

/-- A text in quotes. -/
def quotedString (s : String) : String :=
  String.ofList (Text.quoted s.toList)

/-- A character in quotes; the end of a text is shown as the null character. -/
def quotedChar (found : Option Char) : String :=
  String.ofList (Text.quoted [found.getD '\x00'])

namespace LexemeFault

/-- What was being read. -/
def context? : LexemeFault → Option String
  | strange _ => some "while scanning for the next token"
  | keyWithoutColon => some "while scanning a simple key"
  | itemMisplaced | keyMisplaced | colonMisplaced => none
  | badAnchor _ => some "while scanning an anchor"
  | badAlias _ => some "while scanning an alias"
  | zeroIndentation | badBlockHeader _ | blockHeaderGoesOn _ => some "while scanning a block scalar"
  | badEscapeDigit _ _ | badEscape _ => some "while scanning a double-quoted scalar"
  | unclosedQuote | markerInQuotes => some "while scanning a quoted scalar"

/-- Whether it is said where the reading started. -/
def showsStart : LexemeFault → Bool
  | strange _ => false
  | _ => true

/-- What is wrong. -/
def problem : LexemeFault → String
  | strange found => "found character " ++ quotedChar found ++ " that cannot start any token"
  | keyWithoutColon => "could not find expected ':'"
  | itemMisplaced => "sequence entries are not allowed here"
  | keyMisplaced => "mapping keys are not allowed here"
  | colonMisplaced => "mapping values are not allowed here"
  | badAnchor found | badAlias found =>
    "expected alphabetic or numeric character, but found " ++ quotedChar found
  | zeroIndentation => "expected indentation indicator in the range 1-9, but found 0"
  | badBlockHeader found =>
    "expected chomping or indentation indicators, but found " ++ quotedChar found
  | blockHeaderGoesOn found => "expected a comment or a line break, but found " ++ quotedChar found
  | badEscapeDigit width found =>
    "expected escape sequence of " ++ toString width ++ " hexadecimal numbers, but found " ++
      quotedChar found
  | badEscape found => "found unknown escape character " ++ quotedChar found
  | unclosedQuote => "found unexpected end of stream"
  | markerInQuotes => "found unexpected document separator"

end LexemeFault

namespace StructureFault

/-- What was being put together. -/
def context? : StructureFault → Option String
  | noDocument _ => none
  | noLines _ => some "while parsing a block node"
  | noValue _ => some "while parsing a flow node"
  | listLines _ => some "while parsing a block collection"
  | mappingLines _ => some "while parsing a block mapping"
  | listItems _ => some "while parsing a flow sequence"
  | mappingItems _ => some "while parsing a flow mapping"

/-- What is wrong. -/
def problem : StructureFault → String
  | noDocument found => "expected '<document start>', but found " ++ quotedString found
  | noLines found | noValue found =>
    "expected the node content, but found " ++ quotedString found
  | listLines found | mappingLines found =>
    "expected <block end>, but found " ++ quotedString found
  | listItems found => "expected ',' or ']', but got " ++ quotedString found
  | mappingItems found => "expected ',' or '\x7d', but got " ++ quotedString found

end StructureFault

namespace NameFault

/-- What the fault is about. -/
def context? : NameFault → Option String
  | unknownAlias _ => none
  | repeatedAnchor name =>
    some ("found duplicate anchor " ++ quotedString name ++ "; first occurrence")
  | secondDocument => some "expected a single document in the stream"

/-- What is wrong. -/
def problem : NameFault → String
  | unknownAlias name => "found undefined alias " ++ quotedString name
  | repeatedAnchor _ => "second occurrence"
  | secondDocument => "but found another document"

end NameFault

namespace ValueFault

/-- What was being made. -/
def context? : ValueFault → Option String
  | reserved _ => none
  | _ => some "while constructing a mapping"

/-- What is wrong. -/
def problem : ValueFault → String
  | keyNotSimple => "found unhashable key"
  | mergedNotMapping found => "expected a mapping for merging, but found " ++ found
  | mergedNotMappings found =>
    "expected a mapping or list of mappings for merging, but found " ++ found
  | reserved word => "found the reserved word " ++ quotedString word

end ValueFault

/-- What is wrong with a word. -/
def WordFault.message : WordFault → String
  | noDigits base => "invalid literal for int() with base " ++ toString base ++ ": ''"
  | tooManyDigits count =>
    "Exceeds the limit (4300 digits) for integer string conversion: value has " ++ toString count ++
      " digits; use sys.set_int_max_str_digits() to increase the limit"
  | escapeTooLarge => "chr() arg not in range(0x110000)"
  | yearOutOfRange year => "year " ++ toString year ++ " is out of range"
  | monthOutOfRange => "month must be in 1..12"
  | dayOutOfRange => "day is out of range for month"
  | hourOutOfRange => "hour must be in 0..23"
  | minuteOutOfRange => "minute must be in 0..59"
  | secondOutOfRange => "second must be in 0..59"
  | offsetOutOfRange shown =>
    "offset must be a timedelta strictly between -timedelta(hours=24) and timedelta(hours=24), not " ++
      shown ++ "."

namespace ReadFault

/-- A place in a file with a name, counted from one. -/
def placeText (path : String) (place : Place) : String :=
  "  in \"" ++ path ++ "\", line " ++ toString (place.line + 1) ++ ", column " ++
    toString (place.column + 1)

/-- The lines about a fault at a place. Where the reading started is not said again if it is the same
place. -/
def located (path : String) (context? : Option String) (showsStart : Bool) (problem : String)
    (start place : Place) : String :=
  let isElsewhere := start.line != place.line || start.column != place.column
  let about :=
    match context? with
    | some context =>
      context :: if showsStart && isElsewhere then [placeText path start] else []
    | none => []
  "\n".intercalate (about ++ [problem, placeText path place])

/-- The hexadecimal digits of a number, at least four of them. -/
def hexText (n : Nat) : String :=
  let digits := Nat.toDigits 16 n
  String.ofList (List.replicate (4 - digits.length) '0' ++ digits)

/-- What is said about a fault of a file with a name. -/
def message (path : String) : ReadFault → String
  | notPrintable c index =>
    "unacceptable character #x" ++ hexText c.toNat ++ ": special characters are not allowed\n  in \"" ++
      path ++ "\", position " ++ toString index
  | lexeme f start place => located path f.context? f.showsStart f.problem start place
  | .structure f start place => located path f.context? true f.problem start place
  | name f start place => located path f.context? true f.problem start place
  | value f start place => located path f.context? true f.problem start place
  | word f => f.message

end ReadFault

end RangeCalc
