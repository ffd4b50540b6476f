/-!
# Finding and replacing occurrences

A text is read once from left to right. At each place that no earlier occurrence covers, a finder may
recognise an occurrence; it sees the characters before that place, nearest first, and the text from
there on.

* `segments`: the occurrences and the characters between them;
* `replaceEach`: the text with each occurrence replaced;
* `splitAtEach`: the parts of a text between the occurrences of a character.
-/

namespace RangeCalc.Text

/-- A character that belongs to no occurrence, or an occurrence. -/
inductive Segment (α : Type) where
  | char (c : Char)
  | found (a : α)

/-- Recognises an occurrence at a place, given what stands before it, nearest first, and the text
from there on. Answers with what was found and the text after it. -/
abbrev Finder (α : Type) := List Char → List Char → Option (α × List Char)

/-- The segments of a text, of which the first `skip` characters belong to an occurrence already
found. An occurrence covers at least one character. -/
def segmentsFrom {α : Type} (find : Finder α) :
    (before : List Char) → (skip : Nat) → List Char → List (Segment α)
  | _, _, [] => []
  | before, skip + 1, c :: rest => segmentsFrom find (c :: before) skip rest
  | before, 0, c :: rest =>
    match find before (c :: rest) with
    | some (a, after) => .found a :: segmentsFrom find (c :: before) (rest.length - after.length) rest
    | none => .char c :: segmentsFrom find (c :: before) 0 rest

/-- The occurrences in a text and the characters between them, in order. -/
def segments {α : Type} (find : Finder α) (text : List Char) : List (Segment α) :=
  segmentsFrom find [] 0 text

/-- The text that replaces a segment, where an occurrence is its own replacement. -/
def Segment.text : Segment (List Char) → List Char
  | .char c => [c]
  | .found replacement => replacement

/-- The text with each occurrence replaced. -/
def replaceEach (rule : Finder (List Char)) (text : List Char) : List Char :=
  (segments rule text).flatMap Segment.text

/-- The occurrences alone. -/
def Segment.found? {α : Type} : Segment α → Option α
  | .char _ => none
  | .found a => some a

/-- All occurrences in a text, in order. -/
def occurrences {α : Type} (find : Finder α) (text : List Char) : List α :=
  (segments find text).filterMap Segment.found?

/-- Whether a text contains another. -/
def occursIn (part : List Char) : List Char → Bool
  | [] => part.isEmpty
  | c :: rest => part.isPrefixOf (c :: rest) || occursIn part rest

/-- The parts of a text between the occurrences of a character, of which there is at least one. -/
def splitAtEach (mark : Char) : List Char → List (List Char)
  | [] => [[]]
  | c :: rest =>
    if c = mark then [] :: splitAtEach mark rest
    else
      match splitAtEach mark rest with
      | first :: others => (c :: first) :: others
      | [] => [[c]]

@[simp]
theorem segmentsFrom_nil {α : Type} (find : Finder α) (before : List Char) (skip : Nat) :
    segmentsFrom find before skip [] = [] := by
  cases skip <;> rfl

@[simp]
theorem replaceEach_nil (rule : Finder (List Char)) : replaceEach rule [] = [] := rfl

end RangeCalc.Text
