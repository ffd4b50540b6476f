import RangeCalc.Settings.Fault
import RangeCalc.Text.DecimalDigit

/-!
# Days and moments

A word can be a day, such as `2001-12-14`, or a moment, such as `2001-12-14 21:59:43.1 +5:30`. Days are those
of the Gregorian calendar in the years 1 to 9999.

* `Day`, `Moment`: the two, with `Day.check` and `Moment.check` for what is a day and a time of a day;
* `Day.ofWord?`, `Moment.ofWord?`: the day or moment that a word stands for;
* `Day.display`, `Moment.display`: how messages show them.
-/

namespace RangeCalc

open Text

/-- A day of a year. -/
structure Day where
  year : Nat
  month : Nat
  day : Nat
deriving DecidableEq, Repr

/-- A time of a day, and how many seconds it is ahead of the universal time, if that is known. -/
structure Moment where
  day : Day
  hour : Nat
  minute : Nat
  second : Nat
  microsecond : Nat
  offset : Option Int
deriving DecidableEq, Repr

/-- How many seconds a day has. -/
def daySeconds : Int := 86400

/-- How messages show a duration in seconds. -/
def durationText (seconds : Int) : String :=
  let days := Int.fdiv seconds daySeconds
  let rest := Int.fmod seconds daySeconds
  let part (name : String) (n : Int) := if n = 0 then [] else [name ++ "=" ++ toString n]
  "datetime.timedelta(" ++ ", ".intercalate (part "days" days ++ part "seconds" rest) ++ ")"

namespace Day

/-- Whether a year has a leap day. -/
def isLeapYear (year : Nat) : Bool :=
  year % 4 == 0 && (year % 100 != 0 || year % 400 == 0)

/-- How many days a month has. -/
def daysInMonth (year month : Nat) : Nat :=
  if month = 2 then if isLeapYear year then 29 else 28
  else if month = 4 ∨ month = 6 ∨ month = 9 ∨ month = 11 then 30
  else 31

/-- Checks that a day is one of the calendar. -/
def check (d : Day) : Except WordFault Unit :=
  if d.year < 1 ∨ 9999 < d.year then .error (.yearOutOfRange d.year)
  else if d.month < 1 ∨ 12 < d.month then .error .monthOutOfRange
  else if d.day < 1 ∨ daysInMonth d.year d.month < d.day then .error .dayOutOfRange
  else .ok ()

/-- How many days a day is after the last one before the year 1. -/
def number (d : Day) : Nat :=
  let years := d.year - 1
  let months := (List.range (d.month - 1)).map fun i => daysInMonth d.year (i + 1)
  365 * years + years / 4 - years / 100 + years / 400 + months.foldl (· + ·) 0 + d.day

/-- How messages show a day. -/
def display (d : Day) : String :=
  "datetime.date(" ++ toString d.year ++ ", " ++ toString d.month ++ ", " ++ toString d.day ++ ")"

end Day

namespace Moment

/-- Checks that a moment is a time of a day of the calendar, less than a day away from the universal
time. -/
def check (m : Moment) : Except WordFault Unit := do
  if let some offset := m.offset then
    if offset ≤ -daySeconds ∨ daySeconds ≤ offset then
      throw (.offsetOutOfRange (durationText offset))
  m.day.check
  if 23 < m.hour then throw .hourOutOfRange
  if 59 < m.minute then throw .minuteOutOfRange
  if 59 < m.second then throw .secondOutOfRange

/-- The microseconds from the first day of the calendar on, in the universal time if the offset is
known. -/
def microseconds (m : Moment) : Int :=
  let seconds : Int := ((m.day.number * 24 + m.hour) * 60 + m.minute) * 60 + m.second
  (seconds - m.offset.getD 0) * 1000000 + m.microsecond

/-- Whether two moments are the same; one with an offset is never the same as one without. -/
def isSame (m n : Moment) : Bool :=
  m.offset.isSome == n.offset.isSome && m.microseconds == n.microseconds

/-- How messages show an offset from the universal time. -/
def offsetText (offset : Int) : String :=
  if offset = 0 then "datetime.timezone.utc"
  else "datetime.timezone(" ++ durationText offset ++ ")"

/-- How messages show a moment: without seconds and fractions of them at its end that are zero. -/
def display (m : Moment) : String :=
  let seconds :=
    if m.microsecond ≠ 0 then [m.second, m.microsecond] else if m.second ≠ 0 then [m.second] else []
  let numbers := [m.day.year, m.day.month, m.day.day, m.hour, m.minute] ++ seconds
  let offset := m.offset.toList.map fun offset => "tzinfo=" ++ offsetText offset
  "datetime.datetime(" ++ ", ".intercalate (numbers.map toString ++ offset) ++ ")"

end Moment

/-! ## Reading -/

namespace Moment

/-- A number of at least `least` and at most `most` digits, and what follows it. -/
def digits? (least most : Nat) (cs : List Char) : Option (Nat × List Char) :=
  let digits := cs.takeWhile isAsciiDigit
  if least ≤ digits.length ∧ digits.length ≤ most then
    some (natOfDigits digits, cs.drop digits.length)
  else none

/-- What follows a mark. -/
def afterMark? (mark : Char) : List Char → Option (List Char)
  | c :: rest => if c = mark then some rest else none
  | [] => none

/-- A day of which the month and the day have at least so many digits, and what follows it. -/
def day? (least : Nat) (cs : List Char) : Option (Day × List Char) := do
  let (year, rest) ← digits? 4 4 cs
  let (month, rest) ← digits? least 2 (← afterMark? '-' rest)
  let (day, rest) ← digits? least 2 (← afterMark? '-' rest)
  return (⟨year, month, day⟩, rest)

/-- What stands before the time of a day: a letter, or blanks. -/
def afterDay? : List Char → Option (List Char)
  | c :: rest =>
    if c = 'T' ∨ c = 't' then some rest
    else if c = ' ' ∨ c = '\t' then some (rest.dropWhile fun c => c = ' ' ∨ c = '\t')
    else none
  | [] => none

/-- The microseconds that the digits after a point stand for, of which the first six count. -/
def microsecondsOf (digits : List Char) : Nat :=
  natOfDigits ((digits ++ List.replicate 6 '0').take 6)

/-- The microseconds after a point, and what follows them. -/
def fraction : List Char → Nat × List Char
  | '.' :: rest => (microsecondsOf (rest.takeWhile isAsciiDigit), rest.dropWhile isAsciiDigit)
  | cs => (0, cs)

/-- An offset from the universal time in seconds: hours, and perhaps minutes. -/
def hoursOffset? (cs : List Char) : Option Int := do
  let (hours, rest) ← digits? 1 2 cs
  if rest.isEmpty then return 3600 * hours
  let (minutes, rest) ← digits? 2 2 (← afterMark? ':' rest)
  if rest.isEmpty then return 3600 * hours + 60 * minutes else none

/-- The offset from the universal time at the end of a word, if there is one. -/
def offset? (cs : List Char) : Option (Option Int) :=
  if cs.isEmpty then some none
  else
    match cs.dropWhile fun c => c = ' ' ∨ c = '\t' with
    | ['Z'] => some (some 0)
    | '+' :: rest => (hoursOffset? rest).map some
    | '-' :: rest => (hoursOffset? rest).map fun offset => some (-offset)
    | _ => none

end Moment

/-- The day that a word stands for, if it has the form of one. -/
def Day.ofWord? (cs : List Char) : Option (Except WordFault Day) :=
  match Moment.day? 2 cs with
  | some (day, []) => some (day.check.map fun _ => day)
  | _ => none

/-- The moment that a word stands for, if it has the form of one. -/
def Moment.ofWord? (cs : List Char) : Option (Except WordFault Moment) := do
  let (day, rest) ← day? 1 cs
  let (hour, rest) ← digits? 1 2 (← afterDay? rest)
  let (minute, rest) ← digits? 2 2 (← afterMark? ':' rest)
  let (second, rest) ← digits? 2 2 (← afterMark? ':' rest)
  let (microsecond, rest) := fraction rest
  let offset ← offset? rest
  let moment : Moment := ⟨day, hour, minute, second, microsecond, offset⟩
  return moment.check.map fun _ => moment

end RangeCalc
