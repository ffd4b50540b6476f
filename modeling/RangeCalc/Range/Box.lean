import RangeCalc.Range.Interval

/-!
# Points of the box that ranges span

* `RangeVar`: a variable with an interval;
* `Assignment`: values for variables;
* `corners`: all choices of one bound for each range;
* `extremes`: all least bounds and all greatest bounds.
-/

namespace RangeCalc

/-- A variable that ranges over an interval. -/
structure RangeVar (α : Type) where
  name : String
  interval : Interval α

/-- Values for variables. -/
abbrev Assignment (α : Type) := List (String × α)

namespace Assignment

variable {α : Type}

/-- Gives a variable a value; a variable that has one already keeps its place. -/
def put (a : Assignment α) (name : String) (x : α) : Assignment α :=
  match a with
  | [] => [(name, x)]
  | (other, y) :: rest => if other = name then (name, x) :: rest else (other, y) :: put rest name x

/-- The values of pairs, of which later ones count. -/
def ofPairs (pairs : List (String × α)) : Assignment α :=
  pairs.foldl (fun a (name, x) => a.put name x) []

/-- The value of a variable. -/
def value? (a : Assignment α) (name : String) : Option α :=
  a.lookup name

end Assignment

variable {α : Type}

/-- The point that takes, for each range, its greatest bound where `choose` says so, else its least. -/
def boundsAt (choose : Nat → Bool) (ranges : List (RangeVar α)) : Assignment α :=
  .ofPairs (ranges.mapIdx fun j r => (r.name, if choose j then r.interval.max else r.interval.min))

/-- The corner with a number, of which bit `j` chooses the greatest bound of range `j`. -/
def corner (ranges : List (RangeVar α)) (i : Nat) : Assignment α :=
  boundsAt i.testBit ranges

/-- All corners, by number; each range doubles them. -/
def corners (ranges : List (RangeVar α)) : List (Assignment α) :=
  (List.range (1 <<< ranges.length)).map (corner ranges)

/-- The corner of all least bounds and the corner of all greatest bounds. -/
def extremes (ranges : List (RangeVar α)) : List (Assignment α) :=
  [boundsAt (fun _ => false) ranges, boundsAt (fun _ => true) ranges]

end RangeCalc
