import RangeCalc.Formula.Error
import RangeCalc.Range.Box

/-!
# Bounds of a formula over its ranges

A formula is evaluated at the corners of the box that its ranges span; the least and the greatest finite
value are its bounds. Above a number of ranges only the two extreme corners are tried.

* `Bounds`: least and greatest value, with notes on how they were found;
* `Bounds.ofFormula`: the bounds of a formula;
* `Bounds.ofText`: the bounds of a text.
-/

namespace RangeCalc

/-- What has to be said about bounds. -/
inductive BoundsNote (α : Type) where
  | failed (e : CalcError α)
  /-- The range with this number, counted from one, has an undefined bound. -/
  | invalidRange (number : Nat)
  /-- There are more ranges than the limit for trying all corners. -/
  | approximate (limit : Int)

def BoundsNote.text : BoundsNote Float → String
  | .failed e => e.message
  | .invalidRange number =>
    "range " ++ toString number ++ " has an invalid bound; combinations using it were skipped"
  | .approximate limit =>
    "approximate: with more than " ++ toString limit ++
      " ranges only the all-minimum and all-maximum combinations are evaluated, " ++
      "which does not bound non-monotonic expressions"

/-- The least and the greatest value of a formula, undefined where none was found; `invalid` counts the
points without a finite value. -/
structure Bounds (α : Type) where
  min : α
  max : α
  notes : List (BoundsNote α)
  approximate : Bool
  invalid : Nat

/-- The finite values at some points, the latest first, and how many points have none. -/
structure Tally (α : Type) where
  values : List α
  invalid : Nat

namespace Tally

variable {α σ : Type} [Scalar α]

/-- Counts the value of a formula at one more point. A point with an undefined coordinate is not tried. -/
@[specialize] def add (source : Source α σ) (f : Formula α) (tally : Tally α) (point : Assignment α) :
    StateM σ (Tally α) := do
  if point.any fun (_, x) => Scalar.isUndefined x then
    return { tally with invalid := tally.invalid + 1 }
  else
    match ← (f.toFinite source point.value?).run with
    | .ok x => return { tally with values := x :: tally.values }
    | .error _ => return { tally with invalid := tally.invalid + 1 }

/-- The values of a formula at some points, taken in order. -/
@[specialize] def ofPoints (source : Source α σ) (f : Formula α) (points : List (Assignment α)) :
    StateM σ (Tally α) :=
  points.foldlM (add source f) ⟨[], 0⟩

end Tally

namespace Bounds

variable {α σ : Type} [Scalar α]

/-- Bounds that were not found. -/
def none (notes : List (BoundsNote α)) (approximate : Bool) (invalid : Nat) : Bounds α :=
  ⟨Scalar.undefined, Scalar.undefined, notes, approximate, invalid⟩

/-- Whether both bounds were found. -/
def found (b : Bounds α) : Bool :=
  !(Scalar.isUndefined b.min || Scalar.isUndefined b.max)

/-- The bounds of a formula without ranges: its value. -/
def ofFixed (text : String) (formula : Except CompileError (Formula α)) : Bounds α :=
  let value : Except (CalcError α) α := do
    let x ← (← formula.mapError CalcError.compile).fixedValue text
    if Scalar.isFinite x then return x else throw (.eval (.notFinite x))
  match value with
  | .ok x => ⟨x, x, [], false, 0⟩
  | .error e => none [.failed e] false 1

/-- Notes on the ranges that have an undefined bound. -/
def rangeNotes (ranges : List (RangeVar α)) : List (BoundsNote α) :=
  (ranges.mapIdx fun i r => (i, r.interval.isValid)).filterMap fun (i, valid) =>
    if valid then Option.none else some (.invalidRange (i + 1))

/-- The bounds of a formula over its ranges, of which at most `maxExact` are tried in all combinations.
Draws of the formula itself come from `source`. -/
@[specialize] def ofFormula (source : Source α σ) (text : String)
    (formula : Except CompileError (Formula α)) (ranges : List (RangeVar α)) (maxExact : Int) :
    StateM σ (Bounds α) := do
  if ranges.isEmpty then return ofFixed text formula
  let approximate := decide (maxExact < ranges.length)
  let notes := rangeNotes ranges ++ if approximate then [.approximate maxExact] else []
  let points := if approximate then extremes ranges else corners ranges
  match formula with
  | .error e => return none (.failed (.compile e) :: notes) approximate 0
  | .ok f =>
    let tally ← Tally.ofPoints source f points
    match tally.values.reverse with
    | [] => return none (.failed .noFiniteCorner :: notes) approximate 0
    | x :: rest =>
      return ⟨Scalar.least x rest, Scalar.greatest x rest, notes, approximate, tally.invalid⟩

/-- The bounds of a text over ranges. -/
def ofText [MathLibrary] (source : Source Float σ) (text : String) (ranges : List (RangeVar Float))
    (maxExact : Int) : StateM σ (Bounds Float) :=
  ofFormula source text (compile text) ranges maxExact

/-- The notes as one text, if there are any. -/
def noteText? (b : Bounds Float) : Option String :=
  if b.notes.isEmpty then Option.none
  else some ("; ".intercalate (b.notes.map BoundsNote.text))

end Bounds

end RangeCalc
