import RangeCalc.Record

/-!
# The report of an outcome

* `Table`: columns of text, aligned to the right;
* `Outcome.report`: the lines shown to the user.
-/

namespace RangeCalc

namespace Table

/-- A text with blanks before it, at least as wide as given. -/
def padLeft (width : Nat) (s : String) : String :=
  String.ofList (List.replicate (width - s.length) ' ') ++ s

/-- The width of the widest cell. -/
def columnWidth (cells : List String) : Nat :=
  (cells.map String.length).foldl max 0

/-- A column, of which all cells have the width of the widest. -/
def column (cells : List String) : List String :=
  cells.map (padLeft (columnWidth cells))

/-- The lines of a table, given its columns with their headings. -/
def lines : List (List String) → List String
  | [] => []
  | [cells] => column cells
  | cells :: rest => (column cells).zipWith (fun a b => a ++ " " ++ b) (lines rest)

end Table

namespace Outcome

/-- The table of a histogram. -/
def histogramLines (bins : List (Statistics.Bin Float)) : List String :=
  Table.lines [
    "label" :: bins.map Statistics.Bin.label,
    "probability" :: bins.map fun b => percentText b.probability,
    "sigma" :: bins.map fun b => b.zone.name]

/-- Two numbers as a range. -/
def rangeLine (heading : String) (low high : Float) : String :=
  heading ++ ": " ++ displayText low ++ " ~ " ++ displayText high

/-- The lines on a simulation. -/
def simulationLines (outcome : Outcome) (summary : Summary) : List String :=
  let analytical := outcome.analytical
  let line (name : String) (x : Float) := name ++ ": " ++ displayText x
  let notes :=
    match analytical.note with
    | some note => if note.isEmpty then [] else ["  Note: " ++ note]
    | none => []
  [rangeLine "Analytical range" analytical.min analytical.max] ++ notes ++
    [rangeLine "Simulated range" summary.min summary.max ++ " (" ++ toString outcome.iterations ++
        " iterations)",
      line "Mean" summary.mean,
      line "Std dev" summary.deviation,
      line "Median" summary.median] ++
    summary.percentiles.map (fun (p, x) => line ("P" ++ displayText p.toFloat) x) ++
    outcome.warnings.map ("Warning: " ++ ·) ++
    [""] ++ histogramLines summary.histogram

/-- The lines of the report. -/
def report (outcome : Outcome) : List String :=
  let normalized :=
    if outcome.normalized.isEmpty || outcome.normalized == outcome.expression then []
    else ["=> " ++ outcome.normalized]
  ["Input: " ++ outcome.expression] ++ normalized ++
    match outcome.summary with
    | .error fault => ["Error: " ++ fault.message]
    | .ok summary =>
      if summary.deterministic then summary.results.take 1 |>.map ("Result: " ++ displayText ·)
      else outcome.simulationLines summary

end Outcome

end RangeCalc
