import RangeCalc.Record

/-!
# The chart of an outcome

The histogram as bars, coloured by zone, with lines for mean, median and deviations.

* `Chart`: the content of a chart;
* `Outcome.chart`: the chart of an outcome;
* `Chart.page`: a chart as a page.
-/

namespace RangeCalc

/-- A bar of a chart. -/
structure Bar where
  center : Float
  height : Float
  width : Float
  color : String
  label : String

/-- A vertical line with a style and a text. -/
structure Marker where
  place : Float
  style : String
  label : String

/-- A title, bars and vertical lines. -/
structure Chart where
  title : String
  bars : List Bar
  markers : List Marker

/-- The colour of the bars in a zone. -/
def SigmaZone.color : SigmaZone → String
  | .first => "hsl(180, 70%, 50%)"
  | .second => "hsl(120, 60%, 50%)"
  | .third => "hsl(55, 85%, 50%)"
  | .beyond => "hsl(0, 0%, 65%)"

/-- The bar of a bin. A bin without width is drawn one unit wide. -/
def Bar.ofBin (b : Statistics.Bin Float) : Bar :=
  let width := b.upper - b.lower
  ⟨b.center, b.probability, if width == 0 then 1 else width, b.zone.color, b.label⟩

/-- The lines at one, two and three deviations from the mean, if there is a deviation. -/
def Marker.deviations (mean deviation : Float) : List Marker :=
  if 0 < deviation then
    [-1, 1, -2, 2, -3, 3].map fun (k : Int) =>
      ⟨mean + Binary64.ofInt k * deviation, "dot",
        (if 0 < k then "+" else "") ++ toString k ++ "σ"⟩
  else []

/-- The chart of an outcome. Lines at places that are not finite are left out. -/
def Outcome.chart (outcome : Outcome) (title : String) : Chart :=
  let mean := outcome.statistic (·.mean)
  let median := outcome.statistic (·.median)
  let markers : List Marker :=
    ⟨mean, "solid", "mean " ++ displayText mean⟩ ::
      ⟨median, "dash", "median " ++ displayText median⟩ ::
      Marker.deviations mean (outcome.statistic (·.deviation))
  { title
    bars := (outcome.listed (·.histogram)).map Bar.ofBin
    markers := markers.filter (·.place.isFinite) }

namespace Chart

/-- The title of a chart without a title of its own. -/
def defaultTitle : String := "Outcome Distribution"

/-! ## Pages -/

/-- A text in which no character is taken for markup. -/
def markupText (s : String) : String :=
  String.ofList (s.toList.flatMap fun c =>
    if c = '<' then "&lt;".toList
    else if c = '>' then "&gt;".toList
    else if c = '&' then "&amp;".toList
    else [c])

/-- A row of a page: the label of a bar, the bar itself, and its height. -/
def barRow (b : Bar) : String :=
  "<tr><td>" ++ b.label ++ "</td><td><div style=\"height:1em;background:" ++ b.color ++ ";width:" ++
    numberText (b.height * 600) ++ "px\"></div></td><td>" ++ percentText b.height ++ "</td></tr>\n"

/-- A chart as a page: the bars from top to bottom, and below them the lines. -/
def page (c : Chart) : String :=
  "<!DOCTYPE html>\n<html><head><meta charset=\"utf-8\"><title>" ++ markupText c.title ++
    "</title></head><body>\n<h1>" ++ markupText c.title ++ "</h1>\n<table>\n" ++
    String.join (c.bars.map barRow) ++ "</table>\n<ul>\n" ++
    String.join (c.markers.map fun m => "<li>" ++ m.label ++ ": " ++ numberText m.place ++ "</li>\n") ++
    "</ul>\n</body></html>\n"

end Chart

end RangeCalc
