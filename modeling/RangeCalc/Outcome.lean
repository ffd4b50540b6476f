import RangeCalc.Bounds
import RangeCalc.Random
import RangeCalc.Range.Extraction
import RangeCalc.Range.Normal
import RangeCalc.Settings
import RangeCalc.Simulation
import RangeCalc.Statistics.Histogram

/-!
# A whole calculation

A text without ranges is evaluated once. Otherwise its bounds are found from the ends of its ranges, and
it is simulated.

* `Request`: what is to be calculated, and how;
* `Outcome`: what came of it: a summary of the results, or why there are none;
* `calculateFrom`: the outcome of a request, with draws from any source;
* `calculate`: the outcome of a request with a generator.
-/

namespace RangeCalc

variable {σ : Type}

/-- A text to calculate, perhaps with a state of a random source of its own. What is not given is taken
from the settings; without a state of its own, a seed in the settings gives one. -/
structure Request (σ : Type) where
  expression : String
  iterations : Option Int := none
  bins : Option Int := none
  percentiles : Option (List Percent) := none
  settings : Settings := {}
  generator : Option σ := none

namespace Request

def iterationCount (request : Request σ) : Int :=
  request.iterations.getD request.settings.iterations

def binCount (request : Request σ) : Int :=
  request.bins.getD request.settings.bins

def percents (request : Request σ) : List Percent :=
  request.percentiles.getD request.settings.percentiles

/-- The state of its own that a request comes with, where `seeded` is the state that a seed gives. -/
def own (seeded : Int → σ) (request : Request σ) : Option σ :=
  request.generator <|> request.settings.seed.map seeded

/-- Whether nothing is to be calculated. -/
def isBlank (request : Request σ) : Bool :=
  request.expression.toList.all Text.isBlank

end Request

/-- Why a request gives no outcome at all. -/
inductive RequestFault where
  | iterations (n : Int)
  | bins (n : Int)
  | statistics (fault : StatisticsFault)
deriving DecidableEq, Repr

def RequestFault.message : RequestFault → String
  | .iterations n => Simulation.countFault n
  | .bins n => "bins must be positive, got " ++ toString n
  | .statistics fault => fault.message

/-- Why an outcome has no results. -/
inductive OutcomeFault where
  | emptyExpression
  | failed (e : CalcError Float)

def OutcomeFault.message : OutcomeFault → String
  | .emptyExpression => "empty expression"
  | .failed e => e.message

/-- The finite results and their statistics. -/
structure Summary where
  deterministic : Bool
  results : List Float
  min : Float
  max : Float
  mean : Float
  deviation : Float
  median : Float
  percentiles : List (Percent × Float)
  histogram : List (Statistics.Bin Float)

/-- The range that was found without simulation, undefined if none was. -/
structure AnalyticalRange where
  min : Float := Binary64.nan
  max : Float := Binary64.nan
  note : Option String := none
  approximate : Bool := false

def AnalyticalRange.ofBounds (b : Bounds Float) : AnalyticalRange :=
  ⟨b.min, b.max, b.noteText?, b.approximate⟩

/-- What came of a calculation; `invalid` counts the iterations without a finite result. -/
structure Outcome where
  expression : String
  iterations : Int
  normalized : String := ""
  analytical : AnalyticalRange := {}
  invalid : Nat := 0
  warnings : List String := []
  summary : Except OutcomeFault Summary

section

variable [MathLibrary]

namespace Summary

/-- Adds a percentile; one that equals an earlier one replaces its value only. -/
def putPercentile (p : Percent) (x : Float) : List (Percent × Float) → List (Percent × Float)
  | [] => [(p, x)]
  | (other, y) :: rest =>
    if other.same p then (other, x) :: rest else (other, y) :: putPercentile p x rest

/-- One more percentile of numbers in ascending order. -/
def addPercentile (sorted : Array Float) (done : List (Percent × Float)) (p : Percent) :
    Except StatisticsFault (List (Percent × Float)) := do
  let place ← p.toFloat?
  let x ← Statistics.percentileOfSorted sorted place
  return putPercentile p x done

/-- The summary of some finite results, unless one of their statistics has no value. -/
def ofResults (deterministic : Bool) (first : Float) (rest : List Float) (bins : Nat)
    (percentiles : List Percent) : Except StatisticsFault Summary := do
  let results := first :: rest
  let mean ← Statistics.meanOfFinite results
  let deviation ← Statistics.deviationOfFinite results
  let sorted := (Statistics.ascending results).toArray
  let median ← Statistics.percentileOfSorted sorted 50
  let percentiles ← percentiles.foldlM (addPercentile sorted) []
  let histogram ← Statistics.histogramOfFinite results bins
  return {
    deterministic
    results
    min := Scalar.least first rest
    max := Scalar.greatest first rest
    mean
    deviation
    median
    percentiles
    histogram }

end Summary

namespace Outcome

/-- An outcome without results. -/
def failed (expression : String) (iterations : Int) (fault : OutcomeFault) : Outcome :=
  { expression, iterations, summary := .error fault }

/-- The warning about iterations that were left out. -/
def exclusionWarning (invalid total : Nat) : String :=
  toString invalid ++ " of " ++ toString total ++
    " iterations gave no valid result and were excluded"

/-- An outcome with a summary of results, or with the reason why there are none. -/
def withResults (outcome : Outcome) (deterministic : Bool) (results : List Float)
    (reason : CalcError Float) (bins : Nat) (percentiles : List Percent) :
    Except RequestFault Outcome :=
  match results with
  | [] => .ok { outcome with summary := .error (.failed reason) }
  | first :: rest =>
    ((Summary.ofResults deterministic first rest bins percentiles).mapError .statistics).map
      fun summary => { outcome with summary := .ok summary }

/-- The outcome of a text that draws nothing. -/
def ofFixed (outcome : Outcome) (bins : Nat) (percentiles : List Percent) :
    Except RequestFault Outcome :=
  let value : Except (CalcError Float) Float := do
    let x ← fixedValue outcome.normalized
    if x.isFinite then return x else throw (.eval (.notFinite x))
  match value with
  | .error e => .ok { outcome with summary := .error (.failed e) }
  | .ok x =>
    withResults { outcome with analytical := { min := x, max := x } } true [x] (.eval (.notFinite x))
      bins percentiles

/-- An outcome that leaves out the samples that are not finite, with a warning unless all are. -/
def excluding (outcome : Outcome) (samples : List Float) : Outcome :=
  let valid := (Statistics.finite samples).length
  let invalid := samples.length - valid
  let exclusions :=
    if 0 < invalid ∧ 0 < valid then [exclusionWarning invalid outcome.iterations.toNat] else []
  { outcome with invalid, warnings := outcome.warnings ++ exclusions }

/-- The outcome of a text that draws, given the samples of all its iterations. -/
def ofSamples (outcome : Outcome) (samples : List Float) (bins : Nat) (percentiles : List Percent) :
    Except RequestFault Outcome :=
  withResults (outcome.excluding samples) false (Statistics.finite samples)
    (.noFiniteIteration outcome.iterations.toNat) bins percentiles

/-- The outcome of a text that draws. Bounds take draws of the text itself from the ambient state; so
does the simulation, if the request has no state of its own. -/
def ofSimulation (source : Source Float σ) (outcome : Outcome) (extraction : Extraction)
    (maxExact : Int) (ambient : σ) (own : Option σ) (bins : Nat) (percentiles : List Percent) :
    Except RequestFault Outcome :=
  let (bounds, ambient) :=
    Bounds.ofText source extraction.expression extraction.ranges maxExact ambient
  let (samples, _) :=
    Simulation.ofText source outcome.normalized outcome.iterations.toNat (own.getD ambient)
  ofSamples { outcome with analytical := .ofBounds bounds } samples bins percentiles

/-- What is known of a request before anything is evaluated. -/
def start (request : Request σ) : Outcome :=
  { expression := request.expression
    iterations := request.iterationCount
    normalized := (NormalForm.ofText request.expression).expression
    warnings := (Extraction.ofText request.expression).faults.map RangeFault.message
    summary := .error .emptyExpression }

end Outcome

/-- The outcome of a request. Its draws come from `source`, beginning at the state of its own if it has
one, else at the ambient state. -/
def calculateFrom (source : Source Float σ) (seeded : Int → σ) (ambient : σ) (request : Request σ) :
    Except RequestFault Outcome :=
  let iterations := request.iterationCount
  let bins := request.binCount
  let expression := request.expression
  if iterations < 1 then .error (.iterations iterations)
  else if bins < 1 then .error (.bins bins)
  else if request.isBlank then .ok (.failed expression iterations .emptyExpression)
  else if (NormalForm.ofText expression).isProbabilistic then
    (Outcome.start request).ofSimulation source (Extraction.ofText expression)
      request.settings.maxExactRanges ambient (request.own seeded) bins.toNat request.percents
  else (Outcome.start request).ofFixed bins.toNat request.percents

/-- The outcome of a request with a generator. -/
def calculate (ambient : Generator) (request : Request Generator) : Except RequestFault Outcome :=
  calculateFrom Generator.source Generator.ofSeed ambient request

end

end RangeCalc
