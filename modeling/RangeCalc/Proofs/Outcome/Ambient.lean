import RangeCalc.Outcome
import RangeCalc.Proofs.Formula.Drawing

/-!
# The ambient random source

A request with a random source of its own is simulated with that. Its bounds are found with the ambient
source, which is asked where the text itself draws beside its ranges.

* `Bounds.drawCount`: how many draws are made for bounds;
* `Bounds.drawsOnlyIf_ofText`: none without ranges, and none if nothing but ranges draws;
* `calculateFrom_ambient`: without such draws the outcome does not depend on the ambient source, and
  nothing but the range that was found without simulation ever does.
-/

namespace RangeCalc

open Runs

variable {α σ : Type}

/-! ## Bounds -/

section

variable [Scalar α]

theorem Tally.drawsOnlyIf_add (f : Formula α) (tally : Tally α) (point : Assignment α) :
    DrawsOnlyIf f.isProbabilistic fun _ source s => Tally.add source f tally point s := by
  simp only [Tally.add]
  split
  · exact .const _
  · refine .bindState (f.drawsOnlyIf_toFinite point.value?) fun result => ?_
    cases result with
    | ok x => exact .const _
    | error e => exact .const _

theorem Tally.drawsOnlyIf_ofPoints (f : Formula α) (points : List (Assignment α)) :
    DrawsOnlyIf f.isProbabilistic fun _ source s => Tally.ofPoints source f points s := by
  have h (tally : Tally α) : DrawsOnlyIf f.isProbabilistic fun σ source (s : σ) =>
      points.foldlM (Tally.add source f) tally s := by
    induction points generalizing tally with
    | nil => exact .const tally
    | cons point rest ih =>
      simp only [List.foldlM_cons]
      exact (Tally.drawsOnlyIf_add f tally point).bindState ih
  exact h ⟨[], 0⟩

/-- Bounds make no draw if there is no range, if the text is no formula, or if the formula has neither
ranges nor draws. -/
theorem Bounds.drawsOnlyIf_ofFormula (text : String) (formula : Except CompileError (Formula α))
    (ranges : List (RangeVar α)) (maxExact : Int) :
    DrawsOnlyIf (!ranges.isEmpty && formula.toOption.any Formula.isProbabilistic)
      fun _ source s => Bounds.ofFormula source text formula ranges maxExact s := by
  simp only [Bounds.ofFormula]
  split
  · exact .const _
  next hranges =>
    cases formula with
    | error e => exact .const _
    | ok f =>
      refine .bindState ((Tally.drawsOnlyIf_ofPoints f _).mono ?_) fun tally => ?_
      · intro h
        simp [hranges, Except.toOption, h]
      · rcases tally.values.reverse with _ | ⟨x, rest⟩ <;> exact .const _

end

section

variable [MathLibrary]

theorem Bounds.drawsOnlyIf_ofText (text : String) (ranges : List (RangeVar Float)) (maxExact : Int) :
    DrawsOnlyIf (!ranges.isEmpty && (compile text).toOption.any Formula.isProbabilistic)
      fun _ source s => Bounds.ofText source text ranges maxExact s :=
  Bounds.drawsOnlyIf_ofFormula text (compile text) ranges maxExact

/-- How many draws are made for the bounds of a text. -/
def Bounds.drawCount (source : Source Float σ) (text : String) (ranges : List (RangeVar Float))
    (maxExact : Int) (s : σ) : Nat :=
  (Bounds.ofText source.counted text ranges maxExact (s, 0)).2.2

/-- Bounds for which no draw is made are those that every source gives in every state. -/
theorem Bounds.ofText_eq_of_drawCount {source : Source Float σ} {text : String}
    {ranges : List (RangeVar Float)} {maxExact : Int} {s : σ}
    (h : drawCount source text ranges maxExact s = 0) (t : σ) :
    ofText source text ranges maxExact t = ((ofText source text ranges maxExact s).1, t) := by
  rcases hrun : ofText source.counted text ranges maxExact (s, 0) with ⟨b, s', n⟩
  rw [drawCount, hrun] at h
  have hsame := ((drawsOnlyIf_ofText text ranges maxExact).1 σ source s 0 hrun).2 h σ source
  simp only [hsame]

theorem Bounds.drawCount_eq_zero (source : Source Float σ) {text : String}
    {ranges : List (RangeVar Float)} (maxExact : Int)
    (h : ranges = [] ∨ ∀ f, compile text = .ok f → f.isProbabilistic = false) (s : σ) :
    drawCount source text ranges maxExact s = 0 := by
  obtain ⟨b, hb⟩ : Steady fun _ source s => ofText source text ranges maxExact s := by
    refine (drawsOnlyIf_ofText text ranges maxExact).2 ?_
    rcases h with rfl | h
    · rfl
    · rcases htext : compile text with e | f
      · exact Bool.and_false _
      · simp [Except.toOption, h f htext]
  simp only [drawCount, hb]

/-! ## Outcomes -/

namespace Outcome

theorem withResults_analytical (outcome : Outcome) (range : AnalyticalRange) (deterministic : Bool)
    (results : List Float) (reason : CalcError Float) (bins : Nat) (percentiles : List Percent) :
    withResults { outcome with analytical := range } deterministic results reason bins percentiles =
      (withResults outcome deterministic results reason bins percentiles).map
        fun o => { o with analytical := range } := by
  cases results with
  | nil => rfl
  | cons first rest =>
    rw [withResults, withResults]
    cases Summary.ofResults deterministic first rest bins percentiles <;> rfl

theorem ofSamples_analytical (outcome : Outcome) (range : AnalyticalRange) (samples : List Float)
    (bins : Nat) (percentiles : List Percent) :
    ofSamples { outcome with analytical := range } samples bins percentiles =
      (ofSamples outcome samples bins percentiles).map fun o => { o with analytical := range } := by
  rw [ofSamples, ofSamples]
  exact withResults_analytical (outcome.excluding samples) range ..

/-- With a state of its own only the bounds come from the ambient state. -/
theorem ofSimulation_own (source : Source Float σ) (outcome : Outcome) (extraction : Extraction)
    (maxExact : Int) (ambient own : σ) (bins : Nat) (percentiles : List Percent) :
    ofSimulation source outcome extraction maxExact ambient (some own) bins percentiles =
      (outcome.ofSamples
          (Simulation.ofText source outcome.normalized outcome.iterations.toNat own).1
          bins percentiles).map fun o =>
        { o with
          analytical := .ofBounds
            (Bounds.ofText source extraction.expression extraction.ranges maxExact ambient).1 } := by
  rw [← ofSamples_analytical]
  rfl

omit [MathLibrary] in
theorem map_analytical_congr {γ : Type} {a b : AnalyticalRange} {view : Outcome → γ}
    (outcome : Except RequestFault Outcome)
    (hview : ∀ o : Outcome, view { o with analytical := a } = view { o with analytical := b }) :
    (outcome.map fun o => { o with analytical := a }).map view =
      (outcome.map fun o => { o with analytical := b }).map view := by
  cases outcome with
  | error fault => rfl
  | ok o => exact congrArg Except.ok (hview o)

end Outcome

/-- The range that was found without simulation, as it depends on the ambient state. -/
def Request.ambientRange (source : Source Float σ) (request : Request σ) (ambient : σ) :
    AnalyticalRange :=
  let extraction := Extraction.ofText request.expression
  .ofBounds (Bounds.ofText source extraction.expression extraction.ranges
    request.settings.maxExactRanges ambient).1

theorem Request.ambientRange_eq {source : Source Float σ} {request : Request σ} {a : σ}
    (h : Bounds.drawCount source (Extraction.ofText request.expression).expression
      (Extraction.ofText request.expression).ranges request.settings.maxExactRanges a = 0) (b : σ) :
    request.ambientRange source b = request.ambientRange source a := by
  rw [ambientRange, ambientRange, Bounds.ofText_eq_of_drawCount h b]

/-- With a state of its own a request has the same outcome from two ambient states, as far as it can be
seen without the range that was found without simulation. -/
theorem calculateFrom_congr {γ : Type} {source : Source Float σ} {seeded : Int → σ}
    {request : Request σ} (hown : (request.own seeded).isSome) {a b : σ} (view : Outcome → γ)
    (hview : ∀ o : Outcome, view { o with analytical := request.ambientRange source a } =
      view { o with analytical := request.ambientRange source b }) :
    (calculateFrom source seeded a request).map view =
      (calculateFrom source seeded b request).map view := by
  obtain ⟨own, hown⟩ := Option.isSome_iff_exists.mp hown
  simp only [calculateFrom, hown, Outcome.ofSimulation_own]
  repeat' split
  · rfl
  · rfl
  · rfl
  · exact Outcome.map_analytical_congr _ hview
  · rfl

/-- With a state of its own a request has an outcome that does not depend on the ambient state, apart from
the range that was found without simulation. That range does not depend on it either if no draw was made
for it, as is the case for a text without ranges and for one in which nothing but its ranges draws. -/
theorem calculateFrom_ambient {source : Source Float σ} {seeded : Int → σ} {request : Request σ}
    (hown : (request.own seeded).isSome) :
    let extraction := Extraction.ofText request.expression
    let drawCount := Bounds.drawCount source extraction.expression extraction.ranges
      request.settings.maxExactRanges
    (∀ a b, (calculateFrom source seeded a request).map (fun o => { o with analytical := {} }) =
      (calculateFrom source seeded b request).map fun o => { o with analytical := {} }) ∧
    (∀ a b, drawCount a = 0 →
      calculateFrom source seeded a request = calculateFrom source seeded b request) ∧
    (extraction.ranges = [] ∨
        (∀ f, compile extraction.expression = .ok f → f.isProbabilistic = false) →
      ∀ a, drawCount a = 0) := by
  refine ⟨fun a b => calculateFrom_congr hown _ fun _ => rfl, fun a b h => ?_, fun h a => ?_⟩
  · have hsame : (calculateFrom source seeded a request).map id =
        (calculateFrom source seeded b request).map id :=
      calculateFrom_congr hown id fun o => by rw [Request.ambientRange_eq h b]
    simpa only [Except.map_id, id] using hsame
  · exact Bounds.drawCount_eq_zero source _ h a

end

/-- A range alone, with a seed in the settings. -/
def seededRange : Request Generator where
  expression := "1~2"
  settings := { seed := some 3 }

theorem seededRange_ambient :
    (seededRange.own Generator.ofSeed).isSome ∧
      ∀ b, calculate (.values #[0.25] 0) seededRange = calculate b seededRange := by
  have hown : (seededRange.own Generator.ofSeed).isSome := rfl
  refine ⟨hown, fun b => ?_⟩
  have hcount : Bounds.drawCount Generator.source (Extraction.ofText seededRange.expression).expression
      (Extraction.ofText seededRange.expression).ranges seededRange.settings.maxExactRanges
      (.values #[0.25] 0) = 0 := by decide +kernel
  exact (calculateFrom_ambient hown).2.1 (.values #[0.25] 0) b hcount

/-- A range beside a draw of the text itself, with a generator of its own. -/
def rangeBesideDraw : Request Generator where
  expression := "1~2 + sample(uniform(0, 1))"
  iterations := some 1
  bins := some 1
  percentiles := some []
  generator := some (.values #[0.5] 0)

/-- The least bound in bits. -/
def Outcome.minBits (outcome : Except RequestFault Outcome) : Option UInt64 :=
  outcome.toOption.map (·.analytical.min.toBits)

/-- The bounds of a text that draws beside its ranges are drawn from the ambient generator, although the
request has a generator of its own. -/
theorem rangeBesideDraw_ambient :
    (rangeBesideDraw.own Generator.ofSeed).isSome ∧
      calculate (.values #[0.25] 0) rangeBesideDraw ≠ calculate (.values #[0.75] 0) rangeBesideDraw ∧
      Bounds.drawCount Generator.source
        (Extraction.ofText rangeBesideDraw.expression).expression
        (Extraction.ofText rangeBesideDraw.expression).ranges
        rangeBesideDraw.settings.maxExactRanges (.values #[0.25] 0) = 2 := by
  refine ⟨rfl, fun h => ?_, by decide +kernel⟩
  have hbits : Outcome.minBits (calculate (.values #[0.25] 0) rangeBesideDraw) ≠
      Outcome.minBits (calculate (.values #[0.75] 0) rangeBesideDraw) := by decide +kernel
  exact hbits (congrArg Outcome.minBits h)

end RangeCalc
