import RangeCalc.Proofs.Outcome.Complete
import RangeCalc.Proofs.Statistics.Histogram
import RangeCalc.Proofs.Statistics.Percentile

/-!
# Requests that have an outcome

What cannot be evaluated is said in the outcome, so a request is left without one only by the statistics of
its results. Of these the mean alone may have no value, where both of its sums overflow.

* `Request.results`: what the statistics of a request are taken of;
* `Request.Reasonable`: a request whose counts and percentiles are numbers;
* `Summary.ofResults_cases`: results have a summary if they have a mean;
* `calculateFrom_isOk_iff`: a reasonable request has an outcome unless both sums of a mean overflow.
-/

namespace RangeCalc

open Binary64 Statistics

variable {σ : Type}

/-- The finite results of a request, in order. -/
def Request.results [MathLibrary] (source : Source Float σ) (seeded : Int → σ) (ambient : σ)
    (request : Request σ) : List Float :=
  let form := NormalForm.ofText request.expression
  if request.isBlank then []
  else if form.isProbabilistic then finite (request.samples source seeded ambient)
  else finite (fixedValue form.expression).toOption.toList

/-- A request with counts that are numbers and percentiles that are. -/
structure Request.Reasonable [MathLibrary] (request : Request σ) : Prop where
  iterations : 1 ≤ request.iterationCount ∧ request.iterationCount ≤ 2 ^ 53
  bins : 1 ≤ request.binCount ∧ request.binCount ≤ Grid.sizeLimit
  percents : ∀ p ∈ request.percents, ∃ x, p.toFloat? = .ok x

/-- A percentile that is a whole number. -/
theorem Percent.toFloat?_whole [MathLibrary] {n : Int} (h : (Binary64.ofInt n).isFinite = true) :
    (Percent.whole n).toFloat? = .ok (Binary64.ofInt n) :=
  if_pos h

section

variable [MathLibrary] {first : Float} {rest : List Float} {bins : Nat} {percentiles : List Percent}

/-! ## Summaries -/

theorem Summary.addPercentile_isOk {sorted : Array Float} (hsize : sorted.size ≤ 2 ^ 53)
    (done : List (Percent × Float)) {p : Percent} (hp : ∃ x, p.toFloat? = .ok x) :
    ∃ next, addPercentile sorted done p = .ok next := by
  obtain ⟨place, hplace⟩ := hp
  obtain ⟨x, hx⟩ := percentileOfSorted_isOk hsize place
  exact ⟨putPercentile p x done, by rw [addPercentile, bind_ok hplace, bind_ok hx]; rfl⟩

/-- Results have a summary if they have a mean. -/
theorem Summary.ofResults_isOk (hsquares : MathLibrary.SquaresBounded)
    (hfinite : ∀ x ∈ first :: rest, x.isFinite = true) (hlength : (first :: rest).length ≤ 2 ^ 53)
    (hmean : ∃ center, meanOfFinite (first :: rest) = .ok center)
    (hbins : 1 ≤ bins ∧ bins ≤ Grid.sizeLimit) (hpercents : ∀ p ∈ percentiles, ∃ x, p.toFloat? = .ok x)
    (deterministic : Bool) :
    ∃ summary, ofResults deterministic first rest bins percentiles = .ok summary := by
  obtain ⟨deviation, hdeviation⟩ := deviationOfFinite_isOk hsquares hfinite hlength hmean
  obtain ⟨histogram, hhistogram⟩ := histogramOfFinite_isOk hsquares hfinite hlength hmean hbins
  have hsize : (ascending (first :: rest)).toArray.size ≤ 2 ^ 53 := by
    rw [List.size_toArray, ascending, List.length_mergeSort]
    exact hlength
  obtain ⟨median, hmedian⟩ := percentileOfSorted_isOk hsize 50
  obtain ⟨entries, hentries⟩ : ∃ entries,
      percentiles.foldlM (addPercentile (ascending (first :: rest)).toArray) [] = .ok entries :=
    foldlM_ok [] fun done p hp => addPercentile_isOk hsize done (hpercents p hp)
  obtain ⟨center, hmean⟩ := hmean
  dsimp only [ofResults]
  rw [bind_ok hmean, bind_ok hdeviation, bind_ok hmedian, bind_ok hentries, bind_ok hhistogram]
  exact ⟨_, rfl⟩

/-- A summary has no value exactly if the mean has none. -/
theorem Summary.ofResults_cases (hsquares : MathLibrary.SquaresBounded)
    (hfinite : ∀ x ∈ first :: rest, x.isFinite = true) (hlength : (first :: rest).length ≤ 2 ^ 53)
    (hbins : 1 ≤ bins ∧ bins ≤ Grid.sizeLimit) (hpercents : ∀ p ∈ percentiles, ∃ x, p.toFloat? = .ok x)
    (deterministic : Bool) :
    ((∃ center, meanOfFinite (first :: rest) = .ok center) ∧
        ∃ summary, ofResults deterministic first rest bins percentiles = .ok summary) ∨
      ((¬ ∃ center, meanOfFinite (first :: rest) = .ok center) ∧
        ofResults deterministic first rest bins percentiles = .error .sumOverflow) := by
  rcases hmean : meanOfFinite (first :: rest) with fault | center
  · right
    obtain rfl := meanOfFinite_error (List.cons_ne_nil first rest) hlength hmean
    refine ⟨nofun, ?_⟩
    dsimp only [ofResults]
    rw [hmean]
    rfl
  · exact .inl ⟨⟨center, rfl⟩,
      ofResults_isOk hsquares hfinite hlength ⟨center, hmean⟩ hbins hpercents deterministic⟩

namespace Outcome

/-- Finite results have an outcome exactly if they have a mean. -/
theorem withResults_cases (hsquares : MathLibrary.SquaresBounded) (outcome : Outcome)
    (deterministic : Bool) {results : List Float} (hfinite : ∀ x ∈ results, x.isFinite = true)
    (hlength : results.length ≤ 2 ^ 53) (reason : CalcError Float)
    (hbins : 1 ≤ bins ∧ bins ≤ Grid.sizeLimit)
    (hpercents : ∀ p ∈ percentiles, ∃ x, p.toFloat? = .ok x) :
    ((∃ center, meanOfFinite results = .ok center) ∧
        ∃ o, withResults outcome deterministic results reason bins percentiles = .ok o) ∨
      ((¬ ∃ center, meanOfFinite results = .ok center) ∧
        withResults outcome deterministic results reason bins percentiles =
          .error (.statistics .sumOverflow)) := by
  cases results with
  | nil => exact .inl ⟨⟨_, rfl⟩, _, rfl⟩
  | cons first rest =>
    rw [withResults]
    obtain ⟨hmean, summary, hsummary⟩ | ⟨hmean, hsummary⟩ :=
      Summary.ofResults_cases hsquares hfinite hlength hbins hpercents deterministic
    · refine .inl ⟨hmean, { outcome with summary := .ok summary }, ?_⟩
      rw [hsummary]
      rfl
    · refine .inr ⟨hmean, ?_⟩
      rw [hsummary]
      rfl

/-- A text that draws nothing has an outcome like one with the finite results of its evaluation. -/
theorem ofFixed_eq (outcome : Outcome) (bins : Nat) (percentiles : List Percent) :
    ∃ (start : Outcome) (reason : CalcError Float), ofFixed outcome bins percentiles =
      withResults start true (finite (fixedValue outcome.normalized).toOption.toList) reason bins
        percentiles := by
  dsimp only [ofFixed]
  rcases fixedValue outcome.normalized with e | x
  · exact ⟨outcome, e, rfl⟩
  have hfinite : finite (Except.ok x : Except (CalcError Float) Float).toOption.toList =
      if x.isFinite then [x] else [] := by
    rw [finite, Except.toOption, Option.toList_some, List.filter_cons, List.filter_nil]
    rfl
  rw [hfinite, bind_ok rfl]
  rcases x.isFinite
  · exact ⟨outcome, .eval (.notFinite x), rfl⟩
  · exact ⟨{ outcome with analytical := { min := x, max := x } }, .eval (.notFinite x), rfl⟩

end Outcome

/-! ## Requests -/

/-- Numbers that are not among the three largest ones have a mean. -/
theorem mean_isOk_of_abs_le {results : List Float} (hfinite : ∀ x ∈ results, x.isFinite = true)
    (hlength : results.length ≤ 2 ^ 53) (hle : ∀ x ∈ results, x.abs ≤ 1.7976931348623151e308) :
    ∃ center, meanOfFinite results = .ok center := by
  obtain ⟨hlimit, hlimitUnits⟩ : (1.7976931348623151e308 : Float).isFinite = true ∧
      units 1.7976931348623151e308 = ((2 ^ 54 - 8) * halfStep : Nat) := by decide +kernel
  rcases results with _ | ⟨first, rest⟩
  · exact ⟨_, rfl⟩
  refine meanOfFinite_isOk hfinite (List.cons_ne_nil first rest) hlength fun x hx => ?_
  have habs := hle x hx
  obtain ⟨habsFinite, habsUnits⟩ := units_abs (hfinite x hx)
  rw [le_iff_units habsFinite hlimit, habsUnits, hlimitUnits] at habs
  omega

theorem Request.finite_results (source : Source Float σ) (seeded : Int → σ) (ambient : σ)
    (request : Request σ) :
    ∀ x ∈ request.results source seeded ambient, x.isFinite = true := by
  dsimp only [results]
  split
  · exact fun x hx => absurd hx List.not_mem_nil
  · split <;> exact fun x hx => (List.mem_filter.mp hx).2

theorem Request.length_results {source : Source Float σ} {seeded : Int → σ} {ambient : σ}
    {request : Request σ} (h : request.Reasonable) :
    (request.results source seeded ambient).length ≤ 2 ^ 53 := by
  dsimp only [results]
  split
  · exact Nat.zero_le _
  · split
    · refine (List.length_filter_le ..).trans ?_
      rw [samples, Simulation.length_ofText]
      have := h.iterations
      omega
    · refine (List.length_filter_le ..).trans ?_
      rcases fixedValue (NormalForm.ofText request.expression).expression with e | x
      · exact Nat.zero_le _
      · exact Nat.one_le_two_pow

/-- A reasonable request has an outcome if its results have a mean; otherwise a sum overflows. -/
theorem calculateFrom_cases (hsquares : MathLibrary.SquaresBounded) (source : Source Float σ)
    (seeded : Int → σ) (ambient : σ) {request : Request σ} (h : request.Reasonable) :
    ((∃ center, meanOfFinite (request.results source seeded ambient) = .ok center) ∧
        ∃ outcome, calculateFrom source seeded ambient request = .ok outcome) ∨
      ((¬ ∃ center, meanOfFinite (request.results source seeded ambient) = .ok center) ∧
        calculateFrom source seeded ambient request = .error (.statistics .sumOverflow)) := by
  have hiterations := h.iterations
  have hbins : 1 ≤ request.binCount.toNat ∧ request.binCount.toNat ≤ Grid.sizeLimit := by
    have := h.bins
    omega
  have hfinite := request.finite_results source seeded ambient
  have hlength : (request.results source seeded ambient).length ≤ 2 ^ 53 := Request.length_results h
  dsimp only [calculateFrom]
  rw [if_neg (by omega), if_neg (by have := h.bins; omega)]
  dsimp only [Request.results] at hfinite hlength ⊢
  split
  · exact .inl ⟨⟨_, rfl⟩, _, rfl⟩
  next hblank =>
  rw [if_neg hblank] at hfinite hlength
  split
  next hdraws =>
    rw [if_pos hdraws] at hfinite hlength
    obtain ⟨range, hrange⟩ := Outcome.ofSimulation_start source seeded ambient request
      request.binCount.toNat request.percents
    rw [hrange]
    exact Outcome.withResults_cases hsquares _ _ hfinite hlength _ hbins h.percents
  next hdraws =>
    rw [if_neg hdraws] at hfinite hlength
    obtain ⟨start, reason, hfixed⟩ := Outcome.ofFixed_eq (.start request) request.binCount.toNat
      request.percents
    rw [hfixed]
    exact Outcome.withResults_cases hsquares _ _ hfinite hlength _ hbins h.percents

/-- A reasonable request has an outcome exactly if its results have a mean. Without one both the sum of the
results and the sum of their shares overflow, which takes a result among the three largest numbers. -/
theorem calculateFrom_isOk_iff (hsquares : MathLibrary.SquaresBounded) (source : Source Float σ)
    (seeded : Int → σ) (ambient : σ) {request : Request σ} (h : request.Reasonable) :
    let results := request.results source seeded ambient
    let answer := calculateFrom source seeded ambient request
    ((∃ outcome, answer = .ok outcome) ↔ ∃ center, meanOfFinite results = .ok center) ∧
      (∀ fault, answer = .error fault → fault = .statistics .sumOverflow) ∧
      ((∀ x ∈ results, x.abs ≤ 1.7976931348623151e308) → ∃ outcome, answer = .ok outcome) := by
  dsimp only
  obtain ⟨hmean, outcome, houtcome⟩ | ⟨hmean, hfault⟩ :=
    calculateFrom_cases hsquares source seeded ambient h
  · rw [houtcome]
    refine ⟨iff_of_true ⟨outcome, rfl⟩ hmean, ?_, fun _ => ⟨outcome, rfl⟩⟩
    rintro fault ⟨⟩
  · rw [hfault]
    refine ⟨iff_of_false ?_ hmean, fun fault h => (Except.error.inj h).symm, fun hle => ?_⟩
    · rintro ⟨outcome, ⟨⟩⟩
    · exact absurd (mean_isOk_of_abs_le (request.finite_results source seeded ambient)
        (Request.length_results h) hle) hmean

end

/-! ## At the largest numbers -/

/-- Some samples of a number, drawn from a range without extent beside it. -/
def repeated (text : String) (iterations : Int) : Request Generator where
  expression := text ++ " + 0~0"
  iterations := some iterations
  bins := some 1
  percentiles := some [.whole 50]

theorem repeated_reasonable [MathLibrary] (text : String) {iterations : Int}
    (h : 1 ≤ iterations ∧ iterations ≤ 2 ^ 53) : (repeated text iterations).Reasonable where
  iterations := h
  bins := show (1 : Int) ≤ 1 ∧ (1 : Int) ≤ Grid.sizeLimit by decide
  percents p hp := by
    obtain rfl := List.mem_singleton.mp hp
    have hfinite : (Binary64.ofInt 50).isFinite = true := by decide +kernel
    exact ⟨_, Percent.toFloat?_whole hfinite⟩

/-- Three samples just below the three largest numbers have an outcome, although their sum overflows. -/
theorem belowLargest_isOk :
    let _ := squaringLibrary
    let request := repeated "1.7976931348623151e308" 3
    let results := request.results Generator.source Generator.ofSeed (.ofSeed 0)
    squaringLibrary.SquaresBounded ∧ request.Reasonable ∧
      (results.length = 3 ∧ ∀ x ∈ results, x.abs ≤ 1.7976931348623151e308) ∧
      (exactSum? results).isNone = true ∧ ∃ outcome, calculate (.ofSeed 0) request = .ok outcome := by
  let _ := squaringLibrary
  have hreasonable : (repeated "1.7976931348623151e308" 3).Reasonable :=
    repeated_reasonable _ (by decide)
  obtain ⟨hresults, hoverflow⟩ :
      (((repeated "1.7976931348623151e308" 3).results Generator.source Generator.ofSeed (.ofSeed 0)).length = 3 ∧
        ∀ x ∈ (repeated "1.7976931348623151e308" 3).results Generator.source Generator.ofSeed (.ofSeed 0),
          x.abs ≤ 1.7976931348623151e308) ∧
      (exactSum? ((repeated "1.7976931348623151e308" 3).results Generator.source Generator.ofSeed
        (.ofSeed 0))).isNone = true := by decide +kernel
  exact ⟨squaringLibrary_squaresBounded, hreasonable, hresults, hoverflow,
    (calculateFrom_isOk_iff squaringLibrary_squaresBounded Generator.source Generator.ofSeed (.ofSeed 0)
      hreasonable).2.2 hresults.2⟩

/-- Three samples at the largest number have no outcome, since both sums of their mean overflow. -/
theorem largest_sumOverflow :
    calculate (.ofSeed 0) (repeated "1.7976931348623157e308" 3) = .error (.statistics .sumOverflow) := by
  have hfault : (match calculate (.ofSeed 0) (repeated "1.7976931348623157e308" 3) with
      | .error fault => some fault
      | .ok _ => none) = some (.statistics .sumOverflow) := by decide +kernel
  rcases h : calculate (.ofSeed 0) (repeated "1.7976931348623157e308" 3) with fault | outcome
  · rw [h] at hfault
    rw [Option.some.inj hfault]
  · rw [h] at hfault
    cases hfault

end RangeCalc
