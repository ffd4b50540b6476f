import RangeCalc.Proofs.Fallible
import RangeCalc.Proofs.Formula.Eval
import RangeCalc.Proofs.Shorthand.Blank
import RangeCalc.Proofs.Simulation
import RangeCalc.Proofs.Statistics.Histogram
import RangeCalc.Record

/-!
# Outcomes are complete or blank

An outcome has a summary of all its results, or the reason why it has none, and nothing in between.

* `Outcome.Complete`, `Outcome.Blank`: the two kinds of outcomes;
* `Outcome.Fixed`, `Outcome.Simulated`: complete outcomes of texts that draw nothing, and of those that do;
* `Summary.complete_of_ofResults`: what the summary of some results holds;
* `calculateFrom_complete_or_blank`: every outcome is of one of these kinds.
-/

namespace RangeCalc

variable {σ : Type}

/-- The percentiles among some, of equal ones the first only. -/
def Percent.distinct (ps : List Percent) : List Percent :=
  ps.foldl (fun keys p => if keys.any (·.same p) then keys else keys ++ [p]) []

/-- The samples of the run of a request: its own state or the one that bounds leave is where it starts. -/
def Request.samples [MathLibrary] (source : Source Float σ) (seeded : Int → σ) (ambient : σ)
    (request : Request σ) : List Float :=
  let extraction := Extraction.ofText request.expression
  let after := (Bounds.ofText source extraction.expression extraction.ranges
    request.settings.maxExactRanges ambient).2
  (Simulation.ofText source (NormalForm.ofText request.expression).expression
    request.iterationCount.toNat ((request.own seeded).getD after)).1

namespace Outcome

/-- An outcome without results: all that a summary would say is empty or undefined. -/
structure Blank (o : Outcome) : Prop where
  error : o.error?.isSome = true
  deterministic : o.deterministic = false
  results : o.listed (·.results) = []
  histogram : o.listed (·.histogram) = []
  percentiles : o.listed (·.percentiles) = []
  min : (o.statistic (·.min)).isNaN = true
  max : (o.statistic (·.max)).isNaN = true
  mean : (o.statistic (·.mean)).isNaN = true
  deviation : (o.statistic (·.deviation)).isNaN = true
  median : (o.statistic (·.median)).isNaN = true

/-- An outcome with finite results and their statistics. -/
structure Complete (o : Outcome) (percentiles : List Percent) : Prop where
  error : o.error? = none
  results : o.listed (·.results) ≠ []
  finite : ∀ x ∈ o.listed (·.results), x.isFinite = true
  min_mem : o.statistic (·.min) ∈ o.listed (·.results)
  min_le : ∀ x ∈ o.listed (·.results), o.statistic (·.min) ≤ x
  max_mem : o.statistic (·.max) ∈ o.listed (·.results)
  le_max : ∀ x ∈ o.listed (·.results), x ≤ o.statistic (·.max)
  histogram : o.listed (·.histogram) ≠ []
  percentiles : (o.listed (·.percentiles)).map Prod.fst = Percent.distinct percentiles

/-- An outcome of a text that draws nothing. -/
structure Fixed (o : Outcome) : Prop where
  deterministic : o.deterministic = true
  invalid : o.invalid = 0
  results : ∃ x, o.listed (·.results) = [x] ∧ o.analytical.min = x ∧ o.analytical.max = x

/-- An outcome of a text that draws, given the samples of its iterations. -/
structure Simulated (o : Outcome) (samples : List Float) : Prop where
  deterministic : o.deterministic = false
  results : o.listed (·.results) = samples.filter Float.isFinite
  count : ((o.listed (·.results)).length + o.invalid : Int) = o.iterations
  warning : exclusionWarning o.invalid o.iterations.toNat ∈ o.warnings ↔ 0 < o.invalid

theorem blank_of_error {o : Outcome} {fault : OutcomeFault} (h : o.summary = .error fault) :
    o.Blank := by
  have hnan : Binary64.nan.isNaN = true := by decide +kernel
  constructor <;> simp only [error?, deterministic, listed, statistic, h, hnan, Option.isSome_some]

end Outcome

/-! ## Summaries -/

section

variable [MathLibrary]

namespace Summary

omit [MathLibrary] in
theorem keys_putPercentile (p : Percent) (x : Float) (done : List (Percent × Float)) :
    (putPercentile p x done).map Prod.fst =
      if (done.map Prod.fst).any (·.same p) then done.map Prod.fst else done.map Prod.fst ++ [p] := by
  induction done with
  | nil => rfl
  | cons entry rest ih =>
    obtain ⟨other, y⟩ := entry
    rw [putPercentile]
    cases hsame : other.same p
    · simp only [Bool.false_eq_true, if_false, List.map_cons, ih, List.any_cons, hsame, Bool.false_or]
      split <;> rfl
    · simp [hsame]

omit [MathLibrary] in
theorem mem_putPercentile {p : Percent} {x : Float} {done : List (Percent × Float)}
    {entry : Percent × Float} (h : entry ∈ putPercentile p x done) : entry ∈ done ∨ entry.2 = x := by
  induction done with
  | nil => exact .inr (by rw [List.mem_singleton.mp h])
  | cons first rest ih =>
    rw [putPercentile] at h
    split at h
    · rcases List.mem_cons.mp h with rfl | h
      · exact .inr rfl
      · exact .inl (List.mem_cons_of_mem first h)
    · rcases List.mem_cons.mp h with rfl | h
      · exact .inl List.mem_cons_self
      · exact (ih h).imp (List.mem_cons_of_mem first) id

theorem keys_foldlM {sorted : Array Float} {ps : List Percent} {done all : List (Percent × Float)}
    (h : ps.foldlM (addPercentile sorted) done = .ok all) :
    all.map Prod.fst =
      ps.foldl (fun keys p => if keys.any (·.same p) then keys else keys ++ [p]) (done.map Prod.fst) := by
  induction ps generalizing done with
  | nil =>
    obtain rfl : done = all := Except.ok.inj h
    rfl
  | cons p rest ih =>
    rw [List.foldlM_cons, bind_eq_ok] at h
    obtain ⟨next, hnext, h⟩ := h
    simp only [addPercentile, bind_eq_ok] at hnext
    obtain ⟨place, -, x, -, hput⟩ := hnext
    obtain rfl : putPercentile p x done = next := Except.ok.inj hput
    rw [ih h, keys_putPercentile, List.foldl_cons]

end Summary

open Statistics

/-- The summary of some finite results with at least one bin. -/
theorem Outcome.complete_of_ofResults {deterministic : Bool} {first : Float} {rest : List Float}
    {bins : Nat} {percentiles : List Percent} {summary : Summary} {o : Outcome}
    (hfinite : ∀ x ∈ first :: rest, x.isFinite = true) (hbins : 0 < bins)
    (h : Summary.ofResults deterministic first rest bins percentiles = .ok summary)
    (ho : o.summary = .ok summary) :
    o.Complete percentiles ∧ o.deterministic = deterministic ∧
      o.listed (·.results) = first :: rest := by
  simp only [Summary.ofResults, bind_eq_ok] at h
  obtain ⟨mean, -, deviation, -, median, -, entries, hentries, histogram, hhistogram, h⟩ := h
  obtain rfl := Except.ok.inj h
  obtain ⟨hleast, hle⟩ := isLeast_least hfinite
  obtain ⟨hgreatest, hge⟩ := isGreatest_greatest hfinite
  refine ⟨?_, by simp only [Outcome.deterministic, ho], by simp only [listed, ho]⟩
  constructor <;> simp only [error?, listed, statistic, ho]
  · exact List.cons_ne_nil first rest
  · exact hfinite
  · exact hleast
  · exact hle
  · exact hgreatest
  · exact hge
  · exact histogramOfFinite_ne_nil hbins hhistogram
  · exact Summary.keys_foldlM hentries

/-- An outcome of some finite results is complete, or blank if there are none. -/
theorem Outcome.of_withResults {outcome o : Outcome} {deterministic : Bool} {results : List Float}
    {reason : CalcError Float} {bins : Nat} {percentiles : List Percent}
    (hfinite : ∀ x ∈ results, x.isFinite = true) (hbins : 0 < bins)
    (h : withResults outcome deterministic results reason bins percentiles = .ok o) :
    (∃ summary, o = { outcome with summary }) ∧
      ((results = [] ∧ o.Blank) ∨
        (results ≠ [] ∧ o.Complete percentiles ∧ o.deterministic = deterministic ∧
          o.listed (·.results) = results)) := by
  cases results with
  | nil =>
    obtain rfl := Except.ok.inj h
    exact ⟨⟨_, rfl⟩, .inl ⟨rfl, blank_of_error rfl⟩⟩
  | cons first rest =>
    rw [withResults, map_eq_ok] at h
    obtain ⟨summary, hsummary, rfl⟩ := h
    rw [mapError_eq_ok] at hsummary
    exact ⟨⟨_, rfl⟩,
      .inr ⟨List.cons_ne_nil first rest, complete_of_ofResults hfinite hbins hsummary rfl⟩⟩

/-! ## The run -/

omit [MathLibrary] in
/-- No fault of a range reads like the warning about excluded iterations, which starts with a digit. -/
theorem RangeFault.message_ne_exclusionWarning (fault : RangeFault) (invalid total : Nat) :
    fault.message ≠ Outcome.exclusionWarning invalid total := by
  intro h
  obtain ⟨d, tail, hdigits⟩ := List.exists_cons_of_ne_nil (@Nat.toDigits_ne_nil invalid 10)
  have hmem : d ∈ Nat.toDigits 10 invalid := by
    rw [hdigits]
    exact List.mem_cons_self
  have hdigit : d.isDigit = true := Nat.isDigit_of_mem_toDigits (by decide) (by decide) hmem
  have hi : fault.message.toList.head? = some 'i' := by
    delta message
    simp only [String.append_assoc]
    rw [String.toList_append]
    simp
  have hd : (Outcome.exclusionWarning invalid total).toList.head? = some d := by
    simp only [Outcome.exclusionWarning, String.toList_append, Nat.toString_eq_repr,
      Nat.repr_eq_ofList_toDigits, String.toList_ofList, hdigits]
    rfl
  rw [h, hd, Option.some.injEq] at hi
  rw [hi] at hdigit
  exact absurd hdigit (by decide)

omit [MathLibrary] in
theorem Outcome.exclusionWarning_not_mem_start (request : Request σ) (invalid total : Nat) :
    exclusionWarning invalid total ∉ (start request).warnings := by
  intro h
  simp only [start, List.mem_map] at h
  obtain ⟨fault, -, hfault⟩ := h
  exact fault.message_ne_exclusionWarning invalid total hfault

/-- An outcome of the samples of a run is one that simulates, or blank if no sample is finite. -/
theorem Outcome.of_ofSamples {outcome o : Outcome} {samples : List Float} {bins : Nat}
    {percentiles : List Percent} (hbins : 0 < bins) (hiterations : 0 ≤ outcome.iterations)
    (hsamples : samples.length = outcome.iterations.toNat) (hwarnings : ∀ invalid total,
      exclusionWarning invalid total ∉ outcome.warnings)
    (h : ofSamples outcome samples bins percentiles = .ok o) :
    o.iterations = outcome.iterations ∧
      (((∀ x ∈ samples, x.isFinite = false) ∧ o.Blank ∧ (o.invalid : Int) = o.iterations) ∨
        ((∃ x ∈ samples, x.isFinite = true) ∧ o.Complete percentiles ∧ o.Simulated samples)) := by
  have hfinite : ∀ x ∈ finite samples, x.isFinite = true := fun x hx => (List.mem_filter.mp hx).2
  have hle : (finite samples).length ≤ samples.length := List.length_filter_le ..
  have hinvalid : (outcome.excluding samples).invalid = samples.length - (finite samples).length := rfl
  obtain ⟨⟨summary, ho⟩, ⟨hnil, hblank⟩ | ⟨hne, hcomplete, hdet, hresults⟩⟩ :=
    of_withResults hfinite hbins h
  · have ho' : o.invalid = (outcome.excluding samples).invalid ∧ o.iterations = outcome.iterations := by
      rw [ho]
      exact ⟨rfl, rfl⟩
    refine ⟨ho'.2, .inl ⟨fun x hx => ?_, hblank, ?_⟩⟩
    · rw [← Bool.not_eq_true]
      intro hx'
      have hmem : x ∈ finite samples := List.mem_filter.mpr ⟨hx, hx'⟩
      rw [hnil] at hmem
      exact List.not_mem_nil hmem
    · rw [ho'.1, hinvalid, hnil, List.length_nil, hsamples, ho'.2]
      omega
  · have ho' : o.invalid = (outcome.excluding samples).invalid ∧ o.iterations = outcome.iterations ∧
        o.warnings = (outcome.excluding samples).warnings := by
      rw [ho]
      exact ⟨rfl, rfl, rfl⟩
    obtain ⟨x, hx⟩ := List.exists_mem_of_ne_nil _ hne
    refine ⟨ho'.2.1, .inr ⟨⟨x, (List.mem_filter.mp hx).1, hfinite x hx⟩, hcomplete, hdet, hresults, ?_, ?_⟩⟩
    · rw [hresults, ho'.1, hinvalid, ho'.2.1]
      omega
    · have hpos : 0 < (finite samples).length := List.length_pos_of_mem hx
      rw [ho'.1, ho'.2.1, ho'.2.2, excluding]
      dsimp only
      split
      next hlt => exact iff_of_true (List.mem_append_right _ List.mem_cons_self) hlt.1
      next hlt =>
        refine iff_of_false ?_ fun h0 => hlt ⟨h0, hpos⟩
        rw [List.append_nil]
        exact hwarnings _ _

theorem Outcome.ofSimulation_eq (source : Source Float σ) (outcome : Outcome)
    (extraction : Extraction) (maxExact : Int) (ambient : σ) (own : Option σ) (bins : Nat)
    (percentiles : List Percent) :
    ofSimulation source outcome extraction maxExact ambient own bins percentiles =
      let bounds := Bounds.ofText source extraction.expression extraction.ranges maxExact ambient
      ofSamples { outcome with analytical := .ofBounds bounds.1 }
        (Simulation.ofText source outcome.normalized outcome.iterations.toNat (own.getD bounds.2)).1
        bins percentiles := rfl

/-- The outcome of a text that draws is that of the samples of its run. -/
theorem Outcome.ofSimulation_start (source : Source Float σ) (seeded : Int → σ) (ambient : σ)
    (request : Request σ) (bins : Nat) (percentiles : List Percent) :
    ∃ range, ofSimulation source (start request) (Extraction.ofText request.expression)
      request.settings.maxExactRanges ambient (request.own seeded) bins percentiles =
        ofSamples { start request with analytical := range } (request.samples source seeded ambient)
          bins percentiles := by
  rw [ofSimulation_eq]
  exact ⟨_, rfl⟩

/-- An outcome of a text that draws nothing is complete or blank. -/
theorem Outcome.of_ofFixed {outcome o : Outcome} {bins : Nat} {percentiles : List Percent}
    (hbins : 0 < bins) (hinvalid : outcome.invalid = 0)
    (h : ofFixed outcome bins percentiles = .ok o) :
    o.iterations = outcome.iterations ∧ (o.Blank ∨ (o.Complete percentiles ∧ o.Fixed)) := by
  rw [ofFixed] at h
  split at h
  · obtain rfl := Except.ok.inj h
    exact ⟨rfl, .inl (blank_of_error rfl)⟩
  next x hx =>
    have hfinite : x.isFinite = true := by
      obtain ⟨y, -, hy⟩ := bind_eq_ok.mp hx
      split at hy
      next hy' =>
        obtain rfl := Except.ok.inj hy
        exact hy'
      · cases hy
    obtain ⟨⟨summary, ho⟩, ⟨hnil, -⟩ | ⟨-, hcomplete, hdet, hresults⟩⟩ :=
      of_withResults (fun y hy => by rw [List.mem_singleton.mp hy]; exact hfinite) hbins h
    · exact absurd hnil (List.cons_ne_nil x [])
    · refine ⟨by rw [ho], .inr ⟨hcomplete, hdet, ?_, x, hresults, ?_, ?_⟩⟩ <;> rw [ho]
      exact hinvalid

/-- An outcome is complete or blank. It is complete with the value of a text that draws nothing, or with
the finite ones of the samples of a run. The outcome of a text that draws is blank exactly if no sample is
finite. -/
theorem calculateFrom_complete_or_blank {source : Source Float σ} {seeded : Int → σ} {ambient : σ}
    {request : Request σ} {outcome : Outcome}
    (h : calculateFrom source seeded ambient request = .ok outcome) :
    let samples := request.samples source seeded ambient
    outcome.iterations = request.iterationCount ∧
    ((outcome.Complete request.percents ∧ (outcome.Fixed ∨ outcome.Simulated samples)) ∨
      outcome.Blank) ∧
    ((NormalForm.ofText request.expression).isProbabilistic = true →
      (outcome.error?.isSome = true ↔ ∀ x ∈ samples, x.isFinite = false) ∧
      (outcome.error?.isSome = true → (outcome.invalid : Int) = request.iterationCount)) := by
  simp only [calculateFrom] at h
  split at h
  · cases h
  next hiterations =>
  split at h
  · cases h
  next hbins =>
  split at h
  next hblank =>
    obtain rfl := Except.ok.inj h
    refine ⟨rfl, .inr (Outcome.blank_of_error rfl), fun hdraws => ?_⟩
    rw [NormalForm.ofText_blank hblank] at hdraws
    exact absurd hdraws Bool.false_ne_true
  next hblank =>
  split at h
  next hdraws =>
    obtain ⟨range, hrange⟩ := Outcome.ofSimulation_start source seeded ambient request
      request.binCount.toNat request.percents
    rw [hrange] at h
    have hcount : (request.samples source seeded ambient).length = request.iterationCount.toNat :=
      Simulation.length_ofText ..
    have hnonneg : 0 ≤ request.iterationCount := by omega
    have hwarnings (invalid total : Nat) : Outcome.exclusionWarning invalid total ∉
        ({ Outcome.start request with analytical := range } : Outcome).warnings := by
      dsimp only
      exact Outcome.exclusionWarning_not_mem_start request invalid total
    obtain ⟨hi, ⟨hnone, hb, hinvalid⟩ | ⟨⟨x, hx, hxfinite⟩, hcomplete, hsim⟩⟩ :=
      Outcome.of_ofSamples (by omega) hnonneg hcount hwarnings h
    · exact ⟨hi, .inr hb, fun _ => ⟨iff_of_true hb.error hnone, fun _ => hinvalid.trans hi⟩⟩
    · have herror : ¬ outcome.error?.isSome = true := by
        rw [hcomplete.error]
        exact Bool.false_ne_true
      refine ⟨hi, .inl ⟨hcomplete, .inr hsim⟩, fun _ => ⟨iff_of_false herror fun hall => ?_, fun h => absurd h herror⟩⟩
      rw [hall x hx] at hxfinite
      exact Bool.false_ne_true hxfinite
  next hdraws =>
    obtain ⟨hi, hb | ⟨hcomplete, hfixed⟩⟩ := Outcome.of_ofFixed (by omega) rfl h
    · exact ⟨hi, .inr hb, fun h => absurd h hdraws⟩
    · exact ⟨hi, .inl ⟨hcomplete, .inl hfixed⟩, fun h => absurd h hdraws⟩

end

/-- A range around a pole, with a draw at the pole and one beside it. -/
def rangeAroundPole : Request Generator where
  expression := "1 / (-1~1)"
  iterations := some 2
  bins := some 2
  percentiles := some [.whole 50]
  generator := some (.values #[0.0, 0.5] 0)

/-- One of two iterations is left out, and the outcome is complete. -/
theorem rangeAroundPole_complete :
    ∃ outcome, calculate (.ofSeed 0) rangeAroundPole = .ok outcome ∧ outcome.invalid = 1 ∧
      outcome.Complete [.whole 50] ∧
      outcome.Simulated (rangeAroundPole.samples Generator.source Generator.ofSeed (.ofSeed 0)) := by
  have hrun : (calculate (.ofSeed 0) rangeAroundPole).toOption.map
      (fun o => (o.error?, o.deterministic, o.invalid)) = some (none, false, 1) := by decide +kernel
  rcases hcalculate : calculate (.ofSeed 0) rangeAroundPole with fault | outcome
  · rw [hcalculate] at hrun
    cases hrun
  · rw [hcalculate] at hrun
    obtain ⟨herror, hdet, hinvalid⟩ : outcome.error? = none ∧ outcome.deterministic = false ∧
        outcome.invalid = 1 := by simpa [Except.toOption] using hrun
    obtain ⟨-, ⟨hcomplete, hfixed | hsimulated⟩ | hblank, -⟩ :=
      calculateFrom_complete_or_blank hcalculate
    · rw [hfixed.deterministic] at hdet
      cases hdet
    · exact ⟨outcome, rfl, hinvalid, hcomplete, hsimulated⟩
    · have herror' := hblank.error
      rw [herror] at herror'
      cases herror'

end RangeCalc
