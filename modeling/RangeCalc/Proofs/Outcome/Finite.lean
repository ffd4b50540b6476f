import RangeCalc.Proofs.Bounds.Extremes
import RangeCalc.Proofs.Outcome.Total
import RangeCalc.Proofs.Statistics.Bins

/-!
# The numbers of a record

A record is plain data in which an undefined number is nothing. All of its numbers are finite but the
deviation: that is the product of the greatest absolute value and a number which may be above one, and it may
overflow.

* `Record.numbers`: the numbers in a record;
* `Bounds.bounded_ofText`: bounds are finite or undefined;
* `Summary.Bounded`: what the numbers of a summary are, and `Summary.bounded_of_ofResults`;
* `calculateFrom_record_finite`: the numbers of the record of an outcome;
* `wholeLine_record_infinite`: a deviation that overflows.
-/

namespace RangeCalc

open Binary64 Statistics

/-! ## Numbers in a record -/

theorem Bin.center_eq [MathLibrary] (b : Bin Float) :
    b.center = b.lower / Binary64.ofInt 2 + b.upper / Binary64.ofInt 2 := rfl

theorem Bin.probability_eq [MathLibrary] (b : Bin Float) :
    b.probability = Binary64.ofInt b.count / Binary64.ofInt b.total := rfl

namespace Record

mutual

/-- The numbers in a record. -/
def numbers : Record → List Float
  | null => []
  | flag _ => []
  | integer _ => []
  | number x => [x]
  | text _ => []
  | list items => itemNumbers items
  | fields entries => fieldNumbers entries

/-- The numbers in some items. -/
def itemNumbers : List Record → List Float
  | [] => []
  | r :: rs => numbers r ++ itemNumbers rs

/-- The numbers in some fields. -/
def fieldNumbers : List (String × Record) → List Float
  | [] => []
  | (_, r) :: rest => numbers r ++ fieldNumbers rest

end

variable {x y : Float}

@[simp] theorem mem_itemNumbers {items : List Record} :
    x ∈ itemNumbers items ↔ ∃ r ∈ items, x ∈ r.numbers := by
  induction items with
  | nil => simp [itemNumbers]
  | cons r rs ih => simp [itemNumbers, ih]

@[simp] theorem mem_fieldNumbers {entries : List (String × Record)} :
    x ∈ fieldNumbers entries ↔ ∃ entry ∈ entries, x ∈ entry.2.numbers := by
  induction entries with
  | nil => simp [fieldNumbers]
  | cons entry rest ih => simp [fieldNumbers, ih]

@[simp] theorem mem_numbers_list {items : List Record} :
    x ∈ (list items).numbers ↔ ∃ r ∈ items, x ∈ r.numbers := by
  rw [numbers, mem_itemNumbers]

@[simp] theorem mem_numbers_fields {entries : List (String × Record)} :
    x ∈ (fields entries).numbers ↔ ∃ entry ∈ entries, x ∈ entry.2.numbers := by
  rw [numbers, mem_fieldNumbers]

@[simp] theorem mem_numbers_ofFloat : x ∈ (ofFloat y).numbers ↔ x = y ∧ y.isNaN = false := by
  rw [ofFloat]
  cases y.isNaN <;> simp [numbers]

@[simp] theorem numbers_ofText? (s : Option String) : (ofText? s).numbers = [] := by
  cases s <;> rfl

@[simp] theorem numbers_text (s : String) : (text s).numbers = [] := rfl

@[simp] theorem numbers_integer (n : Int) : (integer n).numbers = [] := rfl

@[simp] theorem numbers_flag (b : Bool) : (flag b).numbers = [] := rfl

/-- A number of a bin is one of its bounds, its middle or its share, whatever library there is. -/
theorem mem_numbers_ofBin [MathLibrary] {b : Bin Float} (h : x ∈ (ofBin b).numbers) :
    x.isNaN = false ∧ (x = b.lower ∨ x = b.upper ∨ x = b.center ∨ x = b.probability) := by
  simp only [ofBin, mem_numbers_fields, List.mem_cons, List.not_mem_nil, or_false, exists_eq_or_imp,
    exists_eq_left, mem_numbers_ofFloat, numbers_text, false_or] at h
  obtain ⟨rfl, h⟩ | ⟨rfl, h⟩ | ⟨rfl, h⟩ | ⟨rfl, h⟩ := h
  · exact ⟨h, .inl rfl⟩
  · exact ⟨h, .inr (.inl rfl)⟩
  · exact ⟨h, .inr (.inr (.inl ((@Bin.center_eq platformLibrary b).trans (Bin.center_eq b).symm)))⟩
  · exact ⟨h, .inr (.inr (.inr ((@Bin.probability_eq platformLibrary b).trans (Bin.probability_eq b).symm)))⟩

theorem mem_put {name : String} {value : Record} {entries : List (String × Record)}
    {entry : String × Record} (h : entry ∈ put name value entries) : entry ∈ entries ∨ entry.2 = value := by
  induction entries with
  | nil => exact .inr (by rw [List.mem_singleton.mp h])
  | cons first rest ih =>
    rw [put] at h
    split at h
    · rcases List.mem_cons.mp h with rfl | h
      · exact .inr rfl
      · exact .inl (List.mem_cons_of_mem first h)
    · rcases List.mem_cons.mp h with rfl | h
      · exact .inl List.mem_cons_self
      · exact (ih h).imp (List.mem_cons_of_mem first) id

/-- A number among the fields of percentiles is that of a percentile. -/
theorem mem_numbers_ofPercentiles {percentiles : List (Percent × Float)}
    (h : x ∈ (ofPercentiles percentiles).numbers) : x.isNaN = false ∧ ∃ p, (p, x) ∈ percentiles := by
  have hfold : ∀ done, (∀ entry ∈ done, x ∈ entry.2.numbers → x.isNaN = false ∧ ∃ p, (p, x) ∈ percentiles) →
      ∀ entries ⊆ percentiles,
        ∀ entry ∈ entries.foldl (fun done e => put e.1.text (ofFloat e.2) done) done,
          x ∈ entry.2.numbers → x.isNaN = false ∧ ∃ p, (p, x) ∈ percentiles := by
    intro done hdone entries
    induction entries generalizing done with
    | nil => exact fun _ => hdone
    | cons first rest ih =>
      intro hsub
      refine ih _ (fun entry hentry hx => ?_) fun e he => hsub (List.mem_cons_of_mem first he)
      rcases mem_put hentry with hmem | heq
      · exact hdone entry hmem hx
      · rw [heq, mem_numbers_ofFloat] at hx
        obtain ⟨rfl, hdefined⟩ := hx
        exact ⟨hdefined, first.1, hsub List.mem_cons_self⟩
  rw [ofPercentiles, mem_numbers_fields] at h
  obtain ⟨entry, hentry, hx⟩ := h
  exact hfold [] (fun _ h => absurd h List.not_mem_nil) percentiles (List.Subset.refl _) entry hentry hx

end Record

/-! ## Bounds -/

variable {σ : Type}

theorem not_isInf_of_isNaN {x : Float} (h : x.isNaN = true) : x.isInf = false := by
  rw [isNaN_unpack] at h
  rw [isInf_unpack]
  cases hu : x.toModel.unpack <;> rw [hu] at h <;> first | rfl | exact Bool.noConfusion h

theorem not_isInf_nan : Binary64.nan.isInf = false := by decide +kernel

section

variable [MathLibrary]

/-- A range whose bounds are finite or undefined. -/
structure AnalyticalRange.Bounded (r : AnalyticalRange) : Prop where
  min : r.min.isInf = false
  max : r.max.isInf = false

omit [MathLibrary] in
theorem AnalyticalRange.Bounded.undefined : Bounded {} := ⟨not_isInf_nan, not_isInf_nan⟩

/-- Bounds are finite or undefined, also if the formula draws. -/
theorem Bounds.bounded_ofText (source : Source Float σ) (text : String)
    (ranges : List (RangeVar Float)) (maxExact : Int) (s : σ) :
    (AnalyticalRange.ofBounds (ofText source text ranges maxExact s).1).Bounded := by
  have hnone (notes : List (BoundsNote Float)) (approximate : Bool) (invalid : Nat) :
      (AnalyticalRange.ofBounds (none notes approximate invalid)).Bounded := ⟨not_isInf_nan, not_isInf_nan⟩
  have hfixed : (AnalyticalRange.ofBounds (ofFixed text (compile text))).Bounded := by
    cases compile text with
    | error e => exact hnone _ _ _
    | ok f =>
      obtain ⟨x, -, hx, h⟩ | ⟨-, e, h⟩ := ofFixed_cases text f
      · rw [h]
        exact ⟨not_isInf_of_isFinite hx, not_isInf_of_isFinite hx⟩
      · rw [h]
        exact hnone _ _ _
  dsimp only [ofText, ofFormula]
  split
  · exact hfixed
  cases compile text with
  | error e => exact hnone _ _ _
  | ok f =>
    dsimp only
    obtain ⟨tally, t, htally⟩ : ∃ tally t, Tally.ofPoints source f
        (if decide (maxExact < ranges.length) then extremes ranges else corners ranges) s = (tally, t) :=
      ⟨_, _, rfl⟩
    have hfinite : ∀ x ∈ tally.values, x.isFinite = true := by
      rw [← show (Tally.ofPoints source f _ s).1 = tally from congrArg Prod.fst htally]
      exact Tally.finite_ofPoints _ s
    rw [run_bind htally]
    cases hvalues : tally.values.reverse with
    | nil => exact hnone _ _ _
    | cons x rest =>
      have hrest : ∀ y ∈ x :: rest, y.isFinite = true := fun y hy =>
        hfinite y (List.mem_reverse.mp (hvalues ▸ hy))
      exact ⟨not_isInf_of_isFinite (hrest _ (isLeast_least hrest).1),
        not_isInf_of_isFinite (hrest _ (isGreatest_greatest hrest).1)⟩

/-! ## Summaries -/

/-- The numbers of a summary are finite or undefined, but the deviation is defined and may be infinite if a
result is very large. -/
structure Summary.Bounded (s : Summary) : Prop where
  results : ∀ x ∈ s.results, x.isFinite = true
  min : s.min.isFinite = true
  max : s.max.isFinite = true
  mean : s.mean.isFinite = true
  deviation : s.deviation.isNaN = false
  small : (∀ x ∈ s.results, x.abs ≤ 1e288) → s.deviation.isFinite = true
  median : s.median.isFinite = true
  percentiles : ∀ entry ∈ s.percentiles, entry.2.isInf = false
  histogram : ∀ b ∈ s.histogram, b.Finite

namespace Summary

variable {first : Float} {rest : List Float} {bins : Nat} {percentiles : List Percent}

/-- Percentiles of finite results are not infinite; that at an undefined place is undefined. -/
theorem not_isInf_percentiles (hfinite : ∀ x ∈ first :: rest, x.isFinite = true)
    (hlength : (first :: rest).length ≤ 2 ^ 53) {entries : List (Percent × Float)}
    (h : percentiles.foldlM (addPercentile (ascending (first :: rest)).toArray) [] = .ok entries) :
    ∀ entry ∈ entries, entry.2.isInf = false := by
  have hnil : ∀ entry ∈ ([] : List (Percent × Float)), entry.2.isInf = false := by simp
  refine foldlM_invariant (fun done : List (Percent × Float) => ∀ entry ∈ done, entry.2.isInf = false)
    hnil ?_ h
  intro done p _ next hdone hnext
  simp only [addPercentile, bind_eq_ok] at hnext
  obtain ⟨place, -, x, hx, hput⟩ := hnext
  obtain rfl : putPercentile p x done = next := Except.ok.inj hput
  have hinf : x.isInf = false := by
    cases hplace : place.isNaN with
    | false =>
      exact not_isInf_of_isFinite
        (finite_percentileOfSorted hfinite hlength (List.cons_ne_nil _ _) hplace hx)
    | true =>
      have hundefined : percentileOfSorted (ascending (first :: rest)).toArray place = .ok Scalar.undefined :=
        if_pos (by rw [show Scalar.isUndefined place = true from hplace, Bool.or_true])
      rw [hx] at hundefined
      rw [Except.ok.inj hundefined]
      exact not_isInf_nan
  intro entry hentry
  rcases mem_putPercentile hentry with hmem | heq
  · exact hdone entry hmem
  · rw [heq]
    exact hinf

/-- What holds of the results, and of what is computed from them, holds of each number of a summary. -/
inductive Holds (s : Summary) : Float → Prop where
  | min : s.Holds s.min
  | max : s.Holds s.max
  | mean : s.Holds s.mean
  | deviation : s.Holds s.deviation
  | median : s.Holds s.median
  | percentile {x : Float} (p : Percent) (h : (p, x) ∈ s.percentiles) : s.Holds x
  | bin {x : Float} (b : Bin Float) (hb : b ∈ s.histogram)
      (h : x = b.lower ∨ x = b.upper ∨ x = b.center ∨ x = b.probability) : s.Holds x
  | result {x : Float} (h : x ∈ s.results) : s.Holds x

theorem Bounded.of_holds {s : Summary} (hs : s.Bounded) {x : Float} (h : s.Holds x) :
    x.isInf = false ∨ x = s.deviation := by
  cases h with
  | min => exact .inl (not_isInf_of_isFinite hs.min)
  | max => exact .inl (not_isInf_of_isFinite hs.max)
  | mean => exact .inl (not_isInf_of_isFinite hs.mean)
  | deviation => exact .inr rfl
  | median => exact .inl (not_isInf_of_isFinite hs.median)
  | percentile p h =>
    have hinf := hs.percentiles (p, x) h
    exact .inl hinf
  | bin b hb h =>
    have hb := hs.histogram b hb
    obtain rfl | rfl | rfl | rfl := h
    · exact .inl (not_isInf_of_isFinite hb.lower)
    · exact .inl (not_isInf_of_isFinite hb.upper)
    · exact .inl (not_isInf_of_isFinite hb.center)
    · exact .inl (not_isInf_of_isFinite hb.probability)
  | result h => exact .inl (not_isInf_of_isFinite (hs.results _ h))

theorem bounded_of_ofResults (hsquares : MathLibrary.SquaresBounded)
    (hfinite : ∀ x ∈ first :: rest, x.isFinite = true) (hlength : (first :: rest).length ≤ 2 ^ 53)
    (hbins : 1 ≤ bins ∧ bins ≤ 2 ^ 50) {deterministic : Bool} {summary : Summary}
    (h : ofResults deterministic first rest bins percentiles = .ok summary) : summary.Bounded := by
  dsimp only [ofResults] at h
  obtain ⟨mean, hmean, h⟩ := bind_eq_ok.mp h
  obtain ⟨deviation, hdeviation, h⟩ := bind_eq_ok.mp h
  obtain ⟨median, hmedian, h⟩ := bind_eq_ok.mp h
  obtain ⟨entries, hentries, h⟩ := bind_eq_ok.mp h
  obtain ⟨histogram, hhistogram, h⟩ := bind_eq_ok.mp h
  obtain rfl := Except.ok.inj h
  obtain ⟨hdefined, hsmall⟩ := deviationOfFinite_defined hsquares hfinite hlength hdeviation ⟨mean, hmean⟩
  obtain ⟨-, hle⟩ := natAbs_le_magnitude hfinite
  have hhalf : (50 : Float).isNaN = false := by decide +kernel
  exact {
    results := hfinite
    min := hfinite _ (isLeast_least hfinite).1
    max := hfinite _ (isGreatest_greatest hfinite).1
    mean := (finite_meanOfFinite hfinite (List.cons_ne_nil _ _) hlength hle hmean).1
    deviation := hdefined
    small := fun habs => hsmall fun x hx => by
      obtain ⟨hlimit, hlimitUnits⟩ : (1e288 : Float).isFinite = true ∧
          units 1e288 ≤ (2 ^ 957 * Binary64.one : Nat) := by decide +kernel
      obtain ⟨habsFinite, habsUnits⟩ := units_abs (hfinite x hx)
      have h := (le_iff_units habsFinite hlimit).mp (habs x hx)
      rw [habsUnits] at h
      exact_mod_cast h.trans hlimitUnits
    median := finite_percentileOfSorted hfinite hlength (List.cons_ne_nil _ _) hhalf hmedian
    percentiles := not_isInf_percentiles hfinite hlength hentries
    histogram := finite_histogramOfFinite hfinite hlength hbins hhistogram }

end Summary

/-! ## Outcomes -/

namespace Outcome

/-- An outcome with bounds that are finite or undefined, and a bounded summary if it has results. -/
structure Bounded (o : Outcome) : Prop where
  range : o.analytical.Bounded
  summary : ∀ summary, o.summary = .ok summary → summary.Bounded

variable {o : Outcome} {includeResults : Bool} {x : Float}

omit [MathLibrary] in
theorem exists_of_statistic {f : Summary → Float} (h : (o.statistic f).isNaN = false) :
    ∃ s, o.summary = .ok s ∧ o.statistic f = f s := by
  rw [statistic] at h ⊢
  split at h
  next s hs => exact ⟨s, hs, rfl⟩
  · have hnan : Binary64.nan.isNaN = true := by decide +kernel
    rw [hnan] at h
    cases h

omit [MathLibrary] in
theorem exists_of_mem_listed {α : Type} {f : Summary → List α} {a : α} (h : a ∈ o.listed f) :
    ∃ s, o.summary = .ok s ∧ a ∈ f s := by
  rw [listed] at h
  split at h
  next s hs => exact ⟨s, hs, h⟩
  · exact absurd h List.not_mem_nil

/-- The numbers of a record are defined, and each is one of the bounds or of the summary. -/
theorem mem_numbers_record (h : x ∈ (o.record includeResults).numbers) :
    x.isNaN = false ∧
      (x = o.analytical.min ∨ x = o.analytical.max ∨ ∃ s, o.summary = .ok s ∧ s.Holds x) := by
  have hstatistic {f : Summary → Float} (hf : ∀ s : Summary, s.Holds (f s))
      (hx : x = o.statistic f ∧ (o.statistic f).isNaN = false) :
      x.isNaN = false ∧
        (x = o.analytical.min ∨ x = o.analytical.max ∨ ∃ s, o.summary = .ok s ∧ s.Holds x) := by
    obtain ⟨rfl, hdefined⟩ := hx
    obtain ⟨s, hs, heq⟩ := exists_of_statistic hdefined
    exact ⟨hdefined, .inr (.inr ⟨s, hs, heq ▸ hf s⟩)⟩
  rw [record, Record.mem_numbers_fields] at h
  simp only [entries, List.mem_append, List.mem_cons, List.not_mem_nil, or_false, or_and_right, exists_or,
    exists_eq_left, Record.mem_numbers_ofFloat, Record.numbers_text, Record.numbers_integer,
    Record.numbers_flag, Record.numbers_ofText?, false_or] at h
  obtain ((⟨rfl, hx⟩ | ⟨rfl, hx⟩ | hx | hx | hx | hx | hx | hx | hx) | ⟨entry, hentry, hx⟩) | hx := h
  · exact ⟨hx, .inl rfl⟩
  · exact ⟨hx, .inr (.inl rfl)⟩
  · exact hstatistic (fun _ => .min) hx
  · exact hstatistic (fun _ => .max) hx
  · exact hstatistic (fun _ => .mean) hx
  · exact hstatistic (fun _ => .deviation) hx
  · exact hstatistic (fun _ => .median) hx
  · obtain ⟨hdefined, p, hp⟩ := Record.mem_numbers_ofPercentiles hx
    obtain ⟨s, hs, hmem⟩ := exists_of_mem_listed hp
    exact ⟨hdefined, .inr (.inr ⟨s, hs, .percentile p hmem⟩)⟩
  · rw [Record.mem_numbers_list] at hx
    obtain ⟨r, hr, hx⟩ := hx
    obtain ⟨b, hb, rfl⟩ := List.mem_map.mp hr
    obtain ⟨hdefined, hx⟩ := Record.mem_numbers_ofBin hx
    obtain ⟨s, hs, hmem⟩ := exists_of_mem_listed hb
    exact ⟨hdefined, .inr (.inr ⟨s, hs, .bin b hmem hx⟩)⟩
  · split at hentry
    · obtain rfl := List.mem_singleton.mp hentry
      rw [Record.mem_numbers_list] at hx
      obtain ⟨r, hr, hx⟩ := hx
      obtain ⟨y, hy, rfl⟩ := List.mem_map.mp hr
      obtain ⟨rfl, hdefined⟩ := Record.mem_numbers_ofFloat.mp hx
      obtain ⟨s, hs, hmem⟩ := exists_of_mem_listed hy
      exact ⟨hdefined, .inr (.inr ⟨s, hs, .result hmem⟩)⟩
    · exact absurd hentry List.not_mem_nil
  · rw [Record.mem_numbers_list] at hx
    obtain ⟨r, hr, hx⟩ := hx
    obtain ⟨message, -, rfl⟩ := List.mem_map.mp hr
    exact absurd hx List.not_mem_nil

omit [MathLibrary] in
/-- A deviation that is defined is in the record. -/
theorem deviation_mem_record (h : (o.statistic (·.deviation)).isNaN = false) :
    o.statistic (·.deviation) ∈ (o.record includeResults).numbers := by
  rw [record, Record.mem_numbers_fields]
  refine ⟨("std_dev", .ofFloat (o.statistic (·.deviation))), ?_, Record.mem_numbers_ofFloat.mpr ⟨rfl, h⟩⟩
  refine List.mem_append_left _ (List.mem_append_left _ ?_)
  simp only [List.mem_cons, true_or, or_true]

/-- All numbers of the record of a bounded outcome are finite but the deviation. -/
theorem Bounded.finite_or_deviation (ho : o.Bounded)
    (h : x ∈ (o.record includeResults).numbers) :
    x.isFinite = true ∨ x = o.statistic (·.deviation) := by
  obtain ⟨hdefined, rfl | rfl | ⟨s, hs, hx⟩⟩ := mem_numbers_record h
  · exact .inl (isFinite_of_defined hdefined ho.range.min)
  · exact .inl (isFinite_of_defined hdefined ho.range.max)
  · rcases (ho.summary s hs).of_holds hx with hinf | rfl
    · exact .inl (isFinite_of_defined hdefined hinf)
    · exact .inr (by rw [statistic, hs])

theorem bounded_of_error {fault : OutcomeFault} (hrange : o.analytical.Bounded)
    (h : o.summary = .error fault) : o.Bounded :=
  ⟨hrange, fun s hs => by rw [h] at hs; cases hs⟩

/-- An outcome of finite results is bounded if its range is. -/
theorem bounded_of_withResults (hsquares : MathLibrary.SquaresBounded) {outcome : Outcome}
    {deterministic : Bool} {results : List Float} {reason : CalcError Float} {bins : Nat}
    {percentiles : List Percent} (hrange : outcome.analytical.Bounded)
    (hfinite : ∀ x ∈ results, x.isFinite = true) (hlength : results.length ≤ 2 ^ 53) (hbins : 1 ≤ bins ∧ bins ≤ 2 ^ 50)
    (h : withResults outcome deterministic results reason bins percentiles = .ok o) : o.Bounded := by
  cases results with
  | nil =>
    obtain rfl := Except.ok.inj h
    exact bounded_of_error hrange rfl
  | cons first rest =>
    rw [withResults, map_eq_ok] at h
    obtain ⟨summary, hsummary, rfl⟩ := h
    rw [mapError_eq_ok] at hsummary
    refine ⟨hrange, fun s hs => ?_⟩
    obtain rfl := Except.ok.inj hs
    exact Summary.bounded_of_ofResults hsquares hfinite hlength hbins hsummary

end Outcome

/-! ## Requests -/

/-- Outcomes are bounded, unless there are too many iterations or bins. -/
theorem bounded_of_calculateFrom (hsquares : MathLibrary.SquaresBounded) {source : Source Float σ}
    {seeded : Int → σ} {ambient : σ} {request : Request σ} {outcome : Outcome}
    (hiterations : request.iterationCount ≤ 2 ^ 53) (hbins : request.binCount ≤ 2 ^ 50)
    (h : calculateFrom source seeded ambient request = .ok outcome) : outcome.Bounded := by
  dsimp only [calculateFrom] at h
  split at h
  · cases h
  split at h
  · cases h
  next hpos =>
  have hcount : 1 ≤ request.binCount.toNat ∧ request.binCount.toNat ≤ 2 ^ 50 := by omega
  split at h
  · obtain rfl := Except.ok.inj h
    exact Outcome.bounded_of_error .undefined rfl
  split at h
  · rw [Outcome.ofSimulation_eq] at h
    have hrange := Bounds.bounded_ofText source (Extraction.ofText request.expression).expression
      (Extraction.ofText request.expression).ranges request.settings.maxExactRanges ambient
    refine Outcome.bounded_of_withResults hsquares ?_ (fun x hx => (List.mem_filter.mp hx).2) ?_ hcount h
    · exact hrange
    · refine (List.length_filter_le ..).trans ?_
      rw [Simulation.length_ofText]
      show request.iterationCount.toNat ≤ 2 ^ 53
      omega
  · rw [Outcome.ofFixed] at h
    split at h
    · obtain rfl := Except.ok.inj h
      exact Outcome.bounded_of_error .undefined rfl
    next x hx =>
      have hfinite : x.isFinite = true := by
        obtain ⟨y, -, hy⟩ := bind_eq_ok.mp hx
        split at hy
        next hy' =>
          obtain rfl := Except.ok.inj hy
          exact hy'
        · cases hy
      have hinf := not_isInf_of_isFinite hfinite
      refine Outcome.bounded_of_withResults hsquares ?_ ?_ Nat.one_le_two_pow hcount h
      · exact ⟨hinf, hinf⟩
      · exact fun y hy => List.mem_singleton.mp hy ▸ hfinite

/-- The numbers of the record of an outcome are defined. All of them are finite but the deviation, and that is
finite too unless a result is very large. -/
theorem calculateFrom_record_finite (hsquares : MathLibrary.SquaresBounded) {source : Source Float σ}
    {seeded : Int → σ} {ambient : σ} {request : Request σ} {outcome : Outcome}
    (hiterations : request.iterationCount ≤ 2 ^ 53) (hbins : request.binCount ≤ 2 ^ 50)
    (h : calculateFrom source seeded ambient request = .ok outcome) (includeResults : Bool) :
    let numbers := (outcome.record includeResults).numbers
    let deviation := outcome.statistic (·.deviation)
    (∀ x ∈ numbers, x.isNaN = false) ∧
      (∀ x ∈ numbers, x.isFinite = true ∨ x = deviation) ∧
      ((∀ x ∈ numbers, x.isFinite = true) ↔ deviation.isInf = false) ∧
      ((∀ x ∈ outcome.listed (·.results), x.abs ≤ 1e288) → ∀ x ∈ numbers, x.isFinite = true) := by
  have ho := bounded_of_calculateFrom hsquares hiterations hbins h
  have hiff : (∀ x ∈ (outcome.record includeResults).numbers, x.isFinite = true) ↔
      (outcome.statistic (·.deviation)).isInf = false := by
    constructor
    · intro hall
      cases hdefined : (outcome.statistic (·.deviation)).isNaN with
      | false => exact not_isInf_of_isFinite (hall _ (Outcome.deviation_mem_record hdefined))
      | true => exact not_isInf_of_isNaN hdefined
    · intro hinf x hx
      rcases ho.finite_or_deviation hx with hfinite | rfl
      · exact hfinite
      · exact isFinite_of_defined (Outcome.mem_numbers_record hx).1 hinf
  refine ⟨fun x hx => (Outcome.mem_numbers_record hx).1, fun x hx => ho.finite_or_deviation hx, hiff,
    fun hsmall => hiff.mpr ?_⟩
  dsimp only [Outcome.listed, Outcome.statistic] at hsmall ⊢
  cases hsummary : outcome.summary with
  | error fault => exact not_isInf_nan
  | ok summary =>
    rw [hsummary] at hsmall
    exact not_isInf_of_isFinite ((ho.summary summary hsummary).small hsmall)

/-- An outcome with results has the summary of them. -/
theorem summary_of_calculateFrom {source : Source Float σ} {seeded : Int → σ} {ambient : σ}
    {request : Request σ} {outcome : Outcome}
    (h : calculateFrom source seeded ambient request = .ok outcome) {first : Float} {rest : List Float}
    (hresults : request.results source seeded ambient = first :: rest) :
    ∃ summary, outcome.summary = .ok summary ∧ summary.results = first :: rest ∧
      deviationOfFinite (first :: rest) = .ok summary.deviation := by
  have hsummary {start : Outcome} {deterministic : Bool} {reason : CalcError Float} {bins : Nat}
      (h : Outcome.withResults start deterministic (first :: rest) reason bins request.percents =
        .ok outcome) :
      ∃ summary, outcome.summary = .ok summary ∧ summary.results = first :: rest ∧
        deviationOfFinite (first :: rest) = .ok summary.deviation := by
    rw [Outcome.withResults, map_eq_ok] at h
    obtain ⟨summary, hsummary, rfl⟩ := h
    rw [mapError_eq_ok] at hsummary
    refine ⟨summary, rfl, ?_⟩
    simp only [Summary.ofResults, bind_eq_ok] at hsummary
    obtain ⟨mean, -, deviation, hdeviation, median, -, entries, -, histogram, -, hsummary⟩ := hsummary
    obtain rfl := Except.ok.inj hsummary
    exact ⟨rfl, hdeviation⟩
  dsimp only [calculateFrom] at h
  dsimp only [Request.results] at hresults
  split at h
  · cases h
  split at h
  · cases h
  split at h
  next hblank =>
    rw [if_pos hblank] at hresults
    cases hresults
  next hblank =>
  rw [if_neg hblank] at hresults
  split at h
  next hdraws =>
    rw [if_pos hdraws] at hresults
    obtain ⟨range, hrange⟩ := Outcome.ofSimulation_start source seeded ambient request
      request.binCount.toNat request.percents
    rw [hrange, Outcome.ofSamples, hresults] at h
    exact hsummary h
  next hdraws =>
    rw [if_neg hdraws] at hresults
    obtain ⟨start, reason, hfixed⟩ := Outcome.ofFixed_eq (.start request) request.binCount.toNat
      request.percents
    rw [hfixed] at h
    have hfinite : finite (fixedValue (Outcome.start request).normalized).toOption.toList = first :: rest :=
      hresults
    rw [hfinite] at h
    exact hsummary h

end

/-! ## A deviation that overflows -/

/-- Two draws. -/
def twoDraws (text : String) (draws : Array Float) : Request Generator where
  expression := text
  iterations := some 2
  bins := some 2
  percentiles := some [.whole 50]
  generator := some (.values draws 0)

/-- What has a mean has an outcome with these results and their deviation. -/
theorem twoDraws_outcome (text : String) (draws : Array Float) :
    let _ := squaringLibrary
    let results := (twoDraws text draws).results Generator.source Generator.ofSeed (.ofSeed 0)
    (meanOfFinite results).toOption.isSome = true → results ≠ [] →
      ∃ outcome, calculate (.ofSeed 0) (twoDraws text draws) = .ok outcome ∧
        outcome.listed (·.results) = results ∧
        deviationOfFinite results = .ok (outcome.statistic (·.deviation)) := by
  intro _ results hmean hne
  have hreasonable : (twoDraws text draws).Reasonable :=
    { iterations := show (1 : Int) ≤ 2 ∧ (2 : Int) ≤ 2 ^ 53 by decide
      bins := show (1 : Int) ≤ 2 ∧ (2 : Int) ≤ Grid.sizeLimit by decide
      percents := fun p hp => by
        obtain rfl := List.mem_singleton.mp hp
        have hfinite : (Binary64.ofInt 50).isFinite = true := by decide +kernel
        exact ⟨_, Percent.toFloat?_whole hfinite⟩ }
  obtain ⟨-, outcome, houtcome⟩ | ⟨hnone, -⟩ := calculateFrom_cases squaringLibrary_squaresBounded
    Generator.source Generator.ofSeed (.ofSeed 0) hreasonable
  · rcases hresults : results with _ | ⟨first, rest⟩
    · exact absurd hresults hne
    · obtain ⟨summary, hsummary, heq, hdeviation⟩ := summary_of_calculateFrom houtcome hresults
      refine ⟨outcome, houtcome, ?_, ?_⟩
      · rw [Outcome.listed, hsummary]
        exact heq
      · rw [Outcome.statistic, hsummary]
        exact hdeviation
  · rcases hcenter : meanOfFinite results with fault | center
    · rw [hcenter] at hmean
      cases hmean
    · exact absurd ⟨center, hcenter⟩ hnone

/-- The deviation of the largest number and its negative is infinite. -/
theorem wholeLine_record_infinite :
    let _ := squaringLibrary
    ∃ outcome, calculate (.ofSeed 0) (twoDraws "1.7976931348623157e308 * (-1~1)" #[-1.0, 1.0]) = .ok outcome ∧
      ∃ x ∈ (outcome.record false).numbers, x.isFinite = false := by
  intro _
  obtain ⟨hmean, hempty, hinfinite⟩ :
      let results := (twoDraws "1.7976931348623157e308 * (-1~1)" #[-1.0, 1.0]).results
        Generator.source Generator.ofSeed (.ofSeed 0)
      (meanOfFinite results).toOption.isSome = true ∧ results.isEmpty = false ∧
        (deviationOfFinite results).toOption.map (fun d => (d.isNaN, d.isFinite)) = some (false, false) := by
    decide +kernel
  obtain ⟨outcome, houtcome, -, hdeviation⟩ := twoDraws_outcome "1.7976931348623157e308 * (-1~1)"
    #[-1.0, 1.0] hmean (List.isEmpty_eq_false_iff.mp hempty)
  rw [hdeviation] at hinfinite
  obtain ⟨hdefined, hinfinite⟩ := Prod.ext_iff.mp (Option.some.inj hinfinite)
  exact ⟨outcome, houtcome, _, Outcome.deviation_mem_record hdefined, hinfinite⟩

/-- The record of a small range is finite. -/
theorem oneToTwo_record_finite :
    let _ := squaringLibrary
    let request := twoDraws "1~2" #[1.25, 1.75]
    squaringLibrary.SquaresBounded ∧ request.iterationCount ≤ 2 ^ 53 ∧ request.binCount ≤ 2 ^ 50 ∧
      ∃ outcome, calculate (.ofSeed 0) request = .ok outcome ∧
        (∀ x ∈ outcome.listed (·.results), x.abs ≤ 1e288) ∧
        ∀ x ∈ (outcome.record true).numbers, x.isFinite = true := by
  intro _ request
  have hiterations : request.iterationCount ≤ 2 ^ 53 := show (2 : Int) ≤ 2 ^ 53 by decide
  have hbins : request.binCount ≤ 2 ^ 50 := show (2 : Int) ≤ 2 ^ 50 by decide
  obtain ⟨hmean, hempty, hsmall⟩ :
      let results := (twoDraws "1~2" #[1.25, 1.75]).results Generator.source Generator.ofSeed (.ofSeed 0)
      (meanOfFinite results).toOption.isSome = true ∧ results.isEmpty = false ∧
        ∀ x ∈ results, x.abs ≤ 1e288 := by decide +kernel
  obtain ⟨outcome, houtcome, hresults, -⟩ := twoDraws_outcome "1~2" #[1.25, 1.75] hmean
    (List.isEmpty_eq_false_iff.mp hempty)
  rw [← hresults] at hsmall
  exact ⟨squaringLibrary_squaresBounded, hiterations, hbins, outcome, houtcome, hsmall,
    (calculateFrom_record_finite squaringLibrary_squaresBounded hiterations hbins houtcome true).2.2.2 hsmall⟩

end RangeCalc
