import RangeCalc.Proofs.Bounds.Extremes

/-!
# Points without a value

Each point that is tried adds a value to the tally or is counted as having none, so that a tally accounts
for every point, even if the formula draws (`Tally.total_ofPoints`). Bounds that are found have the count of
the tally, and so have those of a formula without ranges, of which the empty assignment is the only point.
Bounds over ranges that are not found have no count: no point has a value then, and `invalid` is zero
(`Bounds.ofText_invalid`).
-/

namespace RangeCalc

variable {α σ : Type} [Scalar α] {f : Formula α}

/-- Whether an assignment leaves a variable undefined or gives a formula no finite value. -/
def LacksValue (f : Formula α) (a : Assignment α) : Prop :=
  (∃ p ∈ a, Scalar.isUndefined p.2 = true) ∨
    ∀ x, (∀ (σ : Type) (source : Source α σ) (s : σ), f.toNumber source a.value? s = (.ok x, s)) →
      Scalar.isFinite x = false

theorem lacksValue_iff {a : Assignment α} : LacksValue f a ↔ ¬ ∃ x, HasFiniteValue f a x := by
  constructor
  · rintro (⟨p, hp, hundefined⟩ | hno) ⟨x, hx⟩
    · exact absurd ((hx.defined p hp).symm.trans hundefined) (by decide)
    · exact absurd ((hno x hx.value).symm.trans hx.finite) (by decide)
  · intro hno
    by_cases hdefined : ∀ p ∈ a, Scalar.isUndefined p.2 = false
    · exact .inr fun x hx => Bool.eq_false_iff.mpr fun hfinite => hno ⟨x, hdefined, hx, hfinite⟩
    · push Not at hdefined
      obtain ⟨p, hp, hundefined⟩ := hdefined
      exact .inl ⟨p, hp, by simpa using hundefined⟩

theorem finiteValue?_eq_none_iff (hf : f.isProbabilistic = false) {a : Assignment α} :
    finiteValue? f a = none ↔ LacksValue f a := by
  simp only [lacksValue_iff, ← finiteValue?_eq_some_iff hf, Option.eq_none_iff_forall_ne_some, not_exists,
    ne_eq]

namespace Tally

/-- How many points a tally accounts for. -/
def total (tally : Tally α) : Nat :=
  tally.values.length + tally.invalid

/-- One more point is accounted for, by a value or by the count of points without one. -/
theorem total_add (source : Source α σ) (f : Formula α) (tally : Tally α) (p : Assignment α) (s : σ) :
    (add source f tally p s).1.total = tally.total + 1 := by
  obtain ⟨result, t, hresult⟩ : ∃ result t, (f.toFinite source p.value?).run s = (result, t) := ⟨_, _, rfl⟩
  simp only [add]
  split
  · exact (Nat.add_assoc ..).symm
  · rw [run_bind hresult]
    cases result with
    | error e => exact (Nat.add_assoc ..).symm
    | ok x => exact Nat.add_right_comm ..

theorem total_foldlM (source : Source α σ) (f : Formula α) (points : List (Assignment α)) (tally : Tally α)
    (s : σ) : (points.foldlM (add source f) tally s).1.total = tally.total + points.length := by
  induction points generalizing tally s with
  | nil => rfl
  | cons p points ih =>
    obtain ⟨next, t, hnext⟩ : ∃ next t, add source f tally p s = (next, t) := ⟨_, _, rfl⟩
    have hone : next.total = tally.total + 1 := by rw [← total_add source f tally p s, hnext]
    rw [List.foldlM_cons, run_bind hnext, ih, hone, List.length_cons]
    omega

/-- The values at some points and the points without one are together all the points. -/
theorem total_ofPoints (source : Source α σ) (f : Formula α) (points : List (Assignment α)) (s : σ) :
    (ofPoints source f points s).1.total = points.length := by
  rw [ofPoints, total_foldlM]
  exact Nat.zero_add _

end Tally

namespace Bounds

omit [Scalar α] in
/-- The points at which a formula is evaluated. -/
def points (ranges : List (RangeVar α)) (maxExact : Int) : List (Assignment α) :=
  if ranges = [] then [[]]
  else if maxExact < ranges.length then extremes ranges
  else corners ranges

omit [Scalar α] in
theorem length_points (ranges : List (RangeVar α)) (maxExact : Int) :
    (points ranges maxExact).length =
      if ranges = [] then 1 else if maxExact < ranges.length then 2 else 2 ^ ranges.length := by
  simp only [points]
  split
  · rfl
  · split
    · rfl
    · exact length_corners ranges

/-- How many of the points have no finite value. -/
def lacking (f : Formula α) (ranges : List (RangeVar α)) (maxExact : Int) : Nat :=
  (points ranges maxExact).countP fun a => (finiteValue? f a).isNone

/-- Some point has a value exactly if there are values to be listed. -/
theorem exists_value_iff (hf : f.isProbabilistic = false) {ranges : List (RangeVar α)} {maxExact : Int} :
    (∃ a ∈ points ranges maxExact, ¬ LacksValue f a) ↔
      (points ranges maxExact).filterMap (finiteValue? f) ≠ [] := by
  simp only [ne_eq, List.filterMap_eq_nil_iff, finiteValue?_eq_none_iff hf, not_forall, exists_prop]

section

variable [MathLibrary] {f : Formula Float} (hf : f.isProbabilistic = false)
include hf

/-- The bounds over ranges are found if some point has a value, and then the points without one are counted.
If no point has a value, the count of the tally, which is the number of all points, is given up. -/
theorem ofFormula_invalid (source : Source Float σ) (text : String) {ranges : List (RangeVar Float)}
    (hne : ranges ≠ []) (maxExact : Int) (s : σ) :
    ∃ b, ofFormula source text (.ok f) ranges maxExact s = (b, s) ∧
      (b.found = true ↔ ∃ a ∈ points ranges maxExact, ¬ LacksValue f a) ∧
      (b.found = true → b.invalid = lacking f ranges maxExact) ∧
      (b.found = false → b.invalid = 0 ∧ lacking f ranges maxExact = (points ranges maxExact).length) := by
  have hempty : ranges.isEmpty = false := by simpa using hne
  have hpoints : (if decide (maxExact < ranges.length) then extremes ranges else corners ranges) =
      points ranges maxExact := by simp only [points, hne, if_false, decide_eq_true_eq]
  have htally := Tally.ofPoints_of_not_isProbabilistic source hf (points ranges maxExact) s
  have htotal := Tally.total_ofPoints source f (points ranges maxExact) s
  rw [htally] at htotal
  rw [exists_value_iff hf]
  simp only [ofFormula, hempty, Bool.false_eq_true, if_false, hpoints]
  rw [run_bind htally, List.reverse_reverse]
  cases h : (points ranges maxExact).filterMap (finiteValue? f) with
  | nil =>
    have hall : lacking f ranges maxExact = (points ranges maxExact).length := by
      rw [← htotal, Tally.total, h, List.reverse_nil, List.length_nil, Nat.zero_add, lacking]
    refine ⟨_, rfl, ?_, fun hfound => ?_, fun _ => ⟨rfl, hall⟩⟩
    · simp [found_none]
    · simp [found_none] at hfound
  | cons x rest =>
    have hfinite : ∀ y ∈ x :: rest, y.isFinite = true := fun y hy => by
      obtain ⟨a, -, ha⟩ := List.mem_filterMap.mp (h ▸ hy)
      exact ((finiteValue?_eq_some_iff hf).mp ha).finite
    have hfound := (holdsExtremes_least_greatest hfinite
      (rangeNotes ranges ++ if decide (maxExact < ranges.length) then [.approximate maxExact] else [])
      (decide (maxExact < ranges.length)) (lacking f ranges maxExact)).found_iff.mpr ⟨x, List.mem_cons_self⟩
    exact ⟨_, rfl, iff_of_true hfound (List.cons_ne_nil _ _), fun _ => rfl,
      fun hno => absurd (hfound.symm.trans hno) (by decide)⟩

/-- The bounds of a formula without ranges: its one point is counted if it has no value. -/
theorem ofFixed_invalid (text : String) (maxExact : Int) :
    ((ofFixed text (.ok f)).found = true ↔ ∃ a ∈ points [] maxExact, ¬ LacksValue f a) ∧
      (ofFixed text (.ok f)).invalid = lacking f [] maxExact := by
  have hpoints : points ([] : List (RangeVar Float)) maxExact = [[]] := rfl
  have hvalue (x : Float) : finiteValue? f [] = some x ↔ f.fixedValue text = .ok x ∧ x.isFinite = true :=
    (finiteValue?_eq_some_iff hf).trans (hasFiniteValue_nil_iff hf text)
  rw [exists_value_iff hf, lacking, hpoints]
  rcases ofFixed_cases text f with ⟨x, h, hx, hfixed⟩ | ⟨h, e, hfixed⟩
  · have hsome := (hvalue x).mpr ⟨h, hx⟩
    have hfound : found ⟨x, x, [], false, 0⟩ = true := by
      simp only [found, Scalar.isUndefined, Binary64.not_isNaN_of_isFinite hx, Bool.or_self, Bool.not_false]
    rw [hfixed]
    exact ⟨iff_of_true hfound (by simp [hsome]), by simp [hsome]⟩
  · have hnone : finiteValue? f [] = Option.none := Option.eq_none_iff_forall_ne_some.mpr fun x hx => by
      obtain ⟨hok, hfinite⟩ := (hvalue x).mp hx
      exact absurd (hfinite.symm.trans (h x hok)) (by decide)
    rw [hfixed]
    exact ⟨iff_of_false (by simp [found_none]) (by simp [hnone]), by simp [hnone, none]⟩

/-- The bounds of a text that makes no draw, over any ranges, are found exactly if it has a value at one of
the points. If they are found, or if there are no ranges, `invalid` is the number of points that have an
undefined coordinate or no finite value; bounds over ranges that are not found have the count zero. -/
theorem ofText_invalid (source : Source Float σ) {text : String}
    (hcompile : compile text = .ok f) (ranges : List (RangeVar Float)) (maxExact : Int) (s : σ) :
    (points ranges maxExact).length =
        (if ranges = [] then 1 else if maxExact < ranges.length then 2 else 2 ^ ranges.length) ∧
      (∀ a, finiteValue? f a = Option.none ↔ LacksValue f a) ∧
      ∃ b, ofText source text ranges maxExact s = (b, s) ∧
        (b.found = true ↔ ∃ a ∈ points ranges maxExact, ¬ LacksValue f a) ∧
        (ranges = [] ∨ b.found = true →
          b.invalid = (points ranges maxExact).countP fun a => (finiteValue? f a).isNone) ∧
        (ranges ≠ [] → b.found = false → b.invalid = 0) := by
  refine ⟨length_points ranges maxExact, fun a => finiteValue?_eq_none_iff hf, ?_⟩
  rw [ofText, hcompile]
  by_cases hne : ranges = []
  · subst hne
    obtain ⟨hfound, hinvalid⟩ := ofFixed_invalid hf text maxExact
    exact ⟨_, rfl, hfound, fun _ => hinvalid, fun hne => absurd rfl hne⟩
  · obtain ⟨b, hb, hfound, hcount, hlost⟩ := ofFormula_invalid hf source text hne maxExact s
    exact ⟨b, hb, hfound, fun h => hcount (h.resolve_left hne), fun _ hno => (hlost hno).1⟩

end

/-- A reciprocal over two ranges, one of them from zero and the other with an undefined bound: of the four
corners one has a value. -/
theorem reciprocalOverZero_invalid :
    let ranges : List (RangeVar Float) := [⟨"a", ⟨0, 2⟩⟩, ⟨"b", ⟨Binary64.nan, 4⟩⟩]
    ∃ f : Formula Float, compile "b / a" = .ok f ∧ f.isProbabilistic = false ∧
      ∃ b, ofText Generator.source "b / a" ranges 8 (.ofSeed 0) = (b, .ofSeed 0) ∧ b.found = true ∧
        b.invalid = 3 := by
  intro ranges
  have hcompile : compile "b / a" = .ok (.binary .div (.var "b") (.var "a") : Formula Float) := by cbv
  have hcount : lacking (.binary .div (.var "b") (.var "a") : Formula Float) ranges 8 = 3 := by decide +kernel
  have hvalue : (ofText Generator.source "b / a" ranges 8 (.ofSeed 0)).1.found = true := by decide +kernel
  obtain ⟨-, -, b, hb, -, hinvalid, -⟩ :=
    ofText_invalid rfl Generator.source hcompile ranges 8 (.ofSeed 0)
  rw [hb] at hvalue
  exact ⟨_, hcompile, rfl, b, hb, hvalue, (hinvalid (.inr hvalue)).trans hcount⟩

/-- A division by zero over one range: neither corner has a value, and none is counted. -/
theorem divisionByZero_uncounted :
    let ranges : List (RangeVar Float) := [⟨"a", ⟨1, 2⟩⟩]
    ∃ f : Formula Float, compile "a / 0" = .ok f ∧ f.isProbabilistic = false ∧
      ((points ranges 8).countP fun a => (finiteValue? f a).isNone) = 2 ∧
      (ofText Generator.source "a / 0" ranges 8 (.ofSeed 0)).1.invalid = 0 := by
  have hcompile : compile "a / 0" = .ok (.binary .div (.var "a") (.number 0) : Formula Float) := by cbv
  exact ⟨_, hcompile, rfl, by decide +kernel, by decide +kernel⟩

end Bounds

end RangeCalc
