import RangeCalc.Proofs.Bounds.Tally
import RangeCalc.Proofs.Formula.Drawing
import RangeCalc.Proofs.Range.Corner
import RangeCalc.Proofs.Statistics.Extremes
import RangeCalc.Random

/-!
# Bounds are the extremes of the values

A formula that makes no draw has at each assignment one finite value or none (`finiteValue?_eq_some_iff`),
and the assignments that are tried are the choices of one bound for each range, of which only two remain
above the limit (`mem_points_iff`). The bounds that are found are the least and the greatest of the finite
values there.

* `Bounds.IsTried`, `HasFiniteValue`, `Bounds.IsValue`: what is tried, and the values;
* `Bounds.HoldsExtremes`: bounds that are the extremes of some values;
* `Bounds.ofText_extremes`: the bounds of a text.
-/

namespace RangeCalc

variable {α σ : Type}

/-! ## Values at assignments -/

/-- Whether a formula has a finite value at an assignment that leaves no variable undefined, from every
source and without a draw. -/
structure HasFiniteValue [Scalar α] (f : Formula α) (a : Assignment α) (x : α) : Prop where
  defined : ∀ p ∈ a, Scalar.isUndefined p.2 = false
  value : ∀ (σ : Type) (source : Source α σ) (s : σ), f.toNumber source a.value? s = (.ok x, s)
  finite : Scalar.isFinite x = true

section

variable [Scalar α] {f : Formula α} {source : Source α σ}

theorem HasFiniteValue.unique {a : Assignment α} {x y : α} (hx : HasFiniteValue f a x)
    (hy : HasFiniteValue f a y) : x = y := by
  have hxy := (hx.value Unit ⟨fun low _ state => (low, state)⟩ ()).symm.trans (hy.value Unit _ ())
  exact Except.ok.inj (congrArg Prod.fst hxy)

/-- The finite value of a formula at an assignment, if there is one. -/
def finiteValue? (f : Formula α) (a : Assignment α) : Option α :=
  if a.any fun (_, x) => Scalar.isUndefined x then none
  else (f.toFinite ⟨fun low _ state => (low, state)⟩ a.value? ()).1.toOption

theorem finiteValue?_eq_some_iff (hf : f.isProbabilistic = false) {a : Assignment α} {x : α} :
    finiteValue? f a = some x ↔ HasFiniteValue f a x := by
  obtain ⟨r, hr⟩ := (f.drawsOnlyIf_toNumber a.value?).2 hf
  have hfinite : (f.toFinite ⟨fun low _ state => (low, state)⟩ a.value? ()).1.toOption = some x ↔
      r = .ok x ∧ Scalar.isFinite x = true := by
    rw [Formula.toFinite]
    rcases r with e | y
    · rw [Draws.bind_error (hr Unit _ ())]
      exact iff_of_false (by simp [Except.toOption]) (by simp)
    · rw [Draws.bind_ok (hr Unit _ ())]
      by_cases hy : Scalar.isFinite y = true
      · rw [if_pos hy]
        refine ⟨fun h => ?_, fun h => Except.ok.inj h.1 ▸ rfl⟩
        obtain rfl : y = x := Option.some.inj h
        exact ⟨rfl, hy⟩
      · rw [if_neg hy]
        exact iff_of_false (fun h => Option.some_ne_none x h.symm) fun h => hy (Except.ok.inj h.1 ▸ h.2)
  have hdefined : (a.any fun (_, y) => Scalar.isUndefined y) = false ↔
      ∀ p ∈ a, Scalar.isUndefined p.2 = false := by
    simp only [List.any_eq_false, Bool.not_eq_true]
  rw [finiteValue?]
  cases h : a.any fun (_, y) => Scalar.isUndefined y with
  | true =>
    rw [if_pos rfl]
    exact iff_of_false (Option.some_ne_none x).symm fun hv => by simp [hdefined.mpr hv.defined] at h
  | false =>
    rw [if_neg Bool.false_ne_true, hfinite]
    refine ⟨fun hx => ⟨hdefined.mp h, fun σ source s => hx.1 ▸ hr σ source s, hx.2⟩, fun hv => ?_⟩
    exact ⟨congrArg Prod.fst ((hr Unit ⟨fun low _ state => (low, state)⟩ ()).symm.trans
      (hv.value Unit _ ())), hv.finite⟩

theorem Tally.add_of_not_isProbabilistic (hf : f.isProbabilistic = false) (tally : Tally α)
    (a : Assignment α) (s : σ) : add source f tally a s = (tally.record (finiteValue? f a), s) := by
  obtain ⟨r, hr⟩ : ∃ r, ∀ (σ : Type) (source : Source α σ) (s : σ),
      (f.toFinite source a.value?).run s = (r, s) := (f.drawsOnlyIf_toFinite a.value?).2 hf
  have hfixed : (f.toFinite ⟨fun low _ state => (low, state)⟩ a.value? ()).1 = r :=
    congrArg Prod.fst (hr Unit _ ())
  rw [add, finiteValue?]
  cases a.any fun (_, x) => Scalar.isUndefined x with
  | true => rfl
  | false =>
    rw [if_neg Bool.false_ne_true, if_neg Bool.false_ne_true, hfixed, run_bind (hr σ source s)]
    rcases r with e | x <;> rfl

/-- The values of a formula that makes no draw, in the order of the points. -/
theorem Tally.ofPoints_of_not_isProbabilistic (source : Source α σ) (hf : f.isProbabilistic = false)
    (points : List (Assignment α)) (s : σ) :
    ofPoints source f points s =
      (⟨(points.filterMap (finiteValue? f)).reverse,
        points.countP fun a => (finiteValue? f a).isNone⟩, s) :=
  ofPoints_eq (finiteValue? f) fun a _ tally => add_of_not_isProbabilistic hf tally a s

end

namespace Bounds

/-! ## What is tried -/

/-- Whether an assignment chooses one of the bounds of each range; above the limit of ranges the choice
is the same for all of them. -/
def IsTried (ranges : List (RangeVar α)) (maxExact : Int) (a : Assignment α) : Prop :=
  ∃ choose : Nat → Bool,
    a = ranges.mapIdx (fun j r => (r.name, if choose j then r.interval.max else r.interval.min)) ∧
      (maxExact < ranges.length → ∀ j k, choose j = choose k)

theorem mem_points_iff {ranges : List (RangeVar α)} (hn : (ranges.map (·.name)).Nodup) {maxExact : Int}
    {a : Assignment α} :
    a ∈ (if decide (maxExact < ranges.length) then extremes ranges else corners ranges) ↔
      IsTried ranges maxExact a := by
  simp only [IsTried, ← boundsAt_eq_mapIdx _ hn, decide_eq_true_eq]
  split
  next hover =>
    simp only [extremes, List.mem_cons, List.not_mem_nil, or_false]
    constructor
    · rintro (rfl | rfl)
      · exact ⟨fun _ => false, rfl, fun _ _ _ => rfl⟩
      · exact ⟨fun _ => true, rfl, fun _ _ _ => rfl⟩
    · rintro ⟨choose, rfl, hsame⟩
      have hconst : choose = fun _ => choose 0 := funext fun j => hsame hover j 0
      rw [hconst]
      cases choose 0
      · exact .inl rfl
      · exact .inr rfl
  next hup =>
    rw [mem_corners_iff]
    exact exists_congr fun choose => (and_iff_left fun hover => absurd hover hup).symm

theorem rangeNotes_eq_nil_iff [Scalar α] {ranges : List (RangeVar α)} :
    rangeNotes ranges = [] ↔ ∀ r ∈ ranges, r.interval.isValid = true := by
  rw [rangeNotes, List.filterMap_eq_nil_iff]
  constructor
  · intro h r hr
    obtain ⟨j, hj, rfl⟩ := List.mem_iff_getElem.mp hr
    have hnone := h (j, ranges[j].interval.isValid) (List.mem_mapIdx.mpr ⟨j, hj, rfl⟩)
    by_contra hinvalid
    simp [hinvalid] at hnone
  · intro h p hp
    obtain ⟨j, hj, rfl⟩ := List.mem_mapIdx.mp hp
    simp [h _ (List.getElem_mem hj)]

section

variable [MathLibrary]

/-- Whether a number is the finite value of a text at one of the assignments that are tried. -/
def IsValue (text : String) (ranges : List (RangeVar Float)) (maxExact : Int) (x : Float) : Prop :=
  ∃ f a, compile text = .ok f ∧ IsTried ranges maxExact a ∧ HasFiniteValue f a x

/-! ## The extremes -/

/-- Whether bounds are found exactly if there are values, and are then the least and the greatest of them;
bounds that are not found are undefined and come with a note. -/
structure HoldsExtremes (b : Bounds Float) (IsValue : Float → Prop) : Prop where
  found_iff : b.found = true ↔ ∃ x, IsValue x
  of_found : b.found = true →
    IsValue b.min ∧ IsValue b.max ∧ ∀ x, IsValue x → b.min ≤ x ∧ x ≤ b.max
  of_not_found : b.found = false → b.min.isNaN = true ∧ b.max.isNaN = true ∧ b.notes ≠ []

theorem HoldsExtremes.congr {b : Bounds Float} {P Q : Float → Prop} (h : b.HoldsExtremes P)
    (hPQ : ∀ x, P x ↔ Q x) : b.HoldsExtremes Q :=
  (funext fun x => propext (hPQ x) : P = Q) ▸ h

theorem found_none (notes : List (BoundsNote Float)) (approximate : Bool) (invalid : Nat) :
    found (none notes approximate invalid) = false := by
  have hnan : Binary64.nan.isNaN = true := by decide +kernel
  simp only [found, none, Scalar.isUndefined, Scalar.undefined, hnan, Bool.or_self, Bool.not_true]

theorem holdsExtremes_none {IsValue : Float → Prop} (h : ∀ x, ¬ IsValue x) (e : CalcError Float)
    (notes : List (BoundsNote Float)) (approximate : Bool) (invalid : Nat) :
    HoldsExtremes (none (.failed e :: notes) approximate invalid) IsValue := by
  have hnan : Binary64.nan.isNaN = true := by decide +kernel
  have hnot : found (none (.failed e :: notes) approximate invalid) ≠ true := by simp [found_none]
  exact ⟨iff_of_false hnot fun ⟨x, hx⟩ => h x hx, fun hfound => absurd hfound hnot,
    fun _ => ⟨hnan, hnan, List.cons_ne_nil _ _⟩⟩

theorem holdsExtremes_least_greatest {x : Float} {rest : List Float}
    (hfinite : ∀ y ∈ x :: rest, y.isFinite = true) (notes : List (BoundsNote Float))
    (approximate : Bool) (invalid : Nat) :
    HoldsExtremes ⟨Scalar.least x rest, Scalar.greatest x rest, notes, approximate, invalid⟩
      (· ∈ x :: rest) := by
  obtain ⟨hleast, hmin⟩ := isLeast_least hfinite
  obtain ⟨hgreatest, hmax⟩ := isGreatest_greatest hfinite
  have hfound : found ⟨Scalar.least x rest, Scalar.greatest x rest, notes, approximate, invalid⟩ = true := by
    simp only [found, Scalar.isUndefined, Binary64.not_isNaN_of_isFinite (hfinite _ hleast),
      Binary64.not_isNaN_of_isFinite (hfinite _ hgreatest), Bool.or_self, Bool.not_false]
  refine ⟨iff_of_true hfound ⟨x, List.mem_cons_self⟩, fun _ => ?_, fun hno => ?_⟩
  · exact ⟨hleast, hgreatest, fun y hy => ⟨hmin y hy, hmax y hy⟩⟩
  · exact absurd (hfound.symm.trans hno) (by decide)

/-! ## The bounds of a text -/

/-- The bounds over some ranges, from the values at the points that are tried. -/
theorem ofFormula_of_not_isProbabilistic (source : Source Float σ) (text : String) {f : Formula Float}
    (hf : f.isProbabilistic = false) {ranges : List (RangeVar Float)} (hne : ranges ≠ [])
    (hn : (ranges.map (·.name)).Nodup) (maxExact : Int) (s : σ) :
    ∃ b, ofFormula source text (.ok f) ranges maxExact s = (b, s) ∧
      b.HoldsExtremes (fun x => ∃ a, IsTried ranges maxExact a ∧ HasFiniteValue f a x) ∧
      b.approximate = decide (maxExact < ranges.length) ∧
      (b.found = true → b.notes =
        rangeNotes ranges ++ if b.approximate then [.approximate maxExact] else []) ∧
      ((∀ a, IsTried ranges maxExact a → ∃ x, HasFiniteValue f a x) → b.invalid = 0) := by
  have hempty : ranges.isEmpty = false := by simpa using hne
  obtain ⟨points, hpoints⟩ : ∃ points, points =
    if decide (maxExact < ranges.length) then extremes ranges else corners ranges := ⟨_, rfl⟩
  have hvalues : ∀ x, x ∈ points.filterMap (finiteValue? f) ↔
      ∃ a, IsTried ranges maxExact a ∧ HasFiniteValue f a x := fun x => by
    simp only [List.mem_filterMap, hpoints, mem_points_iff hn, finiteValue?_eq_some_iff hf]
  have htally := Tally.ofPoints_of_not_isProbabilistic source hf points s
  simp only [ofFormula, hempty, Bool.false_eq_true, if_false, ← hpoints]
  rw [run_bind htally, List.reverse_reverse]
  cases h : points.filterMap (finiteValue? f) with
  | nil =>
    rw [h] at hvalues
    have hno := fun x hx => List.not_mem_nil ((hvalues x).mpr hx)
    exact ⟨_, rfl, holdsExtremes_none hno _ _ _ _, rfl, fun hfound => by simp [found_none] at hfound,
      fun _ => rfl⟩
  | cons x rest =>
    rw [h] at hvalues
    have hfinite : ∀ y ∈ x :: rest, y.isFinite = true := fun y hy => by
      obtain ⟨a, -, ha⟩ := (hvalues y).mp hy
      exact ha.finite
    refine ⟨_, rfl, (holdsExtremes_least_greatest hfinite _ _ _).congr hvalues, rfl, fun _ => rfl,
      fun hall => List.countP_eq_zero.mpr fun a ha => ?_⟩
    obtain ⟨y, hy⟩ := hall a ((mem_points_iff hn).mp (hpoints ▸ ha))
    simp [(finiteValue?_eq_some_iff hf).mpr hy]

theorem hasFiniteValue_nil_iff {f : Formula Float} (hf : f.isProbabilistic = false) (text : String)
    {x : Float} :
    HasFiniteValue f [] x ↔ f.fixedValue text = .ok x ∧ x.isFinite = true := by
  obtain ⟨r, hr⟩ : ∃ r, ∀ (σ : Type) (source : Source Float σ) (s : σ),
      f.toNumber source (fun _ => Option.none) s = (r, s) := (f.drawsOnlyIf_toNumber _).2 hf
  have hfixed : f.fixedValue text = r.mapError .eval := by
    rw [Formula.fixedValue, hf, if_neg Bool.false_ne_true]
    exact congrArg (fun p => Except.mapError CalcError.eval p.1) (hr Unit _ ())
  rw [hfixed]
  constructor
  · intro h
    have hok : r = .ok x := congrArg Prod.fst ((hr Unit ⟨fun low _ state => (low, state)⟩ ()).symm.trans
      (h.value Unit _ ()))
    exact ⟨hok ▸ rfl, h.finite⟩
  · rintro ⟨hok, hx⟩
    rcases r with e | y
    · cases hok
    · cases hok
      exact ⟨nofun, hr, hx⟩

theorem ofFixed_cases (text : String) (f : Formula Float) :
    (∃ x, f.fixedValue text = .ok x ∧ x.isFinite = true ∧ ofFixed text (.ok f) = ⟨x, x, [], false, 0⟩) ∨
      ((∀ x, f.fixedValue text = .ok x → x.isFinite = false) ∧
        ∃ e, ofFixed text (.ok f) = none [.failed e] false 1) := by
  have hbind : (Except.ok f).mapError (CalcError.compile (α := Float)) = .ok f := rfl
  cases h : f.fixedValue text with
  | error e =>
    refine .inr ⟨nofun, e, ?_⟩
    simp only [ofFixed, hbind, bind, Except.bind, h]
  | ok x =>
    cases hx : x.isFinite with
    | true =>
      refine .inl ⟨x, rfl, hx, ?_⟩
      simp only [ofFixed, hbind, bind, Except.bind, h, Scalar.isFinite, hx, if_true, pure, Except.pure]
    | false =>
      refine .inr ⟨fun y hy => Except.ok.inj hy ▸ hx, .eval (.notFinite x), ?_⟩
      simp only [ofFixed, hbind, bind, Except.bind, h, Scalar.isFinite, hx, Bool.false_eq_true, if_false,
        throw, throwThe, MonadExceptOf.throw]

/-- The bounds of a text without ranges, from its value. -/
theorem ofFixed_of_not_isProbabilistic {f : Formula Float} (hf : f.isProbabilistic = false)
    (text : String) (maxExact : Int) :
    (ofFixed text (.ok f)).HoldsExtremes
        (fun x => ∃ a, IsTried [] maxExact a ∧ HasFiniteValue f a x) ∧
      (ofFixed text (.ok f)).approximate = false ∧
      ((ofFixed text (.ok f)).found = true → (ofFixed text (.ok f)).notes = []) := by
  have hvalues : ∀ x, (∃ a, IsTried [] maxExact a ∧ HasFiniteValue f a x) ↔
      f.fixedValue text = .ok x ∧ x.isFinite = true := fun x => by
    rw [← hasFiniteValue_nil_iff hf text]
    constructor
    · rintro ⟨a, ⟨choose, rfl, -⟩, hx⟩
      exact hx
    · exact fun hx => ⟨[], ⟨fun _ => false, rfl, fun _ _ _ => rfl⟩, hx⟩
  rcases ofFixed_cases text f with ⟨x, h, hx, hfixed⟩ | ⟨h, e, hfixed⟩
  · have hone : ∀ y, y ∈ [x] ↔ ∃ a, IsTried [] maxExact a ∧ HasFiniteValue f a y := fun y => by
      rw [hvalues, h, List.mem_singleton, Except.ok.injEq]
      exact ⟨fun hy => ⟨hy.symm, hy ▸ hx⟩, fun hy => hy.1.symm⟩
    have hfinite : ∀ y ∈ [x], y.isFinite = true := fun y hy => by rwa [List.mem_singleton.mp hy]
    have hbounds := holdsExtremes_least_greatest hfinite [] false 0
    rw [hfixed]
    exact ⟨hbounds.congr hone, rfl, fun _ => rfl⟩
  · have hno : ∀ x, ¬ ∃ a, IsTried [] maxExact a ∧ HasFiniteValue f a x := fun x hx => by
      obtain ⟨hok, hfinite⟩ := (hvalues x).mp hx
      exact absurd (hfinite.symm.trans (h x hok)) (by decide)
    rw [hfixed]
    exact ⟨holdsExtremes_none hno e [] false 1, rfl, fun hfound => by simp [found_none] at hfound⟩

omit [MathLibrary] in
theorem noteText?_eq_none_iff {b : Bounds Float} : b.noteText? = Option.none ↔ b.notes = [] := by
  rw [noteText?]
  split
  next h => exact iff_of_true rfl (List.isEmpty_iff.mp h)
  next h => exact iff_of_false nofun fun hnil => h (List.isEmpty_iff.mpr hnil)

/-- The bounds of a text that makes no draw, over ranges with different names, are found exactly if one of
the assignments that are tried has a finite value, and are then the least and the greatest of these values.
Otherwise both are undefined, and there is a note. There is no note exactly if bounds were found from all
the choices of bounds, with none of them undefined. -/
theorem ofText_extremes (source : Source Float σ) (text : String) {ranges : List (RangeVar Float)}
    (hn : (ranges.map (·.name)).Nodup) {maxExact : Int} (hmax : 1 ≤ maxExact)
    (hdraws : ∀ f, compile text = .ok f → f.isProbabilistic = false) (s : σ) :
    ∃ b, ofText source text ranges maxExact s = (b, s) ∧
      (b.found = true ↔ ∃ x, IsValue text ranges maxExact x) ∧
      (b.found = true → IsValue text ranges maxExact b.min ∧ IsValue text ranges maxExact b.max ∧
        ∀ x, IsValue text ranges maxExact x → b.min ≤ x ∧ x ≤ b.max) ∧
      (b.found = false → b.min.isNaN = true ∧ b.max.isNaN = true ∧ b.noteText? ≠ Option.none) ∧
      (b.approximate = true ↔ maxExact < ranges.length) ∧
      (b.noteText? = Option.none ↔ b.found = true ∧ b.approximate = false ∧
        ∀ r ∈ ranges, r.interval.min.isNaN = false ∧ r.interval.max.isNaN = false) := by
  suffices h : ∃ b, ofText source text ranges maxExact s = (b, s) ∧
      b.HoldsExtremes (IsValue text ranges maxExact) ∧
      b.approximate = decide (maxExact < ranges.length) ∧
      (b.found = true → b.notes =
        rangeNotes ranges ++ if b.approximate then [.approximate maxExact] else []) by
    obtain ⟨b, hb, hextremes, happrox, hnotes⟩ := h
    have hundefined : b.found = false → b.notes ≠ [] := fun h => (hextremes.of_not_found h).2.2
    simp only [ne_eq, noteText?_eq_none_iff]
    refine ⟨b, hb, hextremes.found_iff, hextremes.of_found, hextremes.of_not_found,
      by rw [happrox, decide_eq_true_eq], ?_⟩
    cases hfound : b.found with
    | false => exact iff_of_false (hundefined hfound) (by simp)
    | true =>
      rw [hnotes hfound, List.append_eq_nil_iff, rangeNotes_eq_nil_iff]
      cases b.approximate <;>
        simp [Interval.isValid, Scalar.isUndefined]
  have hexact : decide (maxExact < ([] : List (RangeVar Float)).length) = false :=
    decide_eq_false (by simp; omega)
  rw [ofText]
  cases h : compile text with
  | error e =>
    have hno : ∀ x, ¬ IsValue text ranges maxExact x := fun x ⟨f, a, hf, _⟩ => by
      rw [h] at hf
      cases hf
    have hbounds (notes approximate invalid) :
        let b := none (.failed (.compile e) :: notes) approximate invalid
        b.HoldsExtremes (IsValue text ranges maxExact) ∧ b.found ≠ true :=
      ⟨holdsExtremes_none hno _ _ _ _, by simp [found_none]⟩
    cases ranges with
    | nil =>
      obtain ⟨hextremes, hfound⟩ := hbounds [] false 1
      exact ⟨_, rfl, hextremes, hexact.symm, fun h => absurd h hfound⟩
    | cons r ranges =>
      obtain ⟨hextremes, hfound⟩ := hbounds _ _ 0
      exact ⟨_, rfl, hextremes, rfl, fun h => absurd h hfound⟩
  | ok f =>
    have hf := hdraws f h
    have hvalues : ∀ x, (∃ a, IsTried ranges maxExact a ∧ HasFiniteValue f a x) ↔
        IsValue text ranges maxExact x := fun x => by
      simp only [IsValue, h, Except.ok.injEq, exists_eq_left', exists_and_left]
    by_cases hne : ranges = []
    · subst hne
      obtain ⟨hextremes, happrox, hnotes⟩ := ofFixed_of_not_isProbabilistic hf text maxExact
      refine ⟨_, rfl, hextremes.congr hvalues, ?_, fun hfound => ?_⟩
      · rw [happrox, hexact]
      · rw [happrox, hnotes hfound]
        rfl
    · obtain ⟨b, hb, hextremes, happrox, hnotes, -⟩ :=
        ofFormula_of_not_isProbabilistic source text hf hne hn maxExact s
      exact ⟨b, hb, hextremes.congr hvalues, happrox, hnotes⟩

end

/-- A quotient over a range with an undefined bound: the two corners without it give the bounds, with a
note. -/
theorem quotientOverUndefined_extremes :
    let ranges : List (RangeVar Float) := [⟨"a", ⟨1, 2⟩⟩, ⟨"b", ⟨Binary64.nan, 4⟩⟩]
    (ranges.map (·.name)).Nodup ∧ (1 : Int) ≤ 8 ∧
      (∀ f, compile "a / b" = .ok f → f.isProbabilistic = false) ∧
      ∃ b, ofText Generator.source "a / b" ranges 8 (.ofSeed 0) = (b, .ofSeed 0) ∧ b.found = true ∧
        IsValue "a / b" ranges 8 b.min ∧ IsValue "a / b" ranges 8 b.max ∧
        (∀ x, IsValue "a / b" ranges 8 x → b.min ≤ x ∧ x ≤ b.max) ∧ b.noteText? ≠ Option.none := by
  intro ranges
  have hn : (ranges.map (·.name)).Nodup := by decide
  have hdraws : ∀ f, compile "a / b" = .ok f → f.isProbabilistic = false := fun f hf => by
    have h : (compile "a / b").toOption.map (·.isProbabilistic) = some false := by decide +kernel
    rw [hf] at h
    exact Option.some.inj h
  have hfound : (ofText Generator.source "a / b" ranges 8 (.ofSeed 0)).1.found = true := by decide +kernel
  have hnan : Binary64.nan.isNaN = true := by decide +kernel
  obtain ⟨b, hb, -, hextremes, -, -, hnote⟩ :=
    ofText_extremes Generator.source "a / b" hn (by decide : (1 : Int) ≤ 8) hdraws (.ofSeed 0)
  rw [hb] at hfound
  obtain ⟨hmin, hmax, hall⟩ := hextremes hfound
  refine ⟨hn, by decide, hdraws, b, hb, hfound, hmin, hmax, hall, fun hnone => ?_⟩
  have hdefined := (hnote.mp hnone).2.2 ⟨"b", ⟨Binary64.nan, 4⟩⟩ (by simp [ranges])
  exact absurd (hnan.symm.trans hdefined.1) (by decide)

end Bounds

end RangeCalc
