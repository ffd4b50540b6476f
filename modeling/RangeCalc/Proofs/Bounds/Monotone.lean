import RangeCalc.Proofs.Bounds.Extremes
import RangeCalc.Proofs.Number.Units

/-!
# Bounds of monotone formulas

A function that is monotone in each coordinate, in a direction that may change with the other coordinates,
is extreme at a corner of the box: each coordinate in turn is moved to the bound in whose direction the
function does not fall (`exists_corner_related`). The corners are all tried, so the bounds enclose the
value at every point of the box, and are values there.

* `pointOf`, `IsMonotoneInEach`: points of the box, and functions monotone in each coordinate;
* `Bounds.ofText_monotone`: the bounds of a formula with such values.
-/

namespace RangeCalc

open Binary64

/-- A point as an assignment to the variables of ranges. -/
def pointOf {α : Type} (ranges : List (RangeVar α)) (x : String → α) : Assignment α :=
  ranges.map fun r => (r.name, x r.name)

/-- Whether a function on a box is non-decreasing or non-increasing in each coordinate, given the others. -/
def IsMonotoneInEach (ranges : List (RangeVar Float)) (F : (String → Float) → Float) : Prop :=
  ∀ x, InBox ranges x → ∀ r ∈ ranges,
    (∀ s t, r.interval.min ≤ s → s ≤ t → t ≤ r.interval.max →
      F (Function.update x r.name s) ≤ F (Function.update x r.name t)) ∨
    (∀ s t, r.interval.min ≤ s → s ≤ t → t ≤ r.interval.max →
      F (Function.update x r.name t) ≤ F (Function.update x r.name s))

/-! ## Corners as points -/

section

variable {α : Type} {ranges : List (RangeVar α)} (hn : (ranges.map (·.name)).Nodup)
include hn

/-- A choice of bounds is a point with a bound in each coordinate. -/
theorem exists_pointOf_eq (choose : Nat → Bool) (default : α) :
    ∃ x : String → α, (∀ r ∈ ranges, x r.name = r.interval.min ∨ x r.name = r.interval.max) ∧
      ranges.mapIdx (fun j r => (r.name, if choose j then r.interval.max else r.interval.min)) =
        pointOf ranges x := by
  let x (name : String) : α := ((boundsAt choose ranges).value? name).getD default
  have hx : ∀ j (hj : j < ranges.length), x ranges[j].name =
      if choose j then ranges[j].interval.max else ranges[j].interval.min := fun j hj => by
    simp only [x, value?_boundsAt choose hn hj, Option.getD_some]
  refine ⟨x, fun r hr => ?_, List.ext_getElem (by simp [pointOf]) fun j hj _ => ?_⟩
  · obtain ⟨j, hj, rfl⟩ := List.mem_iff_getElem.mp hr
    rw [hx j hj]
    cases choose j
    · exact .inl rfl
    · exact .inr rfl
  · have hlength : j < ranges.length := by simpa using hj
    simp only [pointOf, List.getElem_mapIdx, List.getElem_map, hx j hlength]

omit hn in
/-- A point with a bound in each coordinate is a choice of bounds. -/
theorem exists_choose_pointOf {x : String → α}
    (hx : ∀ r ∈ ranges, x r.name = r.interval.min ∨ x r.name = r.interval.max) :
    ∃ choose : Nat → Bool, pointOf ranges x =
      ranges.mapIdx (fun j r => (r.name, if choose j then r.interval.max else r.interval.min)) := by
  classical
  refine ⟨fun j => (ranges[j]?).any fun r => decide (x r.name = r.interval.max),
    List.ext_getElem (by simp [pointOf]) fun j hj _ => ?_⟩
  have hlength : j < ranges.length := by simpa [pointOf] using hj
  simp only [pointOf, List.getElem_mapIdx, List.getElem_map, List.getElem?_eq_getElem hlength,
    Option.any_some, decide_eq_true_eq, Prod.mk.injEq, true_and]
  split
  next h => exact h
  next h => exact (hx _ (List.getElem_mem hlength)).resolve_right h

end

/-! ## Moving a point to a corner -/

theorem Binary64.le_self {x : Float} (h : x.isNaN = false) : x ≤ x :=
  (le_iff_key h h).mpr (le_refl _)

theorem Binary64.le_of_le_of_le {x y z : Float} (hxy : x ≤ y) (hyz : y ≤ z) : x ≤ z := by
  obtain ⟨hx, hy⟩ := not_isNaN_of_le hxy
  have hz := (not_isNaN_of_le hyz).2
  exact (le_iff_key hx hz).mpr (((le_iff_key hx hy).mp hxy).trans ((le_iff_key hy hz).mp hyz))

theorem bounds_le_bounds {r : RangeVar Float} (h : r.interval.min ≤ r.interval.max) :
    r.interval.min ≤ r.interval.min ∧ r.interval.max ≤ r.interval.max := by
  obtain ⟨hmin, hmax⟩ := not_isNaN_of_le h
  exact ⟨le_self hmin, le_self hmax⟩

theorem inBox_of_corner {ranges : List (RangeVar Float)}
    (hle : ∀ r ∈ ranges, r.interval.min ≤ r.interval.max) {x : String → Float}
    (hx : ∀ r ∈ ranges, x r.name = r.interval.min ∨ x r.name = r.interval.max) : InBox ranges x := by
  intro r hr
  obtain ⟨hmin, hmax⟩ := bounds_le_bounds (hle r hr)
  rcases hx r hr with h | h
  · rw [h]
    exact ⟨hmin, hle r hr⟩
  · rw [h]
    exact ⟨hle r hr, hmax⟩

/-- Values that are monotone in each coordinate: with `R` for one of the two orders, the value at a point
is in that order before the value at some corner. -/
theorem exists_corner_related {R : Float → Float → Prop} (htrans : ∀ {u v w}, R u v → R v w → R u w)
    {ranges : List (RangeVar Float)}
    (hn : (ranges.map (·.name)).Nodup) (hle : ∀ r ∈ ranges, r.interval.min ≤ r.interval.max)
    {F : (String → Float) → Float} {x : String → Float} (hx : InBox ranges x) (hself : R (F x) (F x))
    (hmono : ∀ y, InBox ranges y → ∀ r ∈ ranges,
      (∀ s t, r.interval.min ≤ s → s ≤ t → t ≤ r.interval.max →
        R (F (Function.update y r.name s)) (F (Function.update y r.name t))) ∨
      (∀ s t, r.interval.min ≤ s → s ≤ t → t ≤ r.interval.max →
        R (F (Function.update y r.name t)) (F (Function.update y r.name s)))) :
    ∃ y, (∀ r ∈ ranges, y r.name = r.interval.min ∨ y r.name = r.interval.max) ∧ R (F x) (F y) := by
  have hstep : ∀ y, InBox ranges y ∧ R (F x) (F y) → ∀ r ∈ ranges,
      ∃ e, (e = r.interval.min ∨ e = r.interval.max) ∧
        InBox ranges (Function.update y r.name e) ∧ R (F x) (F (Function.update y r.name e)) := by
    rintro y ⟨hy, hrelated⟩ r hr
    obtain ⟨hlow, hhigh⟩ := hy r hr
    obtain ⟨hmin, hmax⟩ := bounds_le_bounds (hle r hr)
    have hmove {e : Float} (he : r.interval.min ≤ e ∧ e ≤ r.interval.max)
        (hR : R (F (Function.update y r.name (y r.name))) (F (Function.update y r.name e))) :
        InBox ranges (Function.update y r.name e) ∧ R (F x) (F (Function.update y r.name e)) := by
      rw [Function.update_eq_self] at hR
      exact ⟨InBox.update hn hy hr he, htrans hrelated hR⟩
    rcases hmono y hy r hr with hup | hdown
    · exact ⟨_, .inr rfl, hmove ⟨hle r hr, hmax⟩ (hup _ _ hlow hhigh hmax)⟩
    · exact ⟨_, .inl rfl, hmove ⟨hmin, hle r hr⟩ (hdown _ _ hmin hlow hhigh)⟩
  obtain ⟨y, ⟨-, hrelated⟩, hcorner⟩ := exists_corner_of_invariant hn hstep ⟨hx, hself⟩
  exact ⟨y, hcorner, hrelated⟩

/-! ## The bounds -/

section

variable [MathLibrary] {f : Formula Float} {ranges : List (RangeVar Float)}
  {F : (String → Float) → Float}

/-- A formula that makes no draw and is monotone in each of its ranges: no corner is left out, and the
bounds that are found enclose the value at every point of the box and are values there. -/
theorem Bounds.ofText_monotone {σ : Type} (source : Source Float σ) {text : String}
    (hcompile : compile text = .ok f) (hf : f.isProbabilistic = false) (hne : ranges ≠ [])
    (hn : (ranges.map (·.name)).Nodup) (hle : ∀ r ∈ ranges, r.interval.min ≤ r.interval.max)
    {maxExact : Int} (hmax : ranges.length ≤ maxExact)
    (hF : ∀ x, InBox ranges x → HasFiniteValue f (pointOf ranges x) (F x))
    (hmono : IsMonotoneInEach ranges F) (s : σ) :
    ∃ b, ofText source text ranges maxExact s = (b, s) ∧ b.invalid = 0 ∧
      (∀ x, InBox ranges x → b.min ≤ F x ∧ F x ≤ b.max) ∧
      (∃ x, InBox ranges x ∧ F x = b.min) ∧ ∃ x, InBox ranges x ∧ F x = b.max := by
  have hself : ∀ x, InBox ranges x → F x ≤ F x := fun x hx =>
    le_self (not_isNaN_of_isFinite (hF x hx).finite)
  -- what is tried are the corners, and the values there are those of `F`
  have hcorner : ∀ x, (∀ r ∈ ranges, x r.name = r.interval.min ∨ x r.name = r.interval.max) →
      ∃ a, IsTried ranges maxExact a ∧ HasFiniteValue f a (F x) := fun x hx => by
    obtain ⟨choose, hchoose⟩ := exists_choose_pointOf hx
    exact ⟨_, ⟨choose, hchoose, fun hover => absurd hover (by omega)⟩, hF x (inBox_of_corner hle hx)⟩
  have htried : ∀ a, IsTried ranges maxExact a → ∃ x, InBox ranges x ∧ HasFiniteValue f a (F x) := by
    rintro a ⟨choose, rfl, -⟩
    obtain ⟨x, hx, hpoint⟩ := exists_pointOf_eq hn choose (0 : Float)
    have hin := inBox_of_corner hle hx
    exact ⟨x, hin, hpoint ▸ hF x hin⟩
  have hattained : ∀ y, (∃ a, IsTried ranges maxExact a ∧ HasFiniteValue f a y) →
      ∃ x, InBox ranges x ∧ F x = y := by
    rintro y ⟨a, ha, hy⟩
    obtain ⟨x, hx, hFx⟩ := htried a ha
    exact ⟨x, hx, hFx.unique hy⟩
  obtain ⟨b, hb, hextremes, -, -, hinvalid⟩ :=
    ofFormula_of_not_isProbabilistic source text hf hne hn maxExact s
  have hfound : b.found = true := by
    obtain ⟨x, hx, -⟩ := exists_pointOf_eq hn (fun _ => false) (0 : Float)
    exact hextremes.found_iff.mpr ⟨F x, hcorner x hx⟩
  obtain ⟨hbmin, hbmax, hall⟩ := hextremes.of_found hfound
  refine ⟨b, by rw [ofText, hcompile, hb], hinvalid fun a ha => ?_, fun x hx => ⟨?_, ?_⟩,
    hattained _ hbmin, hattained _ hbmax⟩
  · obtain ⟨x, -, hx⟩ := htried a ha
    exact ⟨F x, hx⟩
  · obtain ⟨y, hy, hyx⟩ := exists_corner_related (R := fun u v => v ≤ u)
      (fun huv hvw => le_of_le_of_le hvw huv) hn hle hx (hself x hx)
      (fun y hy r hr => (hmono y hy r hr).symm)
    exact le_of_le_of_le (hall _ (hcorner y hy)).1 hyx
  · obtain ⟨y, hy, hxy⟩ := exists_corner_related (R := fun u v => u ≤ v) le_of_le_of_le hn hle hx
      (hself x hx) hmono
    exact le_of_le_of_le hxy (hall _ (hcorner y hy)).2

end

/-! ## A product -/

theorem Binary64.mul_le_mul_of_units {x y z w : Float} (hx : x.isFinite = true) (hy : y.isFinite = true)
    (hz : z.isFinite = true) (hw : w.isFinite = true) (h : units x * units y ≤ units z * units w) :
    x * y ≤ z * w := by
  have hxy := rounds_mul hx hy
  have hzw := rounds_mul hz hw
  have hq : (units x : ℚ) * units y / one ≤ (units z : ℚ) * units w / one :=
    div_le_div_of_nonneg_right (by exact_mod_cast h) (Nat.cast_nonneg one)
  exact (le_iff_key hxy.defined hzw.defined).mpr (hxy.key_mono hzw hq)

/-- Products with a finite number keep or turn the order of the numbers of a finite interval, on both
sides. -/
theorem mul_monotone_or_antitone {low high y : Float} (hlow : low.isFinite = true)
    (hhigh : high.isFinite = true) (hy : y.isFinite = true) :
    (∀ s t, low ≤ s → s ≤ t → t ≤ high → s * y ≤ t * y ∧ y * s ≤ y * t) ∨
      (∀ s t, low ≤ s → s ≤ t → t ≤ high → t * y ≤ s * y ∧ y * t ≤ y * s) := by
  have hunits : ∀ s t, low ≤ s → s ≤ t → t ≤ high →
      s.isFinite = true ∧ t.isFinite = true ∧ units s ≤ units t := fun s t hs hst ht => by
    have hsfinite := (isFinite_of_between hlow hhigh hs (le_of_le_of_le hst ht)).1
    have htfinite := (isFinite_of_between hlow hhigh (le_of_le_of_le hs hst) ht).1
    exact ⟨hsfinite, htfinite, (le_iff_units hsfinite htfinite).mp hst⟩
  rcases le_total 0 (units y) with hsign | hsign
  · refine .inl fun s t hs hst ht => ?_
    obtain ⟨hsfinite, htfinite, hle⟩ := hunits s t hs hst ht
    exact ⟨mul_le_mul_of_units hsfinite hy htfinite hy (Int.mul_le_mul_of_nonneg_right hle hsign),
      mul_le_mul_of_units hy hsfinite hy htfinite (Int.mul_le_mul_of_nonneg_left hle hsign)⟩
  · refine .inr fun s t hs hst ht => ?_
    obtain ⟨hsfinite, htfinite, hle⟩ := hunits s t hs hst ht
    exact ⟨mul_le_mul_of_units htfinite hy hsfinite hy (Int.mul_le_mul_of_nonpos_right hle hsign),
      mul_le_mul_of_units hy htfinite hy hsfinite (Int.mul_le_mul_of_nonpos_left hsign hle)⟩

/-- A product of two ranges around zero, of which each is a reason for the other to change direction. -/
theorem productAroundZero_bounds :
    let ranges : List (RangeVar Float) := [⟨"a", ⟨-1, 2⟩⟩, ⟨"b", ⟨-3, 1⟩⟩]
    let f : Formula Float := .binary .mul (.var "a") (.var "b")
    let F (x : String → Float) : Float := x "a" * x "b"
    compile "a * b" = .ok f ∧ f.isProbabilistic = false ∧ ranges ≠ [] ∧ (ranges.map (·.name)).Nodup ∧
      (∀ r ∈ ranges, r.interval.min ≤ r.interval.max) ∧ (ranges.length : Int) ≤ 8 ∧
      (∀ x, InBox ranges x → HasFiniteValue f (pointOf ranges x) (F x)) ∧ IsMonotoneInEach ranges F ∧
      ∃ b, Bounds.ofText Generator.source "a * b" ranges 8 (.ofSeed 0) = (b, .ofSeed 0) ∧
        b.invalid = 0 ∧ (∀ x, InBox ranges x → b.min ≤ F x ∧ F x ≤ b.max) ∧
        (∃ x, InBox ranges x ∧ F x = b.min) ∧ ∃ x, InBox ranges x ∧ F x = b.max := by
  intro ranges f F
  have hcompile : compile "a * b" = .ok f := by cbv
  have hle : ∀ r ∈ ranges, r.interval.min ≤ r.interval.max := by decide +kernel
  have ha : (-1 : Float).isFinite = true ∧ (2 : Float).isFinite = true ∧
      units (-1) = -one ∧ units 2 = 2 * one := by decide +kernel
  have hb : (-3 : Float).isFinite = true ∧ (1 : Float).isFinite = true ∧
      units (-3) = -3 * one ∧ units 1 = one := by decide +kernel
  have hF : ∀ x, InBox ranges x → HasFiniteValue f (pointOf ranges x) (F x) := by
    intro x hx
    obtain ⟨hxa, hxb⟩ : ((-1 : Float) ≤ x "a" ∧ x "a" ≤ 2) ∧ (-3 : Float) ≤ x "b" ∧ x "b" ≤ 1 := by
      simpa [InBox, ranges] using hx
    obtain ⟨hfa, hlowa, hhigha⟩ := isFinite_of_between ha.1 ha.2.1 hxa.1 hxa.2
    obtain ⟨hfb, hlowb, hhighb⟩ := isFinite_of_between hb.1 hb.2.1 hxb.1 hxb.2
    refine ⟨fun p hp => ?_, fun σ source s => ?_, ?_⟩
    · obtain rfl | rfl : p = ("a", x "a") ∨ p = ("b", x "b") := by simpa [pointOf, ranges] using hp
      · exact not_isNaN_of_isFinite hfa
      · exact not_isNaN_of_isFinite hfb
    · exact Formula.toNumber_of_eval (Formula.eval_binary .mul (Formula.eval_var rfl) (Formula.eval_var rfl))
    · exact (finite_mul (i := 1) (j := 2) hfa hfb (by decide) (by omega) (by omega)).1
  have hmono : IsMonotoneInEach ranges F := by
    intro x hx r hr
    obtain ⟨hxa, hxb⟩ : ((-1 : Float) ≤ x "a" ∧ x "a" ≤ 2) ∧ (-3 : Float) ≤ x "b" ∧ x "b" ≤ 1 := by
      simpa [InBox, ranges] using hx
    obtain ⟨hfa, -, -⟩ := isFinite_of_between ha.1 ha.2.1 hxa.1 hxa.2
    obtain ⟨hfb, -, -⟩ := isFinite_of_between hb.1 hb.2.1 hxb.1 hxb.2
    obtain rfl | rfl : r = ⟨"a", ⟨-1, 2⟩⟩ ∨ r = ⟨"b", ⟨-3, 1⟩⟩ := by simpa [ranges] using hr
    · simp only [F, Function.update_self, Function.update_of_ne (by decide : "b" ≠ "a")]
      exact (mul_monotone_or_antitone ha.1 ha.2.1 hfb).imp (fun h s t hs hst ht => (h s t hs hst ht).1)
        fun h s t hs hst ht => (h s t hs hst ht).1
    · simp only [F, Function.update_self, Function.update_of_ne (by decide : "a" ≠ "b")]
      exact (mul_monotone_or_antitone hb.1 hb.2.1 hfa).imp (fun h s t hs hst ht => (h s t hs hst ht).2)
        fun h s t hs hst ht => (h s t hs hst ht).2
  exact ⟨hcompile, rfl, by simp [ranges], by decide, hle, by decide, hF, hmono,
    Bounds.ofText_monotone Generator.source hcompile rfl (by simp [ranges]) (by decide) hle (by decide) hF
      hmono (.ofSeed 0)⟩

end RangeCalc
