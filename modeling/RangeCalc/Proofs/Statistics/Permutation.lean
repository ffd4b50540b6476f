import Mathlib.Data.List.Forall2
import RangeCalc.Proofs.Number.Alike
import RangeCalc.Proofs.Statistics.Deviation
import RangeCalc.Proofs.Statistics.Percentile

/-!
# The same numbers in another order

A sum is exact before it is rounded, so the order of its terms matters only to whether it overflows on the
way. Least, greatest and sorted numbers may differ in the signs of zeros.

* `SumsAlike`: two orders of which both sums of the mean overflow, or do not;
* `meanOfFinite_perm`, `deviationOfFinite_perm`: mean and deviation;
* `least_perm`, `greatest_perm`, `ascending_perm`, `percentileOfSorted_agree`: the others.
-/

namespace RangeCalc

open Binary64

namespace Statistics

variable [MathLibrary] {xs ys : List Float}

/-! ## Sums, means and deviations -/

/-- The sums that a mean is made of overflow in both orders or in none. -/
structure SumsAlike (xs ys : List Float) : Prop where
  total : (exactSum? xs).isSome = (exactSum? ys).isSome
  shares : exactSum? xs = none →
    (exactSum? (xs.map (· / ofCount xs.length))).isSome =
      (exactSum? (ys.map (· / ofCount ys.length))).isSome

section

variable (hperm : xs.Perm ys) (hfinite : ∀ x ∈ xs, x.isFinite = true) (hlength : xs.length ≤ 2 ^ 53)

include hperm hfinite hlength

theorem meanOfFinite_perm (hsums : SumsAlike xs ys) : meanOfFinite xs = meanOfFinite ys := by
  rcases eq_or_ne xs [] with rfl | hne
  · rw [hperm.nil_eq]
  have hne' : ys ≠ [] := by
    rintro rfl
    exact hne hperm.eq_nil
  rw [meanOfFinite_eq hne hlength, meanOfFinite_eq hne' (hperm.length_eq ▸ hlength),
    ← exactSum?_perm hfinite hperm hsums.total, ← hperm.length_eq]
  cases hsum : exactSum? xs with
  | some total => rfl
  | none =>
    have hpos := List.length_pos_of_ne_nil hne
    have hshares : ∀ y ∈ xs.map (· / ofCount xs.length), y.isFinite = true := by
      intro y hy
      obtain ⟨x, hx, rfl⟩ := List.mem_map.mp hy
      exact (finite_div_ofCount (hfinite x hx) hlength hpos).1
    have h := hsums.shares hsum
    rw [← hperm.length_eq] at h
    dsimp only [sum]
    rw [show Scalar.sum? (xs.map _) = _ from exactSum?_perm hshares (hperm.map _) h]
    rfl

end

section

variable {first first' : Float} {rest rest' : List Float}
  (hperm : (first :: rest).Perm (first' :: rest')) (hfinite : ∀ x ∈ first :: rest, x.isFinite = true)

include hperm hfinite

theorem least_perm : Alike (Scalar.least first rest) (Scalar.least first' rest') := by
  obtain ⟨hmem, hle⟩ := isLeast_least hfinite
  obtain ⟨hmem', hle'⟩ := isLeast_least fun x hx => hfinite x (hperm.mem_iff.mpr hx)
  have hx := hfinite _ hmem
  have hy := hfinite _ (hperm.mem_iff.mpr hmem')
  refine (alike_iff_units hx hy).mpr (le_antisymm ?_ ?_)
  · exact (le_iff_units hx hy).mp (hle _ (hperm.mem_iff.mpr hmem'))
  · exact (le_iff_units hy hx).mp (hle' _ (hperm.mem_iff.mp hmem))

theorem greatest_perm : Alike (Scalar.greatest first rest) (Scalar.greatest first' rest') := by
  obtain ⟨hmem, hge⟩ := isGreatest_greatest hfinite
  obtain ⟨hmem', hge'⟩ := isGreatest_greatest fun x hx => hfinite x (hperm.mem_iff.mpr hx)
  have hx := hfinite _ hmem
  have hy := hfinite _ (hperm.mem_iff.mpr hmem')
  refine (alike_iff_units hx hy).mpr (le_antisymm ?_ ?_)
  · exact (le_iff_units hx hy).mp (hge' _ (hperm.mem_iff.mp hmem))
  · exact (le_iff_units hy hx).mp (hge _ (hperm.mem_iff.mpr hmem'))

/-- The greatest absolute value is the same in any order. -/
theorem magnitude_perm : Statistics.magnitude first rest = Statistics.magnitude first' rest' := by
  have habs : ∀ z ∈ (first :: rest).map Float.abs, ∃ x : Float, x.isFinite = true ∧ x.abs = z := by
    intro z hz
    obtain ⟨x, hx, rfl⟩ := List.mem_map.mp hz
    exact ⟨x, hfinite x hx, rfl⟩
  have hmap : (first.abs :: rest.map Float.abs).Perm (first'.abs :: rest'.map Float.abs) :=
    hperm.map Float.abs
  have hmapFinite : ∀ z ∈ first.abs :: rest.map Float.abs, z.isFinite = true := by
    intro z hz
    obtain ⟨x, hx, rfl⟩ := habs z hz
    exact (units_abs hx).1
  have halike := greatest_perm hmap hmapFinite
  obtain ⟨x, hx, hxabs⟩ := habs _ (isGreatest_greatest hmapFinite).1
  obtain ⟨y, hy, hyabs⟩ := habs _ (hmap.mem_iff.mpr
    (isGreatest_greatest fun z hz => hmapFinite z (hmap.mem_iff.mpr hz)).1)
  rw [← hxabs, ← hyabs] at halike
  show Scalar.greatest first.abs (rest.map Float.abs) = Scalar.greatest first'.abs (rest'.map Float.abs)
  rw [← hxabs, ← hyabs]
  exact halike.eq_of_abs hx hy

end

/-- Squares of deviations add up to the same in any order. -/
theorem scaledSquares_perm (hsquares : MathLibrary.SquaresBounded) (hperm : xs.Perm ys)
    (hlength : xs.length ≤ 2 ^ 53) {center scale : Float}
    (hxs : ∀ x ∈ xs, x.isFinite = true ∧ (units x).natAbs ≤ (units scale).natAbs)
    (hcenter : center.isFinite = true) (hscale : scale.isFinite = true) (hne : units scale ≠ 0)
    (hcenterle : (units center).natAbs ≤ 2 ^ 54 * (units scale).natAbs) :
    scaledSquares xs center scale = scaledSquares ys center scale := by
  have hys : ∀ x ∈ ys, x.isFinite = true ∧ (units x).natAbs ≤ (units scale).natAbs := fun x hx =>
    hxs x (hperm.mem_iff.mpr hx)
  obtain ⟨squares, hmap, -, hmoderate⟩ := mapM_isOk Moderate fun x hx =>
    scaledSquare?_isOk hsquares (hxs x hx).1 hcenter hscale hne (hxs x hx).2 hcenterle
  obtain ⟨squares', hmap', hperm'⟩ := mapM_perm hperm hmap
  obtain ⟨z, hz, -⟩ := scaledSquares_isOk hsquares hlength hxs hcenter hscale hne hcenterle
  obtain ⟨z', hz', -⟩ := scaledSquares_isOk hsquares (hperm.length_eq ▸ hlength) hys hcenter hscale hne
    hcenterle
  rw [hz, hz']
  rw [scaledSquares, bind_ok hmap] at hz
  rw [scaledSquares, bind_ok hmap'] at hz'
  have hz : exactSum? squares = some z := sum_eq_ok_iff.mp hz
  have hz' : exactSum? squares' = some z' := sum_eq_ok_iff.mp hz'
  have h := exactSum?_perm (fun y hy => (hmoderate y hy).finite) hperm' (by rw [hz, hz']; rfl)
  rw [hz, hz', Option.some.injEq] at h
  rw [h]

/-- The deviation is the same in any order if the mean is. -/
theorem deviationOfFinite_perm (hsquares : MathLibrary.SquaresBounded) (hperm : xs.Perm ys)
    (hfinite : ∀ x ∈ xs, x.isFinite = true) (hlength : xs.length ≤ 2 ^ 53)
    (hmean : meanOfFinite xs = meanOfFinite ys) : deviationOfFinite xs = deviationOfFinite ys := by
  match xs, ys, hperm.length_eq with
  | [], [], _ => rfl
  | [_], [_], _ => rfl
  | first :: second :: rest, first' :: second' :: rest', hsize =>
    dsimp only [deviationOfFinite]
    rw [← hmean, ← magnitude_perm hperm hfinite, ← hsize]
    cases hcenter : meanOfFinite (first :: second :: rest) with
    | error fault => rfl
    | ok center =>
      rw [bind_ok rfl, bind_ok rfl]
      obtain ⟨hscale, hle⟩ := natAbs_le_magnitude hfinite
      obtain ⟨hcenterFinite, hcenterle⟩ := natAbs_mean_le hfinite hlength hcenter
      split
      next hpos =>
        rw [scaledSquares_perm hsquares hperm hlength (fun x hx => ⟨hfinite x hx, hle x hx⟩) hcenterFinite
          hscale (units_ne_zero_of_pos hscale hpos) hcenterle]
      · rfl

/-! ## Percentiles -/

section

variable {R : Float → Float → Prop} (hR : IsCongruence R)

/-- Numbers in ascending order are the same, up to what zeros among them are related by. -/
theorem ascending_perm (hperm : xs.Perm ys) (hfinite : ∀ x ∈ xs, x.isFinite = true)
    (hzeros : ∀ x ∈ xs, ∀ y ∈ xs, Alike x y → R x y) : List.Forall₂ R (ascending xs) (ascending ys) := by
  have hys : ∀ y ∈ ys, y.isFinite = true := fun y hy => hfinite y (hperm.mem_iff.mpr hy)
  have hunits : (ascending xs).map units = (ascending ys).map units := by
    rw [map_units_ascending hfinite, map_units_ascending hys]
    refine List.Perm.eq_of_pairwise (fun a b _ _ => le_antisymm) (List.pairwise_mergeSort' (· ≤ ·) _)
      (List.pairwise_mergeSort' (· ≤ ·) _) ?_
    exact (List.mergeSort_perm _ _).trans ((hperm.map units).trans (List.mergeSort_perm _ _).symm)
  have hrelated : List.Forall₂ (fun x y => units x = units y) (ascending xs) (ascending ys) := by
    have h : List.Forall₂ Eq ((ascending xs).map units) ((ascending ys).map units) :=
      hunits ▸ List.forall₂_same.mpr fun _ _ => rfl
    exact List.forall₂_map_left_iff.mp (List.forall₂_map_right_iff.mp h)
  rw [List.forall₂_iff_zip] at hrelated ⊢
  refine ⟨hrelated.1, fun {x y} hxy => ?_⟩
  obtain ⟨hx, hy⟩ := List.of_mem_zip hxy
  rw [ascending, List.mem_mergeSort] at hx hy
  have hy := hperm.mem_iff.mpr hy
  exact hzeros x hx y hy ((alike_iff_units (hfinite x hx) (hfinite y hy)).mpr (hrelated.2 hxy))

omit [MathLibrary] in
theorem item?_agree (h : List.Forall₂ R xs ys) (place : Int) :
    Agree R (item? xs.toArray place) (item? ys.toArray place) := by
  simp only [item?, List.getElem?_toArray]
  generalize place.toNat = n
  induction h generalizing n with
  | nil => exact .error _
  | cons hxy _ ih =>
    cases n with
    | zero => exact .ok hxy
    | succ n => exact ih n

include hR

theorem interpolate_related {low low' high high' : Float} (hlow : R low low') (hhigh : R high high')
    (fraction : Float) : R (interpolate low high fraction) (interpolate low' high' fraction) := by
  have hdelta := hR.sub hhigh hlow
  have hfinite : Scalar.isFinite (high - low) = Scalar.isFinite (high' - low') :=
    (hR.alike hdelta).isFinite_eq
  dsimp only [interpolate]
  rw [hfinite]
  split
  · exact hR.add hlow (hR.mul hdelta (hR.refl _))
  · exact hR.add (hR.mul hlow (hR.refl _)) (hR.mul hhigh (hR.refl _))

/-- Percentiles of related numbers are related. -/
theorem percentileOfSorted_agree (h : List.Forall₂ R xs ys) (p : Float) :
    Agree R (percentileOfSorted xs.toArray p) (percentileOfSorted ys.toArray p) := by
  have hsize : xs.toArray.size = ys.toArray.size := by simpa using h.length_eq
  have hempty : xs.toArray.isEmpty = ys.toArray.isEmpty := by
    rw [Array.isEmpty, Array.isEmpty, hsize]
  rw [percentileOfSorted, percentileOfSorted, hempty, hsize]
  split
  · exact .ok (hR.refl _)
  dsimp only
  split
  · exact item?_agree h 0
  split
  · exact item?_agree h _
  refine Agree.bind_same fun lower _ => Agree.bind_same fun upper _ => ?_
  refine (item?_agree h lower).bind fun low low' _ _ hlow => ?_
  refine (item?_agree h upper).bind fun high high' _ _ hhigh => ?_
  exact .ok (interpolate_related hR hlow hhigh _)

end

end Statistics

end RangeCalc
