import Mathlib.Algebra.BigOperators.Ring.List
import Mathlib.Algebra.Order.BigOperators.Group.List
import Mathlib.Tactic.FieldSimp
import Mathlib.Tactic.Ring
import RangeCalc.Proofs.Statistics.Mean
import RangeCalc.Proofs.Statistics.Quantile

/-!
# The deviation of rational numbers

A deviation is computed from the sum of squares in units of the greatest absolute value. That unit changes
when the numbers are moved or multiplied, but it cancels: what is under the root is the sample variance
(`sq_mul_scaledSum`).

* `average`, `sampleVariance`: the textbook definitions;
* `meanOfFinite_rational`, `meanOfFinite_overflowing`: the mean, also where sums overflow;
* `HasScaledVariance`: what the parts of a deviation give, and `hasScaledVariance_iff`;
* `standardDeviation_sampleVariance`: the deviation is the root of the sample variance, with the laws of the
  latter.
-/

namespace RangeCalc

open Exact Statistics

/-! ## The sample variance -/

/-- The arithmetic mean. -/
def average (xs : List ℚ) : ℚ := xs.sum / xs.length

/-- The mean square of the deviations from the mean, with one degree of freedom less than there are
numbers. -/
def sampleVariance (xs : List ℚ) : ℚ :=
  (xs.map fun x => (x - average xs) ^ 2).sum / (xs.length - 1)

section

variable {xs : List ℚ} (c : ℚ)

theorem average_mul : average (xs.map (c * ·)) = c * average xs := by
  rw [average, average, List.length_map, List.sum_map_mul_left, List.map_id', mul_div_assoc]

theorem sampleVariance_mul : sampleVariance (xs.map (c * ·)) = c ^ 2 * sampleVariance xs := by
  have hsquare : ∀ x, (c * x - c * average xs) ^ 2 = c ^ 2 * (x - average xs) ^ 2 := fun x => by ring
  simp only [sampleVariance, average_mul, List.length_map, List.map_map, Function.comp_def, hsquare,
    List.sum_map_mul_left, mul_div_assoc]

theorem average_add (hne : xs ≠ []) : average (xs.map (· + c)) = average xs + c := by
  have hlength : (xs.length : ℚ) ≠ 0 := by simpa using hne
  rw [average, average, List.length_map, List.sum_map_add, List.map_id', List.map_const', List.sum_replicate,
    nsmul_eq_mul]
  field_simp

theorem sampleVariance_add (hne : xs ≠ []) : sampleVariance (xs.map (· + c)) = sampleVariance xs := by
  simp only [sampleVariance, average_add c hne, List.length_map, List.map_map, Function.comp_def,
    add_sub_add_right_eq_sub]

variable (hlength : 2 ≤ xs.length)
include hlength

/-- There is at least one degree of freedom. -/
theorem freedom_pos : (0 : ℚ) < xs.length - 1 := by
  have : (2 : ℚ) ≤ xs.length := by exact_mod_cast hlength
  linarith

theorem sampleVariance_nonneg : 0 ≤ sampleVariance xs := by
  refine div_nonneg (List.sum_nonneg fun y hy => ?_) (freedom_pos hlength).le
  obtain ⟨x, -, rfl⟩ := List.mem_map.mp hy
  exact sq_nonneg _

/-- Only equal numbers do not vary. -/
theorem sampleVariance_eq_zero_iff : sampleVariance xs = 0 ↔ ∀ x ∈ xs, ∀ y ∈ xs, x = y := by
  rw [sampleVariance, div_eq_zero_iff, or_iff_left (freedom_pos hlength).ne']
  constructor
  · intro hzero
    have hall : ∀ x ∈ xs, x = average xs := fun x hx => by
      have hmem := List.mem_map_of_mem (f := fun x => (x - average xs) ^ 2) hx
      have hle := List.single_le_sum (fun y hy => by
        obtain ⟨x, -, rfl⟩ := List.mem_map.mp hy
        exact sq_nonneg _) _ hmem
      have hsquare := le_antisymm (hle.trans hzero.le) (sq_nonneg _)
      exact sub_eq_zero.mp (pow_eq_zero_iff (by decide) |>.mp hsquare)
    exact fun x hx y hy => (hall x hx).trans (hall y hy).symm
  · intro hequal
    obtain ⟨x, hx⟩ : ∃ x, x ∈ xs := List.exists_mem_of_length_pos (by omega)
    have hxs : xs = List.replicate xs.length x := List.eq_replicate_of_mem fun y hy => hequal y hy x hx
    have haverage : average xs = x := by
      have hne : (xs.length : ℚ) ≠ 0 := by
        have := freedom_pos hlength
        linarith
      rw [average, hxs, List.sum_replicate, List.length_replicate, nsmul_eq_mul, mul_div_cancel_left₀ _ hne]
    refine List.sum_eq_zero fun y hy => ?_
    obtain ⟨z, hz, rfl⟩ := List.mem_map.mp hy
    rw [haverage, hequal z hz x hx, sub_self]
    rfl

end

/-! ## Steps -/

namespace Exact

theorem squareRoot_mul_self (q : ℚ) : squareRoot (q * q) = rational |q| := by
  rw [squareRoot, Rat.sqrt_eq, abs_mul_abs_self, if_pos rfl]

/-- The square of a positive number is taken out of a root, which may be undefined. -/
theorem squareRoot_sq_mul {s : ℚ} (hs : 0 < s) (q : ℚ) :
    squareRoot (s ^ 2 * q) = rational s * squareRoot q := by
  by_cases hq : ∃ r, r * r = q
  · obtain ⟨r, rfl⟩ := hq
    rw [show s ^ 2 * (r * r) = (s * r) * (s * r) by ring, squareRoot_mul_self, squareRoot_mul_self, abs_mul,
      abs_of_pos hs, mul_rational]
  · have hsq : ¬ ∃ r, r * r = s ^ 2 * q := by
      rintro ⟨r, hr⟩
      refine hq ⟨r / s, ?_⟩
      rw [div_mul_div_comm, hr]
      field_simp
    rw [squareRoot, squareRoot, if_neg fun h => hsq ((Rat.exists_mul_self _).mpr h),
      if_neg fun h => hq ((Rat.exists_mul_self _).mpr h)]
    rfl

theorem power_two (q : ℚ) : power q ((2 : Int) : ℚ) = rational (q ^ 2) := by
  rw [power, if_neg (by simp), Rat.num_intCast]
  rfl

/-- Rational numbers of which some sums overflow. -/
abbrev overflowing (overflows : List Exact → Bool) : Scalar Exact :=
  { (inferInstance : Scalar Exact) with sum? := fun xs => if overflows xs then none else Exact.sum? xs }

end Exact

namespace Statistics

theorem sum_rational (qs : List ℚ) : sum (qs.map rational) = .ok (rational qs.sum) :=
  sum_eq_ok_iff.mpr (sum?_rational qs)

theorem quotient?_rational {y : ℚ} (hy : y ≠ 0) (x : Exact) :
    quotient? x (rational y) = .ok (x / rational y) := by
  refine if_neg fun h : y ≤ ((0 : Int) : ℚ) ∧ ((0 : Int) : ℚ) ≤ y => hy ?_
  rw [Int.cast_zero] at h
  exact le_antisymm h.1 h.2

theorem div_rational {y : ℚ} (hy : y ≠ 0) (x : ℚ) : rational x / rational y = rational (x / y) :=
  if_neg hy

theorem square?_rational (x : ℚ) : square? (rational x) = .ok (rational (x ^ 2)) := by
  have hpower : Scalar.power? (rational x) (Scalar.ofInt 2) = .ok (rational (x ^ 2)) :=
    congrArg Except.ok (power_two x)
  rw [square?, hpower]

/-- The sum of the squared deviations from `center`, all in units of `scale`. -/
def scaledSum (xs : List ℚ) (center scale : ℚ) : ℚ :=
  (xs.map fun x => (x / scale - center / scale) ^ 2).sum

theorem scaledSquares_rational {scale : ℚ} (hscale : scale ≠ 0) (xs : List ℚ) (center : ℚ) :
    scaledSquares (xs.map rational) (rational center) (rational scale) =
      .ok (rational (scaledSum xs center scale)) := by
  have hsquare : ∀ x : ℚ, scaledSquare? (rational center) (rational scale) (rational x) =
      .ok (rational ((x / scale - center / scale) ^ 2)) := fun x => by
    rw [scaledSquare?, bind_ok (quotient?_rational hscale _), bind_ok (quotient?_rational hscale _),
      div_rational hscale, div_rational hscale, sub_rational, square?_rational]
  have hmap : (xs.map rational).mapM (scaledSquare? (rational center) (rational scale)) =
      .ok ((xs.map fun x => (x / scale - center / scale) ^ 2).map rational) := by
    rw [List.mapM_map, List.map_map]
    exact mapM_ok fun x _ => hsquare x
  rw [scaledSquares, bind_ok hmap, sum_rational, scaledSum]

/-- The unit of the squares cancels. -/
theorem sq_mul_scaledSum {xs : List ℚ} {scale : ℚ} (hscale : scale ≠ 0) :
    scale ^ 2 * (scaledSum xs (average xs) scale / (xs.length - 1)) = sampleVariance xs := by
  have hsquare : ∀ x, scale ^ 2 * (x / scale - average xs / scale) ^ 2 = (x - average xs) ^ 2 := fun x => by
    field_simp
  rw [scaledSum, ← mul_div_assoc, ← List.sum_map_mul_left]
  simp only [hsquare, sampleVariance]

/-! ## The mean -/

section

variable {xs : List ℚ} (hne : xs ≠ [])
include hne

theorem meanOfFinite_rational : meanOfFinite (xs.map rational) = .ok (rational (average xs)) := by
  have hcount : ((xs.length : Int) : ℚ) ≠ 0 := by simpa using hne
  have hmap : xs.map rational ≠ [] := by simpa using hne
  have hlength : ofInt? ((xs.map rational).length : Int) = .ok (rational ((xs.length : Int) : ℚ)) := by
    rw [List.length_map]
    rfl
  have hsum : Scalar.sum? (xs.map rational) = some (rational xs.sum) := sum?_rational xs
  rw [meanOfFinite_of_quotients hmap hlength (quotient?_rational hcount), hsum]
  exact congrArg Except.ok (div_rational hcount xs.sum)

/-- Where the sum of the numbers overflows, that of their shares gives the same mean. -/
theorem meanOfFinite_overflowing {overflows : List Exact → Bool} (htotal : overflows (xs.map rational) = true)
    (hshares : overflows (xs.map fun x => rational (x / xs.length)) = false) :
    @meanOfFinite Exact (overflowing overflows) (xs.map rational) = .ok (rational (average xs)) := by
  have hcount : ((xs.length : Int) : ℚ) ≠ 0 := by simpa using hne
  have hmap : xs.map rational ≠ [] := by simpa using hne
  have hlength : @ofInt? Exact (overflowing overflows) ((xs.map rational).length : Int) =
      .ok (rational ((xs.length : Int) : ℚ)) := by
    rw [List.length_map]
    rfl
  have hsum : @Scalar.sum? Exact (overflowing overflows) (xs.map rational) = none := if_pos htotal
  have hshare : (xs.map rational).map (· / rational ((xs.length : Int) : ℚ)) =
      (xs.map (· / (xs.length : ℚ))).map rational := by
    simp only [List.map_map]
    exact List.map_congr_left fun x _ => div_rational hcount x
  have haverage : (xs.map (· / (xs.length : ℚ))).sum = average xs := by
    simp only [div_eq_mul_inv, List.sum_map_mul_right, List.map_id', average]
  have hshareSum : @Scalar.sum? Exact (overflowing overflows) ((xs.map (· / (xs.length : ℚ))).map rational) =
      some (rational (average xs)) := by
    rw [← haverage, ← sum?_rational]
    refine if_neg ?_
    rw [List.map_map]
    exact Bool.not_eq_true _ ▸ hshares
  rw [@meanOfFinite_of_quotients _ (overflowing overflows) _ hmap _ _ hlength (quotient?_rational hcount), hsum]
  show @Statistics.sum Exact (overflowing overflows) _ = _
  rw [hshare]
  exact (@sum_eq_ok_iff _ (overflowing overflows) _ _).mpr hshareSum

end

/-! ## The deviation -/

theorem magnitude_rational (first : ℚ) (rest : List ℚ) :
    magnitude (rational first) (rest.map rational) = rational ((rest.map abs).foldl max |first|) := by
  rw [magnitude, ← greatest_rational, List.map_map, List.map_map]
  rfl

theorem root?_rational (q : ℚ) : root? (rational q) = .ok (squareRoot q) := rfl

/-- The deviation of two or more numbers. -/
theorem deviationOfFinite_eq_bind {α : Type} [Scalar α] {xs rest : List α} {first : α} (hxs : xs = first :: rest)
    (hrest : rest ≠ []) :
    deviationOfFinite xs = (do
      let center ← meanOfFinite xs
      let scale := magnitude first rest
      if zero < scale then
        let squares ← scaledSquares xs center scale
        let variance ← quotient? squares (ofCount (xs.length - 1))
        return scale * (← root? variance)
      else return zero) := by
  subst hxs
  cases rest with
  | nil => exact absurd rfl hrest
  | cons second rest => rfl

/-- The scale of a deviation and the sum of squares in units of it, as they are computed. -/
structure DeviationParts (xs : List ℚ) (scale squares : ℚ) : Prop where
  isGreatest : (xs.map abs).max? = some scale
  magnitude_eq (first : ℚ) (rest : List ℚ) (h : xs = first :: rest) :
    magnitude (rational first) (rest.map rational) = rational scale
  scaledSquares_eq (h : 0 < scale) :
    scaledSquares (xs.map rational) (rational (average xs)) (rational scale) = .ok (rational squares)
  deviation_eq : standardDeviation (xs.map rational) =
    .ok (rational scale * squareRoot (squares / (xs.length - 1)))

/-- Whether the sum of squares that is computed for a deviation gives a mean square when its scale is taken
back. -/
def HasScaledVariance (xs : List ℚ) (v : ℚ) : Prop :=
  ∃ scale squares, DeviationParts xs scale squares ∧ scale ^ 2 * squares / (xs.length - 1) = v

theorem nonneg_of_isGreatest {xs : List ℚ} {scale : ℚ} (h : (xs.map abs).max? = some scale) : 0 ≤ scale := by
  obtain ⟨x, -, rfl⟩ := List.mem_map.mp (List.max?_eq_some_iff.mp h).1
  exact abs_nonneg x

/-- What is computed for a deviation gives one mean square only. -/
theorem HasScaledVariance.unique {xs : List ℚ} {v w : ℚ} (hv : HasScaledVariance xs v)
    (hw : HasScaledVariance xs w) : v = w := by
  obtain ⟨scale, squares, h, rfl⟩ := hv
  obtain ⟨scale', squares', h', rfl⟩ := hw
  obtain rfl : scale = scale' := Option.some.inj (h.isGreatest.symm.trans h'.isGreatest)
  rcases (nonneg_of_isGreatest h.isGreatest).eq_or_lt with rfl | hpos
  · simp
  · have hsquares := (h.scaledSquares_eq hpos).symm.trans (h'.scaledSquares_eq hpos)
    rw [rational.inj (Except.ok.inj hsquares)]

section

variable {xs : List ℚ} (hlength : 2 ≤ xs.length)
include hlength

theorem ofCount_freedom : (ofCount (xs.length - 1) : Exact) = rational (xs.length - 1) := by
  show rational (((xs.length - 1 : Nat) : Int) : ℚ) = _
  rw [Int.cast_natCast, Nat.cast_sub (by omega), Nat.cast_one]

section

variable {first scale : ℚ} {rest : List ℚ} (hxs : xs = first :: rest)
  (hscale : magnitude (rational first) (rest.map rational) = rational scale)
include hxs hscale

/-- The deviation of rational numbers, up to the choice between its two branches. -/
theorem standardDeviation_eq_ite :
    standardDeviation (xs.map rational) =
      if zero < rational scale then (do
        let squares ← scaledSquares (xs.map rational) (rational (average xs)) (rational scale)
        let variance ← quotient? squares (rational (xs.length - 1))
        return rational scale * (← root? variance))
      else .ok zero := by
  have hmean := meanOfFinite_rational (List.ne_nil_of_length_pos (show 0 < xs.length by omega))
  have hrest : rest ≠ [] := by
    rintro rfl
    simp [hxs] at hlength
  have hmap : xs.map rational = rational first :: rest.map rational := by rw [hxs, List.map_cons]
  rw [standardDeviation, finite_rational, deviationOfFinite_eq_bind hmap (by simpa using hrest), bind_ok hmean,
    hscale, List.length_map, ofCount_freedom hlength]
  rfl

/-- The deviation of numbers that are not all zero. -/
theorem standardDeviation_of_pos (hpos : 0 < scale) :
    standardDeviation (xs.map rational) =
      .ok (rational scale * squareRoot (scaledSum xs (average xs) scale / (xs.length - 1))) := by
  have hfreedom := (freedom_pos hlength).ne'
  have hlt : zero < rational scale := by simpa [zero, Scalar.ofInt] using hpos
  rw [standardDeviation_eq_ite hlength hxs hscale, if_pos hlt, bind_ok (scaledSquares_rational hpos.ne' _ _),
    bind_ok (quotient?_rational hfreedom _), div_rational hfreedom, bind_ok (root?_rational _)]
  rfl

/-- The deviation of zeros. -/
theorem standardDeviation_of_zero (hzero : scale = 0) :
    standardDeviation (xs.map rational) = .ok (rational 0) := by
  have hlt : ¬ (zero : Exact) < rational scale := by simp [zero, Scalar.ofInt, hzero]
  rw [standardDeviation_eq_ite hlength hxs hscale, if_neg hlt]
  rfl

end

/-- In both branches, what is computed gives the sample variance, and the deviation is its root. -/
theorem hasScaledVariance_sampleVariance :
    HasScaledVariance xs (sampleVariance xs) ∧
      standardDeviation (xs.map rational) = .ok (squareRoot (sampleVariance xs)) := by
  obtain ⟨first, rest, hxs⟩ := List.exists_cons_of_length_pos (show 0 < xs.length by omega)
  obtain ⟨scale, hdef⟩ : ∃ scale, (rest.map abs).foldl max |first| = scale := ⟨_, rfl⟩
  have hscale := magnitude_rational first rest
  rw [hdef] at hscale
  have hgreatest : (xs.map abs).max? = some scale := by
    rw [hxs, List.map_cons, List.max?_cons', hdef]
  have hmagnitude : ∀ first rest, xs = first :: rest →
      magnitude (rational first) (rest.map rational) = rational scale := by
    rintro first' rest' hxs'
    obtain ⟨rfl, rfl⟩ := List.cons.inj (hxs.symm.trans hxs')
    exact hscale
  rcases (nonneg_of_isGreatest hgreatest).eq_or_lt with hzero | hpos
  · have hdeviation := standardDeviation_of_zero hlength hxs hscale hzero.symm
    have hall : ∀ x ∈ xs, x = 0 := fun x hx =>
      abs_nonpos_iff.mp (((List.max?_eq_some_iff.mp hgreatest).2 |x| (List.mem_map_of_mem hx)).trans hzero.ge)
    have hvariance : sampleVariance xs = 0 :=
      (sampleVariance_eq_zero_iff hlength).mpr fun x hx y hy => (hall x hx).trans (hall y hy).symm
    have hroot : squareRoot 0 = rational 0 := by simpa using squareRoot_mul_self 0
    refine ⟨⟨scale, 0, ⟨hgreatest, hmagnitude, fun hpos => absurd hzero hpos.ne, ?_⟩, ?_⟩, ?_⟩
    · rw [hdeviation, zero_div, hroot, mul_rational, mul_zero]
    · rw [hvariance, mul_zero, zero_div]
    · rw [hdeviation, hvariance, hroot]
  · have hdeviation := standardDeviation_of_pos hlength hxs hscale hpos
    have hvariance := @sq_mul_scaledSum xs _ hpos.ne'
    refine ⟨⟨scale, _, ⟨hgreatest, hmagnitude, fun _ => scaledSquares_rational hpos.ne' _ _, hdeviation⟩, ?_⟩, ?_⟩
    · rw [mul_div_assoc, hvariance]
    · rw [hdeviation, ← squareRoot_sq_mul hpos, hvariance]

theorem hasScaledVariance_iff {v : ℚ} : HasScaledVariance xs v ↔ v = sampleVariance xs := by
  have h := (hasScaledVariance_sampleVariance hlength).1
  constructor
  · exact fun hv => hv.unique h
  · rintro rfl
    exact h

/-- The deviation of two or more rational numbers is the root of their sample variance, which is what the sum
of its squares gives when the scale is taken back. It is not negative, and zero for equal numbers only; it does
not change when a number is added to all of them, and is multiplied by the square of what they are multiplied
by. The mean is the same whether the numbers are added first or, as where that sum overflows, their shares. -/
theorem standardDeviation_sampleVariance :
    (∀ v, HasScaledVariance xs v ↔ v = sampleVariance xs) ∧
      standardDeviation (xs.map rational) = .ok (squareRoot (sampleVariance xs)) ∧
      0 ≤ sampleVariance xs ∧
      (sampleVariance xs = 0 ↔ ∀ x ∈ xs, ∀ y ∈ xs, x = y) ∧
      (∀ c, HasScaledVariance (xs.map (· + c)) (sampleVariance xs)) ∧
      (∀ c, HasScaledVariance (xs.map (c * ·)) (c ^ 2 * sampleVariance xs)) ∧
      meanOfFinite (xs.map rational) = .ok (rational (average xs)) ∧
      ∀ overflows : List Exact → Bool, overflows (xs.map rational) = true →
        overflows (xs.map fun x => rational (x / xs.length)) = false →
          @meanOfFinite Exact (overflowing overflows) (xs.map rational) = .ok (rational (average xs)) := by
  have hne : xs ≠ [] := List.ne_nil_of_length_pos (by omega)
  refine ⟨fun v => hasScaledVariance_iff hlength, (hasScaledVariance_sampleVariance hlength).2,
    sampleVariance_nonneg hlength, sampleVariance_eq_zero_iff hlength, fun c => ?_, fun c => ?_,
    meanOfFinite_rational hne, fun overflows => meanOfFinite_overflowing hne⟩
  · exact (hasScaledVariance_iff (by rwa [List.length_map])).mpr (sampleVariance_add c hne).symm
  · exact (hasScaledVariance_iff (by rwa [List.length_map])).mpr (sampleVariance_mul c).symm

end

/-- Three numbers with a rational deviation, the same numbers moved and multiplied, and their mean where the
sum of numbers up to five overflows. -/
theorem threeNumbers_deviation :
    2 ≤ [1, 3, (5 : ℚ)].length ∧ HasScaledVariance [1, 3, 5] 4 ∧
      standardDeviation ([1, 3, 5].map rational) = .ok (rational 2) ∧
      HasScaledVariance [11, 13, 15] 4 ∧ HasScaledVariance [-3, -9, -15] 36 ∧
      @meanOfFinite Exact (overflowing fun xs => xs.contains (rational 5)) ([1, 3, 5].map rational) =
        .ok (rational 3) := by
  have hlength : 2 ≤ [1, 3, (5 : ℚ)].length := by decide
  have haverage : average [1, 3, 5] = 3 := by norm_num [average]
  have hvariance : sampleVariance [1, 3, 5] = 4 := by norm_num [sampleVariance, haverage]
  have hroot : squareRoot 4 = rational 2 := by
    have h := squareRoot_mul_self 2
    norm_num at h
    exact h
  obtain ⟨hscaled, hdeviation, -, -, hadd, hmul, -, hmean⟩ := standardDeviation_sampleVariance hlength
  have hfallback := hmean (fun xs => xs.contains (rational 5)) (by decide) (by decide +kernel)
  rw [haverage] at hfallback
  rw [hvariance] at hscaled hdeviation hadd hmul
  refine ⟨hlength, (hscaled 4).mpr rfl, hroot ▸ hdeviation, ?_, ?_, hfallback⟩
  · have h := hadd 10
    norm_num at h
    exact h
  · have h := hmul (-3)
    norm_num at h
    exact h

end Statistics

end RangeCalc
