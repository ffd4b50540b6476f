import Mathlib.Data.List.Sort
import RangeCalc.Proofs.Statistics.Mean

/-!
# Percentiles

The rank of a percentile is between zero and the last place, so numbers have percentiles. These are finite:
two neighbours among the sorted numbers are in order, and what rounding adds to the number between them is
less than half of the distance from the largest number to the power of two above it.

* `percentileOfSorted_cases`: a percentile as one of the numbers, or between two of them;
* `percentileOfSorted_isOk`: numbers have percentiles;
* `finite_interpolate`: numbers between two others;
* `finite_percentileOfSorted`: percentiles of sorted numbers.
-/

namespace RangeCalc.Statistics

open Binary64

variable [MathLibrary] {n : Nat}

/-! ## Ranks -/

omit [MathLibrary] in
theorem item?_eq {sorted : Array Float} {i : Int} (h : i.toNat < sorted.size) :
    item? sorted i = .ok sorted[i.toNat] := by
  rw [item?, Array.getElem?_eq_getElem h]

/-- The rank of a percentile between zero and one hundred. -/
theorem finite_rank {p : Float} {last : Nat} (hp : p.isFinite = true) (hlow : 0 ≤ units p)
    (hhigh : units p ≤ 100 * Binary64.one) (hlast : last ≤ 2 ^ 53) :
    (p / ofCount 100 * ofCount last).isFinite = true ∧
      0 ≤ units (p / ofCount 100 * ofCount last) ∧
      units (p / ofCount 100 * ofCount last) ≤ last * Binary64.one := by
  obtain ⟨k, hk, hone⟩ := exists_one_eq
  obtain ⟨hshare, hsharele⟩ := finite_div (j := 0) hp (units_ofCount (n := 100) (by decide)).1
    (units_ofCount_ne_zero (by decide) (by decide)) (by decide) (by
      rw [(units_ofCount (n := 100) (by decide)).2]
      omega)
  have hshareNonneg : 0 ≤ units (p / ofCount 100) := by
    refine (rounds_div_ofCount hp (by decide) (by decide)).units_nonneg hshare ?_
    exact div_nonneg (by exact_mod_cast hlow) (by norm_num)
  have hrounds := rounds_mul_ofCount hshare hlast
  have hnonneg : (0 : ℚ) ≤ units (p / ofCount 100) * last :=
    mul_nonneg (by exact_mod_cast hshareNonneg) last.cast_nonneg
  have hle : |(units (p / ofCount 100) * last : ℚ)| ≤ (last * 2 ^ k : Nat) := by
    rw [abs_of_nonneg hnonneg, ← hone]
    have : units (p / ofCount 100) * last ≤ last * Binary64.one := by
      rw [mul_comm (last : Int)]
      exact mul_le_mul_of_nonneg_right (by omega) (by omega)
    exact_mod_cast this
  have hlt : last * 2 ^ k < overflowKey := by
    refine (Nat.mul_le_mul_right _ hlast).trans_lt ?_
    rw [← Nat.pow_add]
    exact two_pow_lt_overflowKey (by omega)
  obtain ⟨hrank, hrankle⟩ := hrounds.finite hlast hlt hle
  rw [← hone] at hrankle
  exact ⟨hrank, hrounds.units_nonneg hrank hnonneg, by omega⟩

omit [MathLibrary] in
/-- A percentage that is neither clamped to zero nor to one hundred. -/
theorem finite_of_inside {p : Float} (hdefined : p.isNaN = false) (hlow : ¬ p ≤ Binary64.ofInt 0)
    (hhigh : ¬ Binary64.ofInt 100 ≤ p) :
    p.isFinite = true ∧ 0 < units p ∧ units p < 100 * Binary64.one := by
  obtain ⟨hzero, hzeroUnits⟩ := @units_ofInt 0 (by decide)
  obtain ⟨hhundred, hhundredUnits⟩ := @units_ofInt 100 (by decide)
  rw [le_iff_key hdefined (not_isNaN_of_isFinite hzero), key_of_isFinite hzero, hzeroUnits] at hlow
  rw [le_iff_key (not_isNaN_of_isFinite hhundred) hdefined, key_of_isFinite hhundred,
    hhundredUnits] at hhigh
  obtain ⟨k, hk, hone⟩ := exists_one_eq
  have hlt : 2 ^ 7 * 2 ^ k < overflowKey := by
    rw [← Nat.pow_add]
    exact two_pow_lt_overflowKey (by omega)
  rw [← hone] at hlt
  have hp : p.isFinite = true := (isFinite_iff_key hdefined).mpr ⟨by omega, by omega⟩
  rw [key_of_isFinite hp] at hlow hhigh
  exact ⟨hp, by omega, by omega⟩

omit [MathLibrary] in
/-- What is left of a number on the grid above a multiple of one is less than one by at least the distance of
the numbers just below one. -/
theorem mod_one_le {m : Nat} (hm : m ≤ 2 ^ 53) (k : Nat) :
    2 ^ 53 * (m * 2 ^ k % Binary64.one) ≤ (2 ^ 53 - 1) * Binary64.one := by
  obtain ⟨l, -, hone⟩ := exists_one_eq
  rw [hone]
  rcases le_total l k with hlk | hkl
  · rw [Nat.mod_eq_zero_of_dvd ((Nat.pow_dvd_pow 2 hlk).mul_left m)]
    exact Nat.zero_le _
  · obtain ⟨d, rfl⟩ := Nat.exists_eq_add_of_le' hkl
    rw [Nat.pow_add, Nat.mul_mod_mul_right, ← Nat.mul_assoc, ← Nat.mul_assoc]
    refine Nat.mul_le_mul_right _ ?_
    have hlt := Nat.mod_lt m (Nat.two_pow_pos d)
    have hle := Nat.mod_le m (2 ^ d)
    rcases Nat.lt_or_ge 53 d with hd | hd
    · have := Nat.pow_le_pow_right (show 0 < 2 by decide) (show 54 ≤ d from hd)
      omega
    · have := Nat.pow_le_pow_right (show 0 < 2 by decide) hd
      omega

/-- How far a rank is from the place below: less than one place. -/
structure IsFraction (x : Float) : Prop where
  finite : x.isFinite = true
  nonneg : 0 ≤ units x
  lt_one : 2 ^ 53 * units x ≤ (2 ^ 53 - 1) * Binary64.one

omit [MathLibrary] in
/-- Rounding does not go beyond the largest number below one. -/
theorem IsFraction.of_rounds {rest : Nat} {x : Float} (hx : Rounds rest x)
    (hrest : 2 ^ 53 * rest ≤ (2 ^ 53 - 1) * Binary64.one) : IsFraction x := by
  obtain ⟨l, hl, hone⟩ : ∃ l, l = 1021 ∧ Binary64.one = 2 ^ 53 * 2 ^ l := by
    obtain ⟨k, hk, hone⟩ := exists_one_eq
    exact ⟨1021, rfl, by rw [hone, ← Nat.pow_add, hk]⟩
  rw [hone] at hrest
  have hlt : (2 ^ 53 - 1) * 2 ^ l < overflowKey := by
    refine (Nat.mul_lt_mul_of_pos_right (show 2 ^ 53 - 1 < 2 ^ 53 by decide) (Nat.two_pow_pos l)).trans ?_
    rw [← Nat.pow_add]
    exact two_pow_lt_overflowKey (by omega)
  obtain ⟨hfinite, hsize⟩ := hx.finite (by decide) hlt (by
    rw [Nat.abs_cast, Nat.cast_le]
    omega)
  refine ⟨hfinite, hx.units_nonneg hfinite rest.cast_nonneg, ?_⟩
  rw [hone]
  omega

/-- The places below and above a rank, and how far the rank is from the one below. -/
theorem places_of_rank {rank : Float} {last : Nat} (hlast : last ≤ 2 ^ 53)
    (hrank : rank.isFinite = true) (hnonneg : 0 ≤ units rank) (hle : units rank ≤ last * Binary64.one) :
    ∃ lower upper : Int, place? Scalar.floor rank = .ok lower ∧ place? Scalar.ceil rank = .ok upper ∧
      lower.toNat ≤ upper.toNat ∧ upper.toNat ≤ last ∧ IsFraction (rank - Binary64.ofInt lower) := by
  have hone : (0 : Int) < Binary64.one := by exact_mod_cast Binary64.one_pos
  have hplace : 0 ≤ units rank / Binary64.one := Int.ediv_nonneg hnonneg hone.le
  have hlower : units rank / Binary64.one ≤ (last : Int) := Int.ediv_le_of_le_mul hone hle
  have hupper : -(last : Int) ≤ -units rank / Binary64.one := by
    rw [Int.le_ediv_iff_mul_le hone, Int.neg_mul]
    exact Int.neg_le_neg hle
  have horder : units rank / Binary64.one ≤ -(-units rank / Binary64.one) := by
    refine Int.le_of_mul_le_mul_right (a := Binary64.one) ?_ hone
    have hbelow := Int.ediv_mul_le (units rank) hone.ne'
    have habove := Int.ediv_mul_le (-units rank) hone.ne'
    rw [Int.neg_mul]
    omega
  refine ⟨units rank / Binary64.one, -(-units rank / Binary64.one), if_pos hrank, if_pos hrank,
    by omega, by omega, ?_⟩
  obtain ⟨hfloor, hfloorUnits⟩ := @units_ofInt (units rank / Binary64.one) (by omega)
  have hrounds := rounds_sub hrank hfloor
  rw [hfloorUnits, ← Int.cast_sub] at hrounds
  obtain ⟨rest, hrest, hrestle⟩ : ∃ rest : Nat,
      units rank - units rank / Binary64.one * Binary64.one = rest ∧
        2 ^ 53 * rest ≤ (2 ^ 53 - 1) * Binary64.one := by
    obtain ⟨m, k, hm, -, hgrid⟩ := exists_grid hrank
    refine ⟨m * 2 ^ k % Binary64.one, ?_, mod_one_le hm k⟩
    rw [← hgrid, Int.natCast_mod, Int.natAbs_of_nonneg hnonneg, Int.emod_def, Int.mul_comm]
  rw [hrest, Int.cast_natCast] at hrounds
  exact .of_rounds hrounds hrestle

/-- A percentile of at most `2 ^ 53` numbers is one of them, or it lies between two of them. -/
theorem percentileOfSorted_cases {sorted : Array Float} (hsize : sorted.size ≤ 2 ^ 53)
    (hne : sorted.size ≠ 0) {p : Float} (hdefined : p.isNaN = false) :
    (∃ x ∈ sorted, percentileOfSorted sorted p = .ok x) ∨
      ∃ (i j : Nat) (hij : i ≤ j) (hj : j < sorted.size) (fraction : Float), IsFraction fraction ∧
        percentileOfSorted sorted p = .ok (interpolate sorted[i] sorted[j] fraction) := by
  have hcases : ¬ (sorted.isEmpty || Scalar.isUndefined p) = true := by
    rw [show Scalar.isUndefined p = false from hdefined, Bool.or_false]
    simpa using hne
  rw [percentileOfSorted, if_neg hcases]
  dsimp only
  split
  · exact .inl ⟨_, Array.getElem_mem _, item?_eq (i := 0) (by show 0 < _; omega)⟩
  next hlow =>
  split
  · exact .inl ⟨_, Array.getElem_mem _, item?_eq (by omega)⟩
  next hhigh =>
  obtain ⟨hp, hpos, hlt⟩ := finite_of_inside hdefined hlow hhigh
  have hlast : sorted.size - 1 ≤ 2 ^ 53 := by omega
  obtain ⟨hrank, hnonneg, hle⟩ := finite_rank hp hpos.le hlt.le hlast
  obtain ⟨lower, upper, hlower, hupper, hplaces, hupperle, hfraction⟩ :=
    places_of_rank hlast hrank hnonneg hle
  have hsize' : upper.toNat < sorted.size := by omega
  refine .inr ⟨lower.toNat, upper.toNat, hplaces, hsize', _, hfraction, ?_⟩
  have hrankEq : p / Scalar.ofInt 100 * ofCount (sorted.size - 1) =
      p / (ofCount 100 : Float) * ofCount (sorted.size - 1) := rfl
  rw [hrankEq, bind_ok hlower, bind_ok hupper, bind_ok (item?_eq (hplaces.trans_lt hsize')),
    bind_ok (item?_eq hsize')]
  rfl

theorem percentileOfSorted_isOk {sorted : Array Float} (hsize : sorted.size ≤ 2 ^ 53) (p : Float) :
    ∃ x, percentileOfSorted sorted p = .ok x := by
  by_cases hcases : (sorted.isEmpty || Scalar.isUndefined p) = true
  · exact ⟨_, if_pos hcases⟩
  · obtain ⟨hne, hdefined⟩ : sorted.size ≠ 0 ∧ p.isNaN = false := by
      have hp : Scalar.isUndefined p = p.isNaN := rfl
      simpa [hp] using hcases
    obtain ⟨x, -, hx⟩ | ⟨i, j, hij, hj, fraction, -, hx⟩ := percentileOfSorted_cases hsize hne hdefined
    · exact ⟨x, hx⟩
    · exact ⟨_, hx⟩

/-! ## Numbers between two others -/

omit [MathLibrary] in
/-- The share of a whole. -/
theorem IsFraction.exists_share {fraction : Float} (h : IsFraction fraction) :
    ∃ φ : ℚ, (units fraction / Binary64.one : ℚ) = φ ∧ 0 ≤ φ ∧ 2 ^ 53 * φ ≤ 2 ^ 53 - 1 := by
  have hone := one_cast_pos
  refine ⟨_, rfl, div_nonneg (by exact_mod_cast h.nonneg) hone.le, ?_⟩
  rw [← mul_div_assoc, div_le_iff₀ hone]
  exact_mod_cast h.lt_one

omit [MathLibrary] in
/-- A rounded share of a rounded span is less than half a step of the largest numbers beyond the span. -/
theorem share_lt {span φ : ℚ} {delta product : Float} {l : Nat} (hhalf : halfStep = 2 ^ l)
    (hspan : 0 ≤ span) (hφ0 : 0 ≤ φ) (hφ1 : 2 ^ 53 * φ ≤ 2 ^ 53 - 1) (hdifference : Rounds span delta)
    (hdelta : delta.isFinite = true) (hproduct : Rounds (units delta * φ) product)
    (hproductFinite : product.isFinite = true) : (units product : ℚ) < span + 2 ^ l := by
  have hH : (0 : ℚ) < 2 ^ l := pow_pos (by norm_num) l
  have hdelta0 : (0 : ℚ) ≤ units delta := by exact_mod_cast hdifference.units_nonneg hdelta hspan
  have hproduct0 := mul_nonneg hdelta0 hφ0
  have htop {a : ℚ} (ha : a < (2 ^ 54 * halfStep : Nat)) : a < 2 ^ (53 + (l + 1)) := by
    rw [hhalf, ← Nat.pow_add, show 54 + l = 53 + (l + 1) by omega] at ha
    exact_mod_cast ha
  rw [← key_of_isFinite hproductFinite]
  rcases lt_or_ge span (2 ^ (53 + l)) with hsmall | hlarge
  · -- each rounding adds at most half of half a step
    have hdeltale := hdifference.key_le_add_half hspan hsmall
    have hdeltaTop := hdifference.key_le le_rfl (k := l) (by
      rw [← Nat.pow_add]
      exact_mod_cast hsmall.le)
    rw [key_of_isFinite hdelta] at hdeltale hdeltaTop
    have hdeltaTop' : (units delta : ℚ) ≤ 2 ^ 53 * 2 ^ l := by exact_mod_cast hdeltaTop
    have hround := hproduct.key_le_add_half hproduct0 (k := l) (by
      rw [pow_add]
      nlinarith)
    nlinarith
  · -- each adds at most half a step, and the fraction takes that much away
    have hdeltale := hdifference.key_le_add_half hspan (htop (hdifference.lt_of_isFinite hdelta))
    have hround := hproduct.key_le_add_half hproduct0 (htop (hproduct.lt_of_isFinite hproductFinite))
    rw [key_of_isFinite hdelta] at hdeltale
    rw [pow_succ, mul_div_assoc, div_self two_ne_zero, mul_one] at hdeltale hround
    rw [pow_add] at hlarge
    nlinarith

section

variable {low high fraction : Float} (hlow : low.isFinite = true) (hhigh : high.isFinite = true)
  (hle : units low ≤ units high) (hfraction : IsFraction fraction)

include hlow hhigh hle hfraction

omit [MathLibrary] in
/-- The straight line between two numbers whose difference is finite. -/
theorem finite_line (hdelta : (high - low).isFinite = true) :
    (low + (high - low) * fraction).isFinite = true := by
  obtain ⟨l, -, hhalf⟩ := exists_halfStep_eq
  obtain ⟨φ, hφ, hφ0, hφ1⟩ := hfraction.exists_share
  have hspan : (0 : ℚ) ≤ units high - units low := sub_nonneg.mpr (by exact_mod_cast hle)
  have hdifference := rounds_sub hhigh hlow
  have hdelta0 : (0 : ℚ) ≤ units (high - low) := by exact_mod_cast hdifference.units_nonneg hdelta hspan
  have hproduct := rounds_mul hdelta hfraction.finite
  rw [mul_div_assoc, hφ] at hproduct
  have hproduct0 := mul_nonneg hdelta0 hφ0
  have hproductFinite : ((high - low) * fraction).isFinite = true := by
    refine (hproduct.finite_of_le hdelta ?_).1
    rw [abs_of_nonneg hproduct0, Nat.cast_natAbs, Int.cast_abs, abs_of_nonneg hdelta0]
    exact mul_le_of_le_one_right hdelta0 (by linarith)
  have hrest : (0 : ℚ) ≤ units ((high - low) * fraction) := by
    exact_mod_cast hproduct.units_nonneg hproductFinite hproduct0
  have hbelow := share_lt hhalf hspan hφ0 hφ1 hdifference hdelta hproduct hproductFinite
  refine (rounds_add hlow hproductFinite).isFinite_of_lt (abs_lt.mpr ?_)
  have hlowle := (natAbs_units_le hlow).2
  have hhighle := (natAbs_units_le hhigh).2
  rw [largestUnits, hhalf] at hlowle hhighle
  have hlow' : -((2 ^ 54 - 2) * 2 ^ l : ℚ) ≤ units low := by
    have : -(((2 ^ 54 - 2) * 2 ^ l : Nat) : Int) ≤ units low := by omega
    exact_mod_cast this
  have hhigh' : (units high : ℚ) ≤ (2 ^ 54 - 2) * 2 ^ l := by
    have : units high ≤ ((2 ^ 54 - 2) * 2 ^ l : Nat) := by omega
    exact_mod_cast this
  have hH : (0 : ℚ) < 2 ^ l := pow_pos (by norm_num) l
  rw [hhalf]
  push_cast
  constructor <;> linarith

/-- Two numbers whose difference is infinite have different signs, and their weighted sum is between them. -/
theorem finite_weighted (hdelta : (high - low).isFinite = false) :
    (low * (one - fraction) + high * fraction).isFinite = true := by
  have honePos := one_cast_pos
  have hdifference := rounds_sub hhigh hlow
  have hsigns : units low ≤ 0 ∧ 0 ≤ units high := by
    by_contra hsame
    have hmax : (high - low).isFinite = true := by
      rcases le_or_gt 0 (units low) with hnonneg | hneg
      · refine (hdifference.finite_of_le hhigh ?_).1
        rw [← Int.cast_sub, ← Int.cast_abs, ← Nat.cast_natAbs, Nat.cast_le]
        omega
      · refine (hdifference.finite_of_le hlow ?_).1
        rw [← Int.cast_sub, ← Int.cast_abs, ← Nat.cast_natAbs, Nat.cast_le]
        omega
    rw [hmax] at hdelta
    cases hdelta
  have hlow0 : (units low : ℚ) ≤ 0 := by exact_mod_cast hsigns.1
  have hhigh0 : (0 : ℚ) ≤ units high := by exact_mod_cast hsigns.2
  have hfraction0 : (0 : ℚ) ≤ units fraction := by exact_mod_cast hfraction.nonneg
  have hfraction1 : (units fraction : ℚ) ≤ Binary64.one := by
    have := hfraction.lt_one
    have hle : units fraction ≤ Binary64.one := by omega
    exact_mod_cast hle
  obtain ⟨hzero, hzeroUnits⟩ := @units_ofInt 0 (by decide)
  obtain ⟨hunit, hunitUnits⟩ := @units_ofInt 1 (by decide)
  rw [Int.zero_mul] at hzeroUnits
  rw [Int.one_mul] at hunitUnits
  obtain ⟨hweight, hweight0, hweight1⟩ := (rounds_sub hunit hfraction.finite).finite_of_between hzero hunit
    (by rw [hunitUnits, hzeroUnits]; push_cast; linarith) (by rw [hunitUnits]; push_cast; linarith)
  rw [hzeroUnits] at hweight0
  rw [hunitUnits] at hweight1
  have hweight0' : (0 : ℚ) ≤ units (Binary64.ofInt 1 - fraction) := by exact_mod_cast hweight0
  have hweight1' : (units (Binary64.ofInt 1 - fraction) : ℚ) ≤ Binary64.one := by exact_mod_cast hweight1
  obtain ⟨hleft, hleft0, hleft1⟩ := (rounds_mul hlow hweight).finite_of_between hlow hzero
    (by rw [le_div_iff₀ honePos]; exact mul_le_mul_of_nonpos_left hweight1' hlow0)
    (by
      rw [hzeroUnits, Int.cast_zero]
      exact div_nonpos_of_nonpos_of_nonneg (mul_nonpos_of_nonpos_of_nonneg hlow0 hweight0') honePos.le)
  obtain ⟨hright, hright0, hright1⟩ := (rounds_mul hhigh hfraction.finite).finite_of_between hzero hhigh
    (by rw [hzeroUnits, Int.cast_zero]; exact div_nonneg (mul_nonneg hhigh0 hfraction0) honePos.le)
    (by rw [div_le_iff₀ honePos]; exact mul_le_mul_of_nonneg_left hfraction1 hhigh0)
  rw [hzeroUnits] at hleft1 hright0
  refine ((rounds_add hleft hright).finite_of_between hlow hhigh ?_ ?_).1
  · rw [← Int.cast_add, Int.cast_le]
    omega
  · rw [← Int.cast_add, Int.cast_le]
    omega

/-- A number between two finite ones in order is finite. -/
theorem finite_interpolate : (interpolate low high fraction).isFinite = true := by
  dsimp only [interpolate]
  rcases hdelta : (high - low).isFinite with _ | _
  · rw [show Scalar.isFinite (high - low) = false from hdelta]
    exact finite_weighted hlow hhigh hle hfraction hdelta
  · rw [show Scalar.isFinite (high - low) = true from hdelta]
    exact finite_line hlow hhigh hle hfraction hdelta

end

/-! ## Sorted numbers -/

variable {xs : List Float}

theorem map_units_ascending (hfinite : ∀ x ∈ xs, x.isFinite = true) :
    (ascending xs).map units = (xs.map units).mergeSort fun a b => decide (a ≤ b) :=
  List.map_mergeSort fun a ha b hb => decide_eq_decide.mpr (le_iff_units (hfinite a ha) (hfinite b hb))

/-- Later entries of sorted numbers are not below earlier ones. -/
theorem units_ascending_le (hfinite : ∀ x ∈ xs, x.isFinite = true) {i j : Nat} (hij : i ≤ j)
    (hj : j < (ascending xs).length) : units (ascending xs)[i] ≤ units (ascending xs)[j] := by
  have hsorted : ((ascending xs).map units).Pairwise (· ≤ ·) := by
    rw [map_units_ascending hfinite]
    exact List.pairwise_mergeSort' (· ≤ ·) _
  rcases hij.eq_or_lt with rfl | hlt
  · rfl
  · exact List.pairwise_iff_getElem.mp (List.pairwise_map.mp hsorted) i j (hlt.trans hj) hj hlt

/-- A percentile of finite numbers is finite. -/
theorem finite_percentileOfSorted (hfinite : ∀ x ∈ xs, x.isFinite = true) (hlength : xs.length ≤ 2 ^ 53)
    (hne : xs ≠ []) {p x : Float} (hdefined : p.isNaN = false)
    (h : percentileOfSorted (ascending xs).toArray p = .ok x) : x.isFinite = true := by
  have hmem : ∀ y ∈ (ascending xs).toArray, y.isFinite = true := fun y hy =>
    hfinite y (List.mem_mergeSort.mp (List.mem_toArray.mp hy))
  have hsize : (ascending xs).toArray.size = xs.length := by
    rw [List.size_toArray, ascending, List.length_mergeSort]
  have hpos := List.length_pos_of_ne_nil hne
  obtain ⟨y, hy, hcase⟩ | ⟨i, j, hij, hj, fraction, hfraction, hcase⟩ :=
    percentileOfSorted_cases (hsize.trans_le hlength) (by omega) hdefined
  · rw [h] at hcase
    obtain rfl := Except.ok.inj hcase
    exact hmem x hy
  · rw [h] at hcase
    rw [Except.ok.inj hcase]
    refine finite_interpolate (hmem _ (Array.getElem_mem _)) (hmem _ (Array.getElem_mem _)) ?_ hfraction
    simp only [List.getElem_toArray]
    exact units_ascending_le hfinite hij (by simpa using hj)

end RangeCalc.Statistics
