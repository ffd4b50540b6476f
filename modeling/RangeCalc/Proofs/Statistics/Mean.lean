import RangeCalc.Proofs.Fallible
import RangeCalc.Proofs.Number.ExactSum
import RangeCalc.Proofs.Statistics.Extremes
import RangeCalc.Statistics.Summary

/-!
# Means that do not overflow

The mean of some finite numbers has no value only where both the sum of the numbers and the sum of their
shares overflow. That takes a number among the three largest ones.

* `meanOfFinite_of_quotients`, `meanOfFinite_eq`: the two sums of a mean;
* `finite_meanOfFinite`: a mean is finite and not too large;
* `meanOfFinite_isOk`: numbers that have a mean.
-/

namespace RangeCalc

open Binary64

variable {a : ℚ} {x y : Float} {n : Nat}

namespace Statistics

theorem sum_eq_ok_iff {α : Type} [Scalar α] {xs : List α} {total : α} :
    sum xs = .ok total ↔ Scalar.sum? xs = some total := by
  rw [sum]
  cases Scalar.sum? xs <;> simp

/-- The mean is a quotient of the sum, or the sum of quotients if the sum overflows. -/
theorem meanOfFinite_of_quotients {α : Type} [Scalar α] {xs : List α} (hne : xs ≠ []) {count : α}
    {share : α → α} (hcount : ofInt? (xs.length : Int) = .ok count)
    (hshare : ∀ x, quotient? x count = .ok (share x)) :
    meanOfFinite xs =
      match Scalar.sum? xs with
      | some total => .ok (share total)
      | none => sum (xs.map share) := by
  have hempty : ¬ xs.isEmpty = true := by simpa using hne
  rw [meanOfFinite, if_neg hempty, bind_ok hcount, sum]
  cases Scalar.sum? xs with
  | some total => exact hshare total
  | none => exact bind_ok (mapM_ok fun x _ => hshare x)

variable [MathLibrary]

/-! ## Quotients and products -/

theorem quotient?_eq (hy : y.isFinite = true) (hne : units y ≠ 0) : quotient? x y = .ok (x / y) := by
  obtain ⟨hzero, hunits⟩ := @units_ofInt 0 (by decide)
  refine if_neg (fun h : y ≤ Binary64.ofInt 0 ∧ Binary64.ofInt 0 ≤ y => ?_)
  rw [le_iff_units hy hzero, le_iff_units hzero hy, hunits] at h
  omega

/-- A count of at most `2 ^ 53` is a number. -/
theorem units_ofCount (hn : n ≤ 2 ^ 53) :
    (ofCount n : Float).isFinite = true ∧ units (ofCount n : Float) = n * Binary64.one :=
  @units_ofInt n hn

theorem units_ofCount_ne_zero (hn : n ≤ 2 ^ 53) (hpos : 0 < n) : units (ofCount n : Float) ≠ 0 := by
  rw [(units_ofCount hn).2]
  exact (Int.mul_pos (by omega) (by exact_mod_cast one_pos)).ne'

/-- The quotient of a finite number and a count. -/
theorem rounds_div_ofCount (hx : x.isFinite = true) (hn : n ≤ 2 ^ 53) (hpos : 0 < n) :
    Rounds (units x / n) (x / ofCount n) := by
  obtain ⟨hfinite, hunits⟩ := units_ofCount hn
  have h := rounds_div hx hfinite (units_ofCount_ne_zero hn hpos)
  rw [hunits] at h
  have hone := one_cast_pos.ne'
  have hne : (n : ℚ) ≠ 0 := by exact_mod_cast hpos.ne'
  have hvalue : (units x : ℚ) / ((n * Binary64.one : Int) : ℚ) * Binary64.one = units x / n := by
    push_cast
    field_simp
  rwa [hvalue] at h

/-- The product of a finite number and a count. -/
theorem rounds_mul_ofCount (hx : x.isFinite = true) (hn : n ≤ 2 ^ 53) :
    Rounds (units x * n) (x * ofCount n) := by
  obtain ⟨hfinite, hunits⟩ := units_ofCount hn
  have h := rounds_mul hx hfinite
  rwa [hunits, Int.cast_mul, Int.cast_natCast, Int.cast_natCast, ← mul_assoc,
    mul_div_cancel_right₀ _ one_cast_pos.ne'] at h

theorem finite_div_ofCount (hx : x.isFinite = true) (hn : n ≤ 2 ^ 53) (hpos : 0 < n) :
    (x / ofCount n).isFinite = true ∧ (units (x / ofCount n)).natAbs ≤ (units x).natAbs := by
  have hn1 : (1 : ℚ) ≤ n := by exact_mod_cast hpos
  refine (rounds_div_ofCount hx hn hpos).finite_of_le hx ?_
  rw [abs_div, Nat.abs_cast, Nat.cast_natAbs, Int.cast_abs]
  exact div_le_self (abs_nonneg _) hn1

/-- The shares of numbers below the three largest ones add up to less than what overflows. -/
theorem natAbs_div_ofCount_le (hx : x.isFinite = true) (hn : n ≤ 2 ^ 53) (hpos : 0 < n)
    (hbound : (units x).natAbs ≤ (2 ^ 54 - 8) * halfStep) :
    (units (x / ofCount n)).natAbs ≤ (2 ^ 54 - 5) * halfStep / n := by
  have hcount : (0 : ℚ) < n := by exact_mod_cast hpos
  have hsize : |(units x / n : ℚ)| ≤ ((2 ^ 54 - 8) * halfStep : Nat) / n := by
    rw [abs_div, Nat.abs_cast, ← Int.cast_abs, ← Nat.cast_natAbs]
    exact div_le_div_of_nonneg_right (by exact_mod_cast hbound) hcount.le
  have hround := (rounds_div_ofCount hx hn hpos).natAbs_le_add (finite_div_ofCount hx hn hpos).1 hsize
  -- rounding adds two half steps to the sum of all shares, and half a unit for each
  have hunit : (n : ℚ) ≤ 2 * halfStep := by
    have hhalf : 2 ^ 53 ≤ 2 * halfStep := by
      have := two_pow_le_twoTo (show 53 ≤ 2044 by decide)
      rw [halfStep]
      omega
    exact_mod_cast hn.trans hhalf
  have hstep : (0 : ℚ) ≤ halfStep := halfStep.cast_nonneg
  rw [Nat.le_div_iff_mul_le hpos, ← Nat.cast_le (α := ℚ)]
  push_cast at hround ⊢
  calc ((units (x / ofCount n)).natAbs : ℚ) * n
      ≤ (18014398509481976 * halfStep / n + 18014398509481976 * halfStep / n / 2 ^ 53 + 1 / 2) * n :=
        mul_le_mul_of_nonneg_right hround hcount.le
    _ = 18014398509481976 * halfStep + 18014398509481976 / 2 ^ 53 * halfStep + n / 2 := by
      field_simp
    _ ≤ 18014398509481979 * halfStep := by linarith

/-! ## Sums -/

variable {xs : List Float}

omit [MathLibrary] in
theorem sum_natAbs_le_mul (h : ∀ x ∈ xs, (units x).natAbs ≤ n) :
    (xs.map fun x => (units x).natAbs).sum ≤ xs.length * n := by
  have hsum := List.sum_le_card_nsmul (xs.map fun x => (units x).natAbs) n fun i hi => by
    obtain ⟨x, hx, rfl⟩ := List.mem_map.mp hi
    exact h x hx
  rwa [List.length_map, nsmul_eq_mul] at hsum

section

variable (hfinite : ∀ x ∈ xs, x.isFinite = true)

include hfinite

omit [MathLibrary] in
/-- A sum of numbers up to a bound. -/
theorem finite_sum {z : Float} (h : exactSum? xs = some z) (hn : ∀ x ∈ xs, (units x).natAbs ≤ n) :
    z.isFinite = true ∧ (units z).natAbs ≤ 2 * (xs.length * n) := by
  obtain ⟨hz, hrounds⟩ := rounds_exactSum? hfinite h
  refine ⟨hz, hrounds.natAbs_le_two_mul hz ?_⟩
  have habs := natAbs_sum_le (xs.map units)
  rw [List.map_map] at habs
  rw [← Int.cast_abs, ← Nat.cast_natAbs]
  exact_mod_cast habs.trans (sum_natAbs_le_mul hn)

variable (hne : xs ≠ []) (hlength : xs.length ≤ 2 ^ 53)

include hne hlength

omit hfinite in
/-- The two sums of a mean, with quotients of finite numbers. -/
theorem meanOfFinite_eq :
    meanOfFinite xs =
      match exactSum? xs with
      | some total => .ok (total / ofCount xs.length)
      | none => sum (xs.map (· / ofCount xs.length)) := by
  have hpos := List.length_pos_of_ne_nil hne
  obtain ⟨hcount, -⟩ := units_ofCount hlength
  rw [meanOfFinite_of_quotients hne (if_pos hcount)
    fun x => quotient?_eq hcount (units_ofCount_ne_zero hlength hpos), show Scalar.sum? xs = exactSum? xs from rfl]
  cases exactSum? xs <;> rfl

omit hfinite in
/-- A mean can only fail where a sum overflows. -/
theorem meanOfFinite_error {fault : StatisticsFault} (h : meanOfFinite xs = .error fault) :
    fault = .sumOverflow := by
  rw [meanOfFinite_eq hne hlength] at h
  cases hsum : exactSum? xs with
  | some total => rw [hsum] at h; cases h
  | none =>
    rw [hsum] at h
    dsimp only [sum] at h
    split at h
    · cases h
    · exact (Except.error.inj h).symm

/-- A mean is finite, and at most twice as large as the count times a bound. -/
theorem finite_meanOfFinite {center : Float} (hn : ∀ x ∈ xs, (units x).natAbs ≤ n)
    (h : meanOfFinite xs = .ok center) :
    center.isFinite = true ∧ (units center).natAbs ≤ 2 * (xs.length * n) := by
  have hpos := List.length_pos_of_ne_nil hne
  rw [meanOfFinite_eq hne hlength] at h
  cases hsum : exactSum? xs with
  | some total =>
    rw [hsum] at h
    obtain rfl := Except.ok.inj h
    obtain ⟨htotal, hbound⟩ := finite_sum hfinite hsum hn
    obtain ⟨hquotient, hle⟩ := finite_div_ofCount htotal hlength hpos
    exact ⟨hquotient, hle.trans hbound⟩
  | none =>
    rw [hsum] at h
    dsimp only [sum] at h
    split at h
    next total hshares =>
      obtain rfl := Except.ok.inj h
      have hshare : ∀ y ∈ xs.map (· / ofCount xs.length), y.isFinite = true ∧ (units y).natAbs ≤ n := by
        intro y hy
        obtain ⟨x, hx, rfl⟩ := List.mem_map.mp hy
        obtain ⟨hquotient, hle⟩ := finite_div_ofCount (hfinite x hx) hlength hpos
        exact ⟨hquotient, hle.trans (hn x hx)⟩
      have hbound := finite_sum (fun y hy => (hshare y hy).1) hshares fun y hy => (hshare y hy).2
      rwa [List.length_map] at hbound
    · cases h

/-- Numbers have a mean unless one is among the three largest ones. -/
theorem meanOfFinite_isOk (hn : ∀ x ∈ xs, (units x).natAbs ≤ (2 ^ 54 - 8) * halfStep) :
    ∃ center, meanOfFinite xs = .ok center := by
  have hpos := List.length_pos_of_ne_nil hne
  rw [meanOfFinite_eq hne hlength]
  cases hsum : exactSum? xs with
  | some total => exact ⟨_, rfl⟩
  | none =>
    have hshare : ∀ y ∈ xs.map (· / ofCount xs.length), y.isFinite = true ∧
        (units y).natAbs ≤ (2 ^ 54 - 5) * halfStep / xs.length := by
      intro y hy
      obtain ⟨x, hx, rfl⟩ := List.mem_map.mp hy
      exact ⟨(finite_div_ofCount (hfinite x hx) hlength hpos).1,
        natAbs_div_ofCount_le (hfinite x hx) hlength hpos (hn x hx)⟩
    have htotal := sum_natAbs_le_mul fun y hy => (hshare y hy).2
    rw [List.length_map] at htotal
    obtain ⟨z, hz⟩ := exactSum?_isSome (fun y hy => (hshare y hy).1)
      (htotal.trans (Nat.mul_div_le _ _))
    exact ⟨z, sum_eq_ok_iff.mpr hz⟩

end

end Statistics

end RangeCalc
