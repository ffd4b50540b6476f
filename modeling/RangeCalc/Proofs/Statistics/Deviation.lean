import RangeCalc.Proofs.Number.SquareRoot
import RangeCalc.Proofs.Statistics.Mean

/-!
# Deviations

Numbers that have a mean have a deviation: in units of the largest number all of them are at most one, and
the mean is at most twice their count. Squares are taken from the library, of which only so much is
assumed. The deviation in those units is moderate; multiplied by the largest number it may be infinite.

* `MathLibrary.SquaresBounded`: what is assumed of the library, and `squaringLibrary`, one that satisfies it;
* `scaledSquares_isOk`: sums of squares of moderate numbers;
* `deviationOfFinite_cases`: a deviation as a product, and `deviationOfFinite_isOk`, that there is one;
* `deviationOfFinite_defined`: a deviation is defined, and finite unless a number is very large.
-/

namespace RangeCalc

open Binary64

/-- The library squares numbers up to `2 ^ 64` to numbers that are not negative and at most `2 ^ 128`. -/
def MathLibrary.SquaresBounded [MathLibrary] : Prop :=
  ∀ x : Float, 0 < x → x ≤ 18446744073709551616 →
    0 ≤ MathLibrary.pow x 2 ∧ MathLibrary.pow x 2 ≤ 340282366920938463463374607431768211456

/-- A library of which nothing but squares is used. -/
@[reducible] def squaringLibrary : MathLibrary :=
  { platformLibrary with pow := fun x _ => x * x }

theorem squaringLibrary_squaresBounded : squaringLibrary.SquaresBounded := by
  intro x hpos hle
  obtain ⟨hzero, hzeroUnits⟩ : (0 : Float).isFinite = true ∧ units 0 = 0 := by decide +kernel
  obtain ⟨hlimit, hlimitUnits⟩ : (18446744073709551616 : Float).isFinite = true ∧
      units 18446744073709551616 = (2 ^ 64 * Binary64.one : Nat) := by decide +kernel
  obtain ⟨htop, htopUnits⟩ : (340282366920938463463374607431768211456 : Float).isFinite = true ∧
      units 340282366920938463463374607431768211456 = (2 ^ 128 * Binary64.one : Nat) := by decide +kernel
  have hx := (not_isNaN_of_le hle).1
  rw [lt_iff_key (not_isNaN_of_isFinite hzero) hx] at hpos
  have hnonneg : 0 ≤ x := (le_iff_key (not_isNaN_of_isFinite hzero) hx).mpr hpos.le
  obtain ⟨hfinite, hlow, hhigh⟩ := isFinite_of_between hzero hlimit hnonneg hle
  rw [hzeroUnits] at hlow
  rw [hlimitUnits] at hhigh
  have hsquare : (0 : ℚ) ≤ units x * units x / Binary64.one :=
    div_nonneg (mul_self_nonneg _) one_cast_pos.le
  obtain ⟨hproduct, hbound⟩ := finite_mul (i := 64) (j := 64) hfinite hfinite (by decide) (by omega) (by omega)
  show 0 ≤ x * x ∧ x * x ≤ 340282366920938463463374607431768211456
  rw [le_iff_units hzero hproduct, le_iff_units hproduct htop, hzeroUnits, htopUnits]
  exact ⟨(rounds_mul hfinite hfinite).units_nonneg hproduct hsquare, by omega⟩

variable [MathLibrary] {x y center scale : Float}

/-! ## Squares -/

/-- A number that is not negative and at most `2 ^ 128`. -/
structure Moderate (y : Float) : Prop where
  finite : y.isFinite = true
  nonneg : 0 ≤ units y
  le : (units y).natAbs ≤ twoTo 128 * one

omit [MathLibrary] in
theorem Moderate.of_le (hlow : 0 ≤ y) (hhigh : y ≤ 340282366920938463463374607431768211456) :
    Moderate y := by
  obtain ⟨hzero, hunits⟩ : (0 : Float).isFinite = true ∧ units 0 = 0 := by decide +kernel
  obtain ⟨hlimit, hlimitUnits⟩ :
      (340282366920938463463374607431768211456 : Float).isFinite = true ∧
        units 340282366920938463463374607431768211456 = twoTo 128 * one := by decide +kernel
  obtain ⟨hfinite, hlow, hhigh⟩ := isFinite_of_between hzero hlimit hlow hhigh
  exact ⟨hfinite, hlow, by omega⟩

section

variable (hsquares : MathLibrary.SquaresBounded)

include hsquares

theorem libraryPower?_isOk (hpos : 0 < x) (hle : x ≤ 18446744073709551616) :
    ∃ y, libraryPower? x 2 = .ok y ∧ Moderate y := by
  obtain ⟨hlow, hhigh⟩ := hsquares x hpos hle
  have hmoderate := Moderate.of_le hlow hhigh
  refine ⟨_, if_neg ?_, hmoderate⟩
  rw [not_isInf_of_isFinite hmoderate.finite]
  exact Bool.false_ne_true

/-- The square of a number up to `2 ^ 64`. -/
theorem power?_isOk (hx : x.isFinite = true) (hle : (units x).natAbs ≤ twoTo 64 * one) :
    ∃ y, power? x 2 = .ok y ∧ Moderate y := by
  have hzero : (0 : Float).isFinite = true ∧ units 0 = 0 := by decide +kernel
  have hlimit : (18446744073709551616 : Float).isFinite = true ∧
      units 18446744073709551616 = twoTo 64 * one := by decide +kernel
  have hmoderate : Moderate 0 ∧ Moderate 1 :=
    ⟨.of_le (by decide +kernel) (by decide +kernel), .of_le (by decide +kernel) (by decide +kernel)⟩
  have htwo : ((2 : Float) == 0) = false ∧ (2 : Float).isNaN = false ∧ (2 : Float).isInf = false ∧
      ¬ (2 : Float) < 0 ∧ isOddInteger 2 = false ∧ isInteger 2 = true := by decide +kernel
  obtain ⟨hne, hnan, hinf, hneg, hodd, hinteger⟩ := htwo
  have hpow {b : Float} (hb : b.isFinite = true) (hpos : 0 < units b)
      (hb' : units b ≤ twoTo 64 * one) : ∃ y, libraryPower? b 2 = .ok y ∧ Moderate y := by
    refine libraryPower?_isOk hsquares ((lt_iff_units hzero.1 hb).mpr ?_)
      ((le_iff_units hb hlimit.1).mpr ?_)
    · rwa [hzero.2]
    · rwa [hlimit.2]
  rw [power?, hne, not_isNaN_of_isFinite hx, hnan, hinf, not_isInf_of_isFinite hx]
  simp only [Bool.false_eq_true, if_false]
  split
  · -- a zero
    rw [powerOfZero?, if_neg hneg, hodd]
    exact ⟨0, rfl, hmoderate.1⟩
  next hx0 =>
  have hx0' : units x ≠ 0 := by
    intro h0
    refine hx0 ((beq_iff_key (not_isNaN_of_isFinite hx) (not_isNaN_of_isFinite hzero.1)).mpr ?_)
    rw [key_of_isFinite hx, key_of_isFinite hzero.1, h0, hzero.2]
  split
  next hxneg =>
    rw [lt_iff_units hx hzero.1, hzero.2] at hxneg
    obtain ⟨hnegFinite, hnegUnits⟩ := units_neg hx
    rw [powerOfNegative?, hodd, hinteger]
    split
    · exact ⟨1, rfl, hmoderate.2⟩
    · obtain ⟨y, hy, hymoderate⟩ := hpow hnegFinite (by omega) (by omega)
      exact ⟨y, bind_ok hy, hymoderate⟩
  next hxneg =>
  rw [lt_iff_units hx hzero.1, hzero.2] at hxneg
  split
  · exact ⟨1, rfl, hmoderate.2⟩
  · exact hpow hx (by omega) (by omega)

end

namespace Statistics

section

variable (hsquares : MathLibrary.SquaresBounded)

include hsquares

/-- The square of the deviation of a number, in units of one that is not smaller. -/
theorem scaledSquare?_isOk (hx : x.isFinite = true) (hcenter : center.isFinite = true)
    (hscale : scale.isFinite = true) (hne : units scale ≠ 0)
    (hxle : (units x).natAbs ≤ (units scale).natAbs)
    (hcenterle : (units center).natAbs ≤ 2 ^ 54 * (units scale).natAbs) :
    ∃ y, scaledSquare? center scale x = .ok y ∧ Moderate y := by
  obtain ⟨k, hk, hone⟩ := exists_one_eq
  obtain ⟨hplace, hplacele⟩ := finite_div (j := 0) hx hscale hne (by decide) (by omega)
  obtain ⟨hmiddle, hmiddlele⟩ := finite_div hcenter hscale hne (by decide) hcenterle
  have htwo : Binary64.ofInt 2 = 2 := by decide +kernel
  have hlt : 1 * 2 ^ (64 + k) < overflowKey := by
    rw [Nat.one_mul]
    exact two_pow_lt_overflowKey (by omega)
  have hdifference : |(units (x / scale) - units (center / scale) : ℚ)| ≤ (1 * 2 ^ (64 + k) : Nat) := by
    have hle : (units (x / scale) - units (center / scale)).natAbs ≤ 1 * 2 ^ (64 + k) := by
      rw [hone] at hplacele hmiddlele
      rw [Nat.one_mul, Nat.pow_add]
      omega
    rw [← Int.cast_sub, ← Int.cast_abs, ← Nat.cast_natAbs]
    exact_mod_cast hle
  obtain ⟨hfinite, hle⟩ := (rounds_sub hplace hmiddle).finite (by decide) hlt hdifference
  rw [Nat.one_mul, Nat.pow_add, ← hone, ← twoTo_eq] at hle
  obtain ⟨y, hy, hmoderate⟩ := power?_isOk hsquares hfinite hle
  refine ⟨y, ?_, hmoderate⟩
  have hpower : Scalar.power? (x / scale - center / scale) (Scalar.ofInt 2) = .ok y := by
    show power? _ (Binary64.ofInt 2) = .ok y
    rw [htwo]
    exact hy
  rw [scaledSquare?, bind_ok (quotient?_eq hscale hne), bind_ok (quotient?_eq hscale hne), square?]
  rw [show Scalar.power? _ _ = _ from hpower]

/-- The sum of the squared deviations of some numbers is moderate for their count. -/
theorem scaledSquares_isOk {xs : List Float} (hlength : xs.length ≤ 2 ^ 53)
    (hxs : ∀ x ∈ xs, x.isFinite = true ∧ (units x).natAbs ≤ (units scale).natAbs)
    (hcenter : center.isFinite = true) (hscale : scale.isFinite = true) (hne : units scale ≠ 0)
    (hcenterle : (units center).natAbs ≤ 2 ^ 54 * (units scale).natAbs) :
    ∃ z, scaledSquares xs center scale = .ok z ∧ z.isFinite = true ∧ 0 ≤ units z ∧
      units z ≤ 2 * (xs.length * (twoTo 128 * Binary64.one) : Nat) := by
  obtain ⟨squares, hsquares, hsize, hmoderate⟩ := mapM_isOk Moderate fun x hx =>
    scaledSquare?_isOk hsquares (hxs x hx).1 hcenter hscale hne (hxs x hx).2 hcenterle
  have htotal : (squares.map fun y => (units y).natAbs).sum ≤ (2 ^ 54 - 5) * halfStep := by
    obtain ⟨k, hk, hone⟩ := exists_one_eq
    obtain ⟨l, hl, hhalf⟩ := exists_halfStep_eq
    refine (sum_natAbs_le_mul fun y hy => (hmoderate y hy).le).trans ?_
    rw [twoTo_eq, hone, hhalf, hsize]
    calc xs.length * (2 ^ 128 * 2 ^ k) ≤ 2 ^ 53 * (2 ^ 128 * 2 ^ k) := Nat.mul_le_mul_right _ hlength
      _ = 2 ^ (53 + (128 + k)) := by rw [Nat.pow_add, Nat.pow_add]
      _ ≤ 2 ^ l := Nat.pow_le_pow_right (by decide) (by omega)
      _ ≤ (2 ^ 54 - 5) * 2 ^ l := Nat.le_mul_of_pos_left _ (by decide)
  obtain ⟨z, hz⟩ := exactSum?_isSome (fun y hy => (hmoderate y hy).finite) htotal
  obtain ⟨hfinite, hrounds⟩ := rounds_exactSum? (fun y hy => (hmoderate y hy).finite) hz
  have hnonneg : 0 ≤ units z := by
    refine hrounds.units_nonneg hfinite ?_
    rw [Int.cast_nonneg_iff]
    refine List.sum_nonneg fun i hi => ?_
    obtain ⟨y, hy, rfl⟩ := List.mem_map.mp hi
    exact (hmoderate y hy).nonneg
  have hle := (finite_sum (fun y hy => (hmoderate y hy).finite) hz fun y hy => (hmoderate y hy).le).2
  rw [hsize] at hle
  refine ⟨z, ?_, hfinite, hnonneg, by omega⟩
  rw [scaledSquares, bind_ok hsquares]
  exact sum_eq_ok_iff.mpr hz

omit hsquares in
theorem root?_eq (hx : x.isFinite = true) (hnonneg : 0 ≤ units x) : root? x = .ok x.sqrt := by
  have hzero : (0 : Float).isFinite = true ∧ units 0 = 0 := by decide +kernel
  have hcall : Scalar.call? .sqrt [x] = if x < 0 then .error .domain else .ok x.sqrt := rfl
  have hneg : ¬ x < 0 := by
    rw [lt_iff_units hx hzero.1, hzero.2]
    omega
  rw [root?, hcall, if_neg hneg]

omit hsquares in
/-- The root of the mean of squares that are moderate for their count, with one degree of freedom less. -/
theorem root?_isOk {n : Nat} (hn : 0 < n) (hcount : n ≤ 2 ^ 53) (hx : x.isFinite = true)
    (hnonneg : 0 ≤ units x) (hle : units x ≤ 2 * ((n + 1) * (twoTo 128 * Binary64.one) : Nat)) :
    ∃ root, (quotient? x (ofCount n) >>= root?) = .ok root ∧ root.isFinite = true ∧ 0 ≤ units root ∧
      units root ≤ 2 ^ 65 * Binary64.one := by
  obtain ⟨k, hk, hone⟩ := exists_one_eq
  have hrounds := rounds_div_ofCount hx hcount hn
  have hshareNonneg : (0 : ℚ) ≤ units x / n := div_nonneg (by exact_mod_cast hnonneg) n.cast_nonneg
  have hshare : |(units x / n : ℚ)| ≤ (1 * 2 ^ (130 + k) : Nat) := by
    rw [abs_of_nonneg hshareNonneg, div_le_iff₀ (by exact_mod_cast hn)]
    have hdouble : 2 * ((n + 1) * (twoTo 128 * Binary64.one)) ≤ 1 * 2 ^ (130 + k) * n := by
      rw [twoTo_eq, Nat.pow_add, ← hone]
      calc 2 * ((n + 1) * (2 ^ 128 * Binary64.one)) ≤ 2 * (2 * n * (2 ^ 128 * Binary64.one)) :=
            Nat.mul_le_mul_left _ (Nat.mul_le_mul_right _ (by omega))
        _ = 1 * (2 ^ 130 * Binary64.one) * n := by ring
    exact_mod_cast hle.trans (by exact_mod_cast hdouble)
  obtain ⟨hfinite, hsize⟩ := hrounds.finite (by decide)
    (by rw [Nat.one_mul]; exact two_pow_lt_overflowKey (by omega)) hshare
  have hquotientNonneg := hrounds.units_nonneg hfinite hshareNonneg
  rw [Nat.one_mul, Nat.pow_add, ← hone] at hsize
  refine ⟨(x / ofCount n).sqrt, ?_, units_sqrt_le hfinite hquotientNonneg (by decide) ?_⟩
  · rw [bind_ok (quotient?_eq (units_ofCount hcount).1 (units_ofCount_ne_zero hcount hn)),
      root?_eq hfinite hquotientNonneg]
  · rw [← Int.natAbs_of_nonneg hquotientNonneg]
    exact_mod_cast hsize

omit hsquares [MathLibrary] in
theorem abs_finite {first : Float} {rest : List Float}
    (hfinite : ∀ x ∈ first :: rest, x.isFinite = true) :
    ∀ y ∈ first.abs :: rest.map Float.abs, y.isFinite = true := by
  intro y hy
  rw [← List.map_cons] at hy
  obtain ⟨x, hx, rfl⟩ := List.mem_map.mp hy
  exact (units_abs (hfinite x hx)).1

omit hsquares in
/-- The greatest absolute value of some finite numbers. -/
theorem natAbs_le_magnitude {first : Float} {rest : List Float}
    (hfinite : ∀ x ∈ first :: rest, x.isFinite = true) :
    (Statistics.magnitude first rest).isFinite = true ∧
      ∀ x ∈ first :: rest, (units x).natAbs ≤ (units (Statistics.magnitude first rest)).natAbs := by
  obtain ⟨hmem, hle⟩ := isGreatest_greatest (abs_finite hfinite)
  have hscale := abs_finite hfinite _ hmem
  refine ⟨hscale, fun x hx => ?_⟩
  have hx' := hle x.abs (by rw [← List.map_cons]; exact List.mem_map_of_mem hx)
  rw [le_iff_units (units_abs (hfinite x hx)).1 hscale, (units_abs (hfinite x hx)).2] at hx'
  show (units x).natAbs ≤ (units (Scalar.greatest first.abs (rest.map Float.abs))).natAbs
  omega

omit hsquares in
/-- The greatest absolute value is that of one of the numbers. -/
theorem magnitude_mem {first : Float} {rest : List Float}
    (hfinite : ∀ x ∈ first :: rest, x.isFinite = true) :
    ∃ x ∈ first :: rest, Statistics.magnitude first rest = x.abs := by
  have hmem := (isGreatest_greatest (abs_finite hfinite)).1
  rw [← List.map_cons] at hmem
  obtain ⟨x, hx, heq⟩ := List.mem_map.mp hmem
  exact ⟨x, hx, heq.symm⟩

omit hsquares in
/-- A mean is at most `2 ^ 54` times as large as the greatest absolute value. -/
theorem natAbs_mean_le {first : Float} {rest : List Float}
    (hfinite : ∀ x ∈ first :: rest, x.isFinite = true) (hlength : (first :: rest).length ≤ 2 ^ 53)
    (hmean : meanOfFinite (first :: rest) = .ok center) :
    center.isFinite = true ∧
      (units center).natAbs ≤ 2 ^ 54 * (units (Statistics.magnitude first rest)).natAbs := by
  obtain ⟨-, hle⟩ := natAbs_le_magnitude hfinite
  obtain ⟨hcenter, hcenterle⟩ := finite_meanOfFinite hfinite (List.cons_ne_nil _ _) hlength hle hmean
  refine ⟨hcenter, hcenterle.trans ?_⟩
  rw [← Nat.mul_assoc]
  exact Nat.mul_le_mul_right _ (by omega)

omit hsquares in
theorem units_ne_zero_of_pos (hscale : scale.isFinite = true) (hpos : zero < scale) : units scale ≠ 0 := by
  obtain ⟨hzero, hunits⟩ := @units_ofInt 0 (by decide)
  have h := (lt_iff_units hzero hscale).mp hpos
  rw [hunits] at h
  omega

/-- A deviation is zero, or it is the product of the greatest absolute value and a moderate root. -/
theorem deviationOfFinite_cases {xs : List Float} (hfinite : ∀ x ∈ xs, x.isFinite = true)
    (hlength : xs.length ≤ 2 ^ 53) (hmean : ∃ center, meanOfFinite xs = .ok center) :
    deviationOfFinite xs = .ok zero ∨
      ∃ x ∈ xs, ∃ root, deviationOfFinite xs = .ok (x.abs * root) ∧ root.isFinite = true ∧
        0 ≤ units root ∧ units root ≤ 2 ^ 65 * Binary64.one := by
  obtain ⟨center, hmean⟩ := hmean
  match xs, hmean with
  | [], _ => exact .inl rfl
  | [_], _ => exact .inl rfl
  | first :: second :: rest, hmean =>
    obtain ⟨hscale, hle⟩ := natAbs_le_magnitude hfinite
    obtain ⟨hcenter, hcenterle⟩ := natAbs_mean_le hfinite hlength hmean
    obtain ⟨x, hx, hmagnitude⟩ := magnitude_mem hfinite
    dsimp only [deviationOfFinite]
    rw [bind_ok hmean]
    split
    next hpos =>
      obtain ⟨squares, hsum, hsumFinite, hnonneg, hsumle⟩ := scaledSquares_isOk hsquares hlength
        (fun x hx => ⟨hfinite x hx, hle x hx⟩) hcenter hscale (units_ne_zero_of_pos hscale hpos) hcenterle
      obtain ⟨n, hn⟩ : ∃ n, (first :: second :: rest).length = n + 1 := ⟨_, rfl⟩
      have hpos : 0 < n := by
        rw [List.length_cons, List.length_cons] at hn
        omega
      rw [hn] at hsumle
      obtain ⟨root, hroot, hbounds⟩ := root?_isOk hpos (by omega) hsumFinite hnonneg hsumle
      obtain ⟨variance, hvariance, hroot⟩ := bind_eq_ok.mp hroot
      refine .inr ⟨x, hx, root, ?_, hbounds⟩
      rw [bind_ok hsum, hn, Nat.add_sub_cancel, bind_ok hvariance, bind_ok hroot, hmagnitude]
      rfl
    · exact .inl rfl

/-- Finite numbers that have a mean have a deviation. -/
theorem deviationOfFinite_isOk {xs : List Float} (hfinite : ∀ x ∈ xs, x.isFinite = true)
    (hlength : xs.length ≤ 2 ^ 53) (hmean : ∃ center, meanOfFinite xs = .ok center) :
    ∃ deviation, deviationOfFinite xs = .ok deviation := by
  obtain hzero | ⟨x, -, root, hproduct, -⟩ := deviationOfFinite_cases hsquares hfinite hlength hmean
  · exact ⟨_, hzero⟩
  · exact ⟨_, hproduct⟩

/-- A deviation is defined, and it is finite unless a number is above `2 ^ 957`. -/
theorem deviationOfFinite_defined {xs : List Float} {deviation : Float}
    (hfinite : ∀ x ∈ xs, x.isFinite = true) (hlength : xs.length ≤ 2 ^ 53)
    (h : deviationOfFinite xs = .ok deviation) (hmean : ∃ center, meanOfFinite xs = .ok center) :
    deviation.isNaN = false ∧
      ((∀ x ∈ xs, (units x).natAbs ≤ 2 ^ 957 * Binary64.one) → deviation.isFinite = true) := by
  obtain hzero | ⟨x, hx, root, hproduct, hroot, hnonneg, hle⟩ :=
    deviationOfFinite_cases hsquares hfinite hlength hmean
  · rw [h] at hzero
    obtain rfl := Except.ok.inj hzero
    have hfinite := (@units_ofInt 0 (by decide)).1
    exact ⟨not_isNaN_of_isFinite hfinite, fun _ => hfinite⟩
  · rw [h] at hproduct
    obtain rfl := Except.ok.inj hproduct
    obtain ⟨habs, hunits⟩ := units_abs (hfinite x hx)
    refine ⟨(rounds_mul habs hroot).defined, fun hsmall => ?_⟩
    refine (finite_mul habs hroot (show 957 + 65 < 1024 by decide) ?_ (by omega)).1
    rw [hunits, Int.natAbs_natCast]
    exact hsmall x hx

end

end Statistics

end RangeCalc
