import RangeCalc.Proofs.Number.Units

/-!
# Square roots

A square root is computed with as many bits as the rounding keeps, and with what is known of the bits that
follow: whether there are any, and whether they are more than half a unit. A rational number with the same
whole part and the same knowledge stands for the root, so that the rounding of rational numbers applies.

* `sqrtCore_eq`: the rational number that stands for a root;
* `units_sqrt_le`: the root of a number that is at most a power of four.
-/

namespace RangeCalc.Binary64

open Float.Model Float.Model.UnpackedFloat

/-- The root of `n` in quarters of a unit, as far as it is known: exact, or one quarter above its whole part
for less than half a unit, or three for more. -/
def rootQuarters (n : Nat) : Nat :=
  4 * n.sqrt + if n - n.sqrt * n.sqrt = 0 then 0 else if n - n.sqrt * n.sqrt ≤ n.sqrt then 1 else 3

theorem rootQuarters_div (n : Nat) : rootQuarters n / 4 = n.sqrt := by
  unfold rootQuarters
  split
  · omega
  · split <;> omega

theorem accuracyOfFraction_rootQuarters (n : Nat) :
    accuracyOfFraction (rootQuarters n % 4) 4 =
      if n - n.sqrt * n.sqrt = 0 then .exact
      else .inexact (if n - n.sqrt * n.sqrt ≤ n.sqrt then .lt else .gt) := by
  unfold rootQuarters
  split
  · rw [Nat.add_zero, Nat.mul_mod_right]
    rfl
  · split <;> rw [Nat.mul_add_mod] <;> rfl

/-- The root of a square is known exactly, and other roots are not known to be larger. -/
theorem rootQuarters_le {n b : Nat} (h : n ≤ b * b) : rootQuarters n ≤ 4 * b := by
  have hroot : n.sqrt * n.sqrt ≤ n := Nat.sqrt_le n
  have hle : n.sqrt ≤ b := Nat.mul_self_le_mul_self_iff.mp (hroot.trans h)
  unfold rootQuarters
  rcases hle.lt_or_eq with hlt | rfl
  · split
    · omega
    · split <;> omega
  · rw [if_pos (by omega)]
    omega

/-- The root of a number that is at most a power of four is at most that power of two: it is a whole number of
the units in which the root is computed. -/
theorem rootQuarters_mul_zpow_le {n j : Nat} {t : Int} (hn : 0 < n)
    (h : (n : ℚ) * 2 ^ (2 * t) ≤ 2 ^ (2 * (j : Int))) :
    0 ≤ (rootQuarters n : ℚ) / 4 * 2 ^ t ∧ (rootQuarters n : ℚ) / 4 * 2 ^ t ≤ 2 ^ j := by
  have htj : t ≤ j := by
    have hpow : (2 : ℚ) ^ (2 * t) ≤ 2 ^ (2 * (j : Int)) := by
      refine (le_mul_of_one_le_left (by positivity) ?_).trans h
      exact_mod_cast hn
    have := (zpow_le_zpow_iff_right₀ (by norm_num : (1 : ℚ) < 2)).mp hpow
    omega
  obtain ⟨i, hi⟩ : ∃ i : Nat, (j : Int) = i + t := ⟨(j - t).toNat, by omega⟩
  have hroot : rootQuarters n ≤ 4 * 2 ^ i := by
    refine rootQuarters_le ?_
    have hpow : (2 : ℚ) ^ (2 * (j : Int)) = (2 ^ i * 2 ^ i : Nat) * 2 ^ (2 * t) := by
      rw [hi, mul_add, zpow_add₀ (by norm_num), two_mul (i : Int), zpow_add₀ (by norm_num), zpow_natCast]
      push_cast
      rfl
    rw [hpow] at h
    exact_mod_cast le_of_mul_le_mul_right h (by positivity)
  refine ⟨by positivity, ?_⟩
  rw [← zpow_natCast, hi, zpow_add₀ (by norm_num), zpow_natCast]
  refine mul_le_mul_of_nonneg_right ?_ (by positivity)
  rw [div_le_iff₀ (by norm_num), mul_comm]
  exact_mod_cast hroot

/-- The root of a mantissa with an exponent is computed as a fraction with at least as many bits as the
rounding keeps. -/
theorem sqrtCore_eq {m : Nat} {e : Int} (hm : 0 < m) :
    ∃ n t, sqrtCore Format.binary64 m e =
        (rootQuarters n / 4, t, accuracyOfFraction (rootQuarters n % 4) 4) ∧
      t ≤ max (((rootQuarters n / 4).log2 : Int) + t - 52) (-1074) ∧
      (n : ℚ) * 2 ^ (2 * t) = m * 2 ^ e := by
  obtain ⟨t, ht⟩ : ∃ t, min (e / 2) (max ((m.log2 + 1 + e + 1) / 2 - 53) (-1074)) = t := ⟨_, rfl⟩
  obtain ⟨sh, hsh⟩ : ∃ sh, (e - 2 * t).toNat = sh := ⟨_, rfl⟩
  have htarget : min (e.ediv 2) (Format.binary64.targetExponent ((totalExponent m e + 1).ediv 2)) = t := by
    rw [← ht]
    simp only [Format.targetExponent, totalExponent, Format.mantissaBits, Format.minExponent]
    rfl
  refine ⟨m * 2 ^ sh, t, ?_, ?_, ?_⟩
  · rw [rootQuarters_div, accuracyOfFraction_rootQuarters]
    simp only [sqrtCore, htarget, hsh, Nat.shiftLeft_eq]
  · rw [rootQuarters_div]
    by_cases hmin : t ≤ -1074
    · omega
    have hbits : 104 ≤ m.log2 + sh := by omega
    have hroot : 2 ^ 52 ≤ (m * 2 ^ sh).sqrt := by
      rw [Nat.le_sqrt]
      calc 2 ^ 52 * 2 ^ 52 = 2 ^ 104 := (Nat.pow_add 2 52 52).symm
        _ ≤ 2 ^ (m.log2 + sh) := Nat.pow_le_pow_right (by decide) hbits
        _ = 2 ^ m.log2 * 2 ^ sh := Nat.pow_add 2 _ _
        _ ≤ m * 2 ^ sh := Nat.mul_le_mul_right _ (Nat.log2_self_le hm.ne')
    have := (Nat.le_log2 (by omega)).mpr hroot
    omega
  · have hexp : e = sh + 2 * t := by omega
    rw [hexp, zpow_add₀ (by norm_num), zpow_natCast]
    push_cast
    ring

variable {x : Float} {j : Nat}

/-- The root of a finite number that is not negative is rounded from a rational number. -/
theorem rounds_sqrt (hx : x.isFinite = true) (hpos : 0 < units x) :
    ∃ (n : Nat) (t : Int), Rounds (rootQuarters n / 4 * 2 ^ t * one) x.sqrt ∧
      (n : ℚ) * 2 ^ (2 * t) * one = units x := by
  show ∃ (n : Nat) (t : Int), Rounds _ (.ofModel (.pack (UnpackedFloat.sqrt _ x.toModel.unpack))) ∧ _
  rcases finite_cases hx with ⟨hzero, -⟩ | ⟨s, m, e, hm, hu, hc, hv⟩
  · omega
  obtain rfl : s = .positive := by
    cases s with
    | negative =>
      rw [hv, UnpackedFloat.Sign.apply] at hpos
      omega
    | positive => rfl
  obtain ⟨n, t, hcore, hbits, hvalue⟩ := @sqrtCore_eq m e hm
  obtain ⟨r, hr, hunits⟩ := hasUnits_roundWithAccuracy (s := .positive) (by decide) hbits
  refine ⟨n, t, ?_, ?_⟩
  · rw [hu]
    simp only [UnpackedFloat.sqrt, hcore]
    exact hunits.rounds_signed hr (mul_nonneg (by positivity) one_cast_pos.le) (.inl ⟨rfl, rfl⟩)
  · rw [hvalue, hv, UnpackedFloat.Sign.apply, Int.cast_natCast, cast_units hc.le]

theorem sqrt_of_zero (hx : x.isFinite = true) (hzero : units x = 0) :
    x.sqrt.isFinite = true ∧ units x.sqrt = 0 := by
  have hrounds : Rounds 0 x.sqrt := by
    show Rounds 0 (.ofModel (.pack (UnpackedFloat.sqrt _ x.toModel.unpack)))
    rcases finite_cases hx with ⟨-, s, hu⟩ | ⟨s, m, e, hm, -, hc, hv⟩
    · rw [hu]
      exact rounds_zero s
    · have hpos := Nat.mul_pos hm (Nat.two_pow_pos (e + 1074).toNat)
      rw [hv] at hzero
      cases s <;> simp only [UnpackedFloat.Sign.apply] at hzero <;> omega
  exact hrounds.of_zero

/-- The root of a number that is at most a power of four. -/
theorem units_sqrt_le (hx : x.isFinite = true) (hnonneg : 0 ≤ units x) (hj : j ≤ 512)
    (hle : units x ≤ 2 ^ (2 * j) * one) :
    x.sqrt.isFinite = true ∧ 0 ≤ units x.sqrt ∧ units x.sqrt ≤ 2 ^ j * one := by
  obtain ⟨k, hk, hone⟩ := exists_one_eq
  have honePos := one_cast_pos
  rcases hnonneg.eq_or_lt with hzero | hpos
  · obtain ⟨hfinite, hroot⟩ := sqrt_of_zero hx hzero.symm
    exact ⟨hfinite, hroot.ge, by rw [hroot]; exact mul_nonneg (by positivity) one.cast_nonneg⟩
  obtain ⟨n, t, hrounds, hvalue⟩ := rounds_sqrt hx hpos
  have hn : 0 < n := by
    rcases Nat.eq_zero_or_pos n with rfl | hn
    · rw [Nat.cast_zero, zero_mul, zero_mul, eq_comm, Int.cast_eq_zero] at hvalue
      omega
    · exact hn
  have hbound : (n : ℚ) * 2 ^ (2 * t) ≤ 2 ^ (2 * (j : Int)) := by
    refine le_of_mul_le_mul_right ?_ honePos
    rw [hvalue]
    exact_mod_cast hle
  obtain ⟨hquotientNonneg, hquotient⟩ := rootQuarters_mul_zpow_le hn hbound
  have hunits : (rootQuarters n : ℚ) / 4 * 2 ^ t * one ≤ (1 * 2 ^ (j + k) : Nat) := by
    rw [Nat.one_mul, Nat.pow_add, ← hone, Nat.cast_mul, Nat.cast_pow, Nat.cast_ofNat]
    exact mul_le_mul_of_nonneg_right hquotient honePos.le
  have hnonneg' := mul_nonneg hquotientNonneg honePos.le
  have hlt : 1 * 2 ^ (j + k) < overflowKey := by
    rw [Nat.one_mul]
    exact two_pow_lt_overflowKey (by omega)
  obtain ⟨hfinite, hsize⟩ := hrounds.finite (by decide) hlt (by rwa [abs_of_nonneg hnonneg'])
  have hroot := hrounds.units_nonneg hfinite hnonneg'
  rw [Nat.one_mul, Nat.pow_add, ← hone] at hsize
  refine ⟨hfinite, hroot, ?_⟩
  rw [← Int.natAbs_of_nonneg hroot]
  exact_mod_cast hsize

end RangeCalc.Binary64
