import Mathlib
import RangeCalc.Number.Binary64

/-!
# Rounding to the nearest number

A rational number `num / den` that is shifted to an exponent loses bits, of which the rounding keeps
the first and whether there are more. That is enough: the rounding gives the nearest integer, ties to
even (`roundedMantissa_ofFraction`, `shiftRight_ofFraction`). A rational number in the rounding
interval of a canonical number therefore rounds to it (`roundWithAccuracy_eq`); the interval is
narrower below the powers of two, where the numbers are closer together.
-/

namespace RangeCalc.Binary64

open Float.Model Float.Model.UnpackedFloat

/-! ## Integers -/

/-- The integer nearest to `num / den`, ties to even. -/
def roundEven (num den : Nat) : Nat :=
  match compare (2 * (num % den)) den with
  | .lt => num / den
  | .eq => num / den + num / den % 2
  | .gt => num / den + 1

/-- An integer at most half a unit away is the nearest; at half a unit it has to be even. -/
theorem roundEven_eq {num den r : Nat} (hden : 0 < den) (hlow : 2 * (r * den) ≤ 2 * num + den)
    (hhigh : 2 * num ≤ 2 * (r * den) + den)
    (hodd : r % 2 = 1 → 2 * (r * den) ≠ 2 * num + den ∧ 2 * num ≠ 2 * (r * den) + den) :
    roundEven num den = r := by
  have hnum := Nat.div_add_mod num den
  have hrem := Nat.mod_lt num hden
  unfold roundEven
  generalize num / den = q at hnum ⊢
  generalize num % den = rem at hnum hrem ⊢
  have hr : r = q ∨ r = q + 1 := by
    have h1 : r < q + 2 := by
      by_contra h
      have : (q + 2) * den ≤ r * den := Nat.mul_le_mul_right den (by omega)
      rw [Nat.add_mul, Nat.mul_comm q] at this
      omega
    have h2 : q < r + 1 := by
      by_contra h
      have : (r + 1) * den ≤ q * den := Nat.mul_le_mul_right den (by omega)
      rw [Nat.add_mul, Nat.mul_comm q] at this
      omega
    omega
  rcases hr with rfl | rfl
  · rw [Nat.mul_comm r] at hlow hhigh hodd
    rcases hcmp : compare (2 * rem) den with _ | _ | _
    · rfl
    · have := Nat.compare_eq_eq.mp hcmp
      show r + r % 2 = r
      omega
    · have := Nat.compare_eq_gt.mp hcmp
      omega
  · rw [Nat.add_mul, Nat.mul_comm q] at hlow hhigh hodd
    rcases hcmp : compare (2 * rem) den with _ | _ | _
    · have := Nat.compare_eq_lt.mp hcmp
      omega
    · have := Nat.compare_eq_eq.mp hcmp
      show q + q % 2 = q + 1
      omega
    · rfl

/-- The whole part of `num / den` with its first lost bit and whether there are more. -/
def ofFraction (num den : Nat) : ExtendedMantissa :=
  .ofMantissaAndAccuracy (num / den) (accuracyOfFraction (num % den) den)

theorem roundedMantissa_ofFraction {num den : Nat} (hden : 0 < den) :
    (ofFraction num den).roundedMantissa = roundEven num den := by
  unfold ofFraction accuracyOfFraction roundEven
  by_cases hrem : num % den = 0
  · have hcmp : compare (2 * (num % den)) den = .lt := Nat.compare_eq_lt.mpr (by omega)
    rw [hcmp, if_pos hrem]
    rfl
  · rw [if_neg hrem]
    cases compare (2 * (num % den)) den <;> rfl

/-- Shifting by one bit halves the fraction. -/
theorem shiftRightOne_ofFraction {num den : Nat} (hden : 0 < den) :
    (ofFraction num den).shiftRightOne = ofFraction num (2 * den) := by
  have hnum := Nat.div_add_mod num den
  have hrem := Nat.mod_lt num hden
  have hdiv : num / (2 * den) = num / den / 2 := by
    rw [Nat.mul_comm, Nat.div_div_eq_div_mul]
  have hmod : num % (2 * den) = num % den + den * (num / den % 2) := by
    rw [Nat.mul_comm 2 den, Nat.mod_mul]
  unfold ofFraction accuracyOfFraction
  rw [hdiv, hmod]
  generalize num / den = q at *
  generalize num % den = rem at *
  rcases Nat.mod_two_eq_zero_or_one q with hq | hq
  · rw [hq, Nat.mul_zero, Nat.add_zero]
    by_cases h0 : rem = 0
    · rw [if_pos h0, if_pos h0]
      simp [ExtendedMantissa.ofMantissaAndAccuracy, ExtendedMantissa.shiftRightOne, hq]
    · have hcmp : compare (2 * rem) (2 * den) = .lt := Nat.compare_eq_lt.mpr (by omega)
      rw [if_neg h0, if_neg h0, hcmp]
      cases compare (2 * rem) den <;>
        simp [ExtendedMantissa.ofMantissaAndAccuracy, ExtendedMantissa.shiftRightOne, hq]
  · rw [hq, Nat.mul_one, if_neg (show rem + den ≠ 0 by omega)]
    by_cases h0 : rem = 0
    · have hcmp : compare (2 * (rem + den)) (2 * den) = .eq := Nat.compare_eq_eq.mpr (by omega)
      rw [if_pos h0, hcmp]
      simp [ExtendedMantissa.ofMantissaAndAccuracy, ExtendedMantissa.shiftRightOne, hq]
    · have hcmp : compare (2 * (rem + den)) (2 * den) = .gt := Nat.compare_eq_gt.mpr (by omega)
      rw [if_neg h0, hcmp]
      cases compare (2 * rem) den <;>
        simp [ExtendedMantissa.ofMantissaAndAccuracy, ExtendedMantissa.shiftRightOne, hq]

/-- Shifting by `k` bits divides the fraction by `2 ^ k`. -/
theorem shiftRight_ofFraction {num den : Nat} (hden : 0 < den) (k : Nat) :
    ofFraction num den >>> k = ofFraction num (2 ^ k * den) := by
  induction k with
  | zero =>
    rw [Nat.pow_zero, Nat.one_mul]
    rfl
  | succ k ih =>
    show (ofFraction num den >>> k).shiftRightOne = _
    rw [ih, shiftRightOne_ofFraction (by positivity), Nat.pow_succ]
    congr 1
    ring

/-! ## Numbers -/

/-- A mantissa and an exponent as a number has them: all 53 bits are used, or the exponent is the least
one. -/
structure Canonical (m : Nat) (e : Int) : Prop where
  lt : m < 2 ^ 53
  le : -1074 ≤ e
  full : e = -1074 ∨ 2 ^ 52 ≤ m

/-- How far the rounding interval of `m * 2 ^ e` reaches down, in units of the last place. -/
def gapBelow (m : Nat) (e : Int) : ℚ :=
  if m = 2 ^ 52 ∧ -1074 < e then 1 / 4 else 1 / 2

/-- The rational numbers that round to `m * 2 ^ e`, ties to even. -/
structure RoundsTo (q : ℚ) (m : Nat) (e : Int) : Prop where
  low : (m - gapBelow m e) * 2 ^ e ≤ q
  high : q ≤ (m + 1 / 2) * 2 ^ e
  odd : m % 2 = 1 → (m - gapBelow m e) * 2 ^ e ≠ q ∧ q ≠ (m + 1 / 2) * 2 ^ e

theorem targetExponent_eq (m : Nat) (e : Int) :
    Format.binary64.targetExponent (totalExponent m e) = max (m.log2 + e - 52) (-1074) := by
  simp only [Format.targetExponent, totalExponent, Format.mantissaBits, Format.minExponent]
  norm_num
  omega

/-- A mantissa of at most 53 bits is not shifted. -/
theorem shiftToTargetExponent_small {m : Nat} {e : Int} (hm : m < 2 ^ 53) (he : -1074 ≤ e) :
    shiftToTargetExponent Format.binary64 m e .exact = (⟨m, false, false⟩, e) := by
  have hlog : m.log2 ≤ 52 := by
    by_cases h0 : m = 0
    · rw [h0]
      decide
    · have := (Nat.log2_lt h0).mpr hm
      omega
  have hzero : (max ((m.log2 : Int) + e - 52) (-1074) - e).toNat = 0 := by omega
  simp only [shiftToTargetExponent, shiftToExponent, targetExponent_eq, hzero]
  show (ExtendedMantissa.ofMantissaAndAccuracy m .exact, e + (0 : Nat)) = _
  rw [Int.natCast_zero, Int.add_zero]
  rfl

/-- A mantissa that was rounded up to `2 ^ 53` is shifted by one bit. -/
theorem shiftToTargetExponent_carry {e : Int} (he : -1074 ≤ e) :
    shiftToTargetExponent Format.binary64 (2 ^ 53) e .exact = (⟨2 ^ 52, false, false⟩, e + 1) := by
  have hone : (max (((2 ^ 53 : Nat).log2 : Int) + e - 52) (-1074) - e).toNat = 1 := by
    rw [Nat.log2_two_pow]
    omega
  simp only [shiftToTargetExponent, shiftToExponent, targetExponent_eq, hone]
  rfl

variable {s : UnpackedFloat.Sign} {num den r : Nat} {e t : Int}

/-- The first of the two shifts of a rounding, and the rounding of the mantissa. -/
theorem shiftToTargetExponent_ofFraction (hden : 0 < den)
    (ht : max (((num / den).log2 : Int) + e - 52) (-1074) = t) (hle : e ≤ t) :
    shiftToTargetExponent Format.binary64 (num / den) e (accuracyOfFraction (num % den) den) =
      (ofFraction num (2 ^ (t - e).toNat * den), t) := by
  have hexp : e + ((t - e).toNat : Int) = t := by omega
  simp only [shiftToTargetExponent, shiftToExponent, targetExponent_eq, ht, hexp]
  rw [← shiftRight_ofFraction hden]
  rfl

/-- A mantissa that is rounded to at most 53 bits is kept. -/
theorem roundWithAccuracy_keep (hden : 0 < den)
    (ht : max (((num / den).log2 : Int) + e - 52) (-1074) = t) (hle : e ≤ t)
    (hround : roundEven num (2 ^ (t - e).toNat * den) = r) (hr : 0 < r) (hlt : r < 2 ^ 53) :
    roundWithAccuracy Format.binary64 s (num / den) e (accuracyOfFraction (num % den) den) =
      .finite s r t hr := by
  have hpos : 0 < 2 ^ (t - e).toNat * den := by positivity
  have hne : r ≠ 0 := by omega
  simp only [roundWithAccuracy, shiftToTargetExponent_ofFraction hden ht hle,
    roundedMantissa_ofFraction hpos, hround, shiftToTargetExponent_small hlt (show -1074 ≤ t by omega)]
  rw [dif_neg hne]

/-- A mantissa that is rounded to `2 ^ 53` carries into the exponent. -/
theorem roundWithAccuracy_carry (hden : 0 < den)
    (ht : max (((num / den).log2 : Int) + e - 52) (-1074) = t) (hle : e ≤ t)
    (hround : roundEven num (2 ^ (t - e).toNat * den) = 2 ^ 53) :
    roundWithAccuracy Format.binary64 s (num / den) e (accuracyOfFraction (num % den) den) =
      .finite s (2 ^ 52) (t + 1) (by decide) := by
  have hpos : 0 < 2 ^ (t - e).toNat * den := by positivity
  simp only [roundWithAccuracy, shiftToTargetExponent_ofFraction hden ht hle,
    roundedMantissa_ofFraction hpos, hround, shiftToTargetExponent_carry (show -1074 ≤ t by omega)]
  rfl

/-! ## Rational numbers -/

theorem gapBelow_le (m : Nat) (e : Int) : gapBelow m e ≤ 1 / 2 := by
  unfold gapBelow
  split <;> norm_num

theorem gapBelow_of_ne {m : Nat} {e : Int} (h : ¬ (m = 2 ^ 52 ∧ -1074 < e)) :
    gapBelow m e = 1 / 2 := if_neg h

/-- The integer part of a fraction bounds it by powers of two. -/
theorem div_lt_two_zpow (hden : 0 < den) :
    (num : ℚ) / den * 2 ^ e < 2 ^ (((num / den).log2 : Int) + 1 + e) := by
  have hlt : (num : ℚ) / den < 2 ^ ((num / den).log2 + 1) := by
    rw [div_lt_iff₀ (by positivity)]
    have h1 := Nat.lt_log2_self (n := num / den)
    have h2 : num < 2 ^ ((num / den).log2 + 1) * den := by
      calc num < (num / den + 1) * den := by
            rw [Nat.add_mul, Nat.one_mul, Nat.mul_comm]
            have := Nat.div_add_mod num den
            have := Nat.mod_lt num hden
            omega
        _ ≤ 2 ^ ((num / den).log2 + 1) * den := Nat.mul_le_mul_right den h1
    exact_mod_cast h2
  rw [zpow_add₀ (by norm_num)]
  have hpow : (2 : ℚ) ^ (((num / den).log2 : Int) + 1) = 2 ^ ((num / den).log2 + 1) := by
    exact_mod_cast zpow_natCast (2 : ℚ) ((num / den).log2 + 1)
  rw [hpow]
  exact mul_lt_mul_of_pos_right hlt (by positivity)

theorem two_zpow_le_div (hden : 0 < den) (h : num / den ≠ 0) :
    (2 : ℚ) ^ (((num / den).log2 : Int) + e) ≤ num / den * 2 ^ e := by
  rw [zpow_add₀ (by norm_num), zpow_natCast]
  refine mul_le_mul_of_nonneg_right ?_ (by positivity)
  rw [le_div_iff₀ (by positivity)]
  have h1 := Nat.log2_self_le h
  have h2 : 2 ^ (num / den).log2 * den ≤ num :=
    (Nat.mul_le_mul_right den h1).trans (Nat.div_mul_le_self num den)
  exact_mod_cast h2

/-- `roundEven` on a rational number. -/
theorem roundEven_of_rat (hden : 0 < den) (low : (r : ℚ) - 1 / 2 ≤ num / den)
    (high : (num : ℚ) / den ≤ r + 1 / 2)
    (odd : r % 2 = 1 → (r : ℚ) - 1 / 2 ≠ num / den ∧ (num : ℚ) / den ≠ r + 1 / 2) :
    roundEven num den = r := by
  have hpos : (0 : ℚ) < den := by positivity
  have hcancel : (num : ℚ) / den * den = num := by field_simp
  apply roundEven_eq hden
  · have h := mul_le_mul_of_nonneg_right low hpos.le
    rw [hcancel] at h
    have : 2 * ((r : ℚ) * den) ≤ 2 * num + den := by linarith
    exact_mod_cast this
  · have h := mul_le_mul_of_nonneg_right high hpos.le
    rw [hcancel] at h
    have : 2 * (num : ℚ) ≤ 2 * (r * den) + den := by linarith
    exact_mod_cast this
  · intro hr
    obtain ⟨h1, h2⟩ := odd hr
    refine ⟨fun h => h1 ?_, fun h => h2 ?_⟩
    · have h' : 2 * ((r : ℚ) * den) = 2 * num + den := by exact_mod_cast h
      rw [eq_div_iff hpos.ne']
      linarith
    · have h' : 2 * (num : ℚ) = 2 * (r * den) + den := by exact_mod_cast h
      rw [div_eq_iff hpos.ne']
      linarith

/-- A fraction after the shift from one exponent to another. -/
theorem div_mul_zpow (hle : e ≤ t) :
    (num : ℚ) / den * 2 ^ e = num / ((2 ^ (t - e).toNat * den : Nat) : ℚ) * 2 ^ t := by
  have hexp : t = e + ((t - e).toNat : Int) := by omega
  have hpow : (2 : ℚ) ^ t = 2 ^ e * 2 ^ (t - e).toNat := by
    conv_lhs => rw [hexp]
    rw [zpow_add₀ (by norm_num), zpow_natCast]
  rw [hpow]
  push_cast
  by_cases h0 : (den : ℚ) = 0
  · rw [h0]
    simp
  · field_simp

section Interval

variable {m : Nat} {E : Int} (hden : 0 < den)
  (ht : max (((num / den).log2 : Int) + e - 52) (-1074) = t) (hc : Canonical m E)
  (hq : RoundsTo (num / den * 2 ^ e) m E)

include hden ht hc hq

/-- The exponent of a fraction is at most that of the number it rounds to. -/
theorem targetExponent_le (hbits : e ≤ t) : t ≤ E := by
  by_contra hcon
  have hlog : t = (num / den).log2 + e - 52 := by
    have := hc.le
    omega
  have hne : num / den ≠ 0 := by
    intro h0
    rw [h0, show (Nat.log2 0) = 0 from rfl] at hlog
    omega
  have h1 : (2 : ℚ) ^ (((num / den).log2 : Int) + e) < 2 ^ (53 + E) := by
    calc (2 : ℚ) ^ (((num / den).log2 : Int) + e) ≤ num / den * 2 ^ e := two_zpow_le_div hden hne
      _ ≤ (m + 1 / 2) * 2 ^ E := hq.high
      _ < 2 ^ (53 : Int) * 2 ^ E := by
        refine mul_lt_mul_of_pos_right ?_ (by positivity)
        have : (m : ℚ) + 1 ≤ 2 ^ 53 := by exact_mod_cast hc.lt
        norm_num at this ⊢
        linarith
      _ = 2 ^ (53 + E) := by rw [zpow_add₀ (by norm_num)]
  have := (zpow_lt_zpow_iff_right₀ (by norm_num : (1 : ℚ) < 2)).mp h1
  omega

/-- It is the same, or one less just below a power of two. -/
theorem le_targetExponent : E ≤ t ∨ (E = t + 1 ∧ m = 2 ^ 52 ∧ -1074 < E) := by
  rcases hc.full with hmin | hfull
  · left
    omega
  have hlt := @div_lt_two_zpow num den e hden
  have hgap := gapBelow_le m E
  have hpow : ∀ k : Int, (2 : ℚ) ^ k ≤ m - gapBelow m E → k + E < ((num / den).log2 : Int) + 1 + e := by
    intro k hk
    have h1 : (2 : ℚ) ^ (k + E) < 2 ^ (((num / den).log2 : Int) + 1 + e) := by
      calc (2 : ℚ) ^ (k + E) = 2 ^ k * 2 ^ E := by rw [zpow_add₀ (by norm_num)]
        _ ≤ (m - gapBelow m E) * 2 ^ E := mul_le_mul_of_nonneg_right hk (by positivity)
        _ ≤ num / den * 2 ^ e := hq.low
        _ < _ := hlt
    exact (zpow_lt_zpow_iff_right₀ (by norm_num : (1 : ℚ) < 2)).mp h1
  by_cases hn : m = 2 ^ 52
  · have h51 := hpow 51 (by
      rw [hn] at hgap ⊢
      norm_num
      linarith)
    by_cases hE : E ≤ t
    · exact .inl hE
    · exact .inr ⟨by omega, hn, by omega⟩
  · have h52 := hpow 52 (by
      have : (4503599627370497 : ℚ) ≤ m := by
        have : 4503599627370497 ≤ m := by omega
        exact_mod_cast this
      norm_num
      linarith)
    left
    omega

end Interval

/-- A fraction in the rounding interval of a number rounds to it, when it is given with as many bits
as the rounding keeps. -/
theorem roundWithAccuracy_eq {m : Nat} {E : Int} (hden : 0 < den)
    (hbits : e ≤ max (((num / den).log2 : Int) + e - 52) (-1074)) (hc : Canonical m E) (hm : 0 < m)
    (hq : RoundsTo (num / den * 2 ^ e) m E) :
    roundWithAccuracy Format.binary64 s (num / den) e (accuracyOfFraction (num % den) den) =
      .finite s m E hm := by
  obtain ⟨t, ht⟩ : ∃ t, max (((num / den).log2 : Int) + e - 52) (-1074) = t := ⟨_, rfl⟩
  rw [ht] at hbits
  have hlt := @div_lt_two_zpow num den e hden
  have hupper := targetExponent_le hden ht hc hq hbits
  have hlower := le_targetExponent hden ht hc hq
  have hD : 0 < 2 ^ (t - e).toNat * den := by positivity
  have ht0 : (0 : ℚ) < 2 ^ t := by positivity
  rw [div_mul_zpow hbits] at hq hlt
  rcases eq_or_ne t E with rfl | hne
  · refine roundWithAccuracy_keep hden ht hbits (roundEven_of_rat hD ?_ ?_ ?_) hm hc.lt
    · have := le_of_mul_le_mul_right hq.low ht0
      have := gapBelow_le m t
      linarith
    · exact le_of_mul_le_mul_right hq.high ht0
    · intro hodd
      have hgap : gapBelow m t = 1 / 2 := gapBelow_of_ne fun h => by omega
      obtain ⟨h1, h2⟩ := hq.odd hodd
      rw [hgap] at h1
      exact ⟨fun h => h1 (by rw [h]), fun h => h2 (by rw [h])⟩
  · obtain ⟨rfl, rfl, hnarrow⟩ : E = t + 1 ∧ m = 2 ^ 52 ∧ -1074 < E := hlower.resolve_left (by omega)
    have hlow : (2 ^ 53 - 1 / 2 : ℚ) ≤ num / ((2 ^ (t - e).toNat * den : Nat) : ℚ) := by
      have h := hq.low
      rw [gapBelow, if_pos ⟨rfl, hnarrow⟩, zpow_add_one₀ (by norm_num), mul_comm ((2 : ℚ) ^ t) 2,
        ← mul_assoc] at h
      have := le_of_mul_le_mul_right h ht0
      norm_num at this ⊢
      linarith
    have hhigh : num / ((2 ^ (t - e).toNat * den : Nat) : ℚ) < 2 ^ 53 := by
      have h : (num : ℚ) / ((2 ^ (t - e).toNat * den : Nat) : ℚ) * 2 ^ t < 2 ^ (53 : Int) * 2 ^ t := by
        refine hlt.trans_le ?_
        rw [← zpow_add₀ (by norm_num)]
        exact zpow_le_zpow_right₀ (by norm_num) (by omega)
      exact_mod_cast lt_of_mul_lt_mul_right h ht0.le
    refine roundWithAccuracy_carry hden ht hbits (roundEven_of_rat hD ?_ ?_ ?_)
    · exact_mod_cast hlow
    · push_cast at hhigh ⊢
      linarith
    · intro hodd
      exact absurd hodd (by decide)

end RangeCalc.Binary64
