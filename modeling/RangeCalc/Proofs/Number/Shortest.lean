import RangeCalc.Number.Decimal
import RangeCalc.Proofs.Number.Nearest

/-!
# The shortest decimal reads back

Whatever decimal is chosen for a finite number, be it one that passes the test or the exact value, it
lies in the rounding interval of the number (`Decimal.roundsTo_shortest`).
-/

namespace RangeCalc.Decimal

open Binary64

/-- The rational number that a decimal denotes. -/
def value (d : Decimal) : ℚ := d.digits * 10 ^ d.exponent

theorem tenTo_cast (n : Nat) : ((tenTo n : Nat) : ℚ) = 10 ^ n := by
  rw [tenTo, Nat.pow_eq]
  push_cast
  rfl

/-- The two sides of the comparison with `n` quarters of a unit. -/
theorem compareQuarters_eq (d : Decimal) (n : Nat) :
    compareQuarters d n = compare (d.value * (4 * one)) n := by
  have hpow : (10 : ℚ) ^ d.exponent * 10 ^ (-d.exponent).toNat = 10 ^ d.exponent.toNat := by
    rw [← zpow_natCast, ← zpow_natCast, ← zpow_add₀ (by norm_num)]
    congr 1
    omega
  have hpos : (0 : ℚ) < 10 ^ (-d.exponent).toNat := by positivity
  have hleft : ((d.digits * tenTo d.exponent.toNat * (4 * one) : Nat) : ℚ) =
      d.value * (4 * one) * 10 ^ (-d.exponent).toNat := by
    rw [Nat.cast_mul, Nat.cast_mul, tenTo_cast, ← hpow, value]
    push_cast
    ring
  have hright : ((n * tenTo (-d.exponent).toNat : Nat) : ℚ) = n * 10 ^ (-d.exponent).toNat := by
    rw [Nat.cast_mul, tenTo_cast]
  unfold compareQuarters
  rcases lt_trichotomy (d.value * (4 * one)) n with h | h | h
  · rw [compare_lt_iff_lt.mpr h, compare_lt_iff_lt, ← Nat.cast_lt (α := ℚ), hleft, hright]
    exact mul_lt_mul_of_pos_right h hpos
  · rw [compare_eq_iff_eq.mpr h, compare_eq_iff_eq, ← Nat.cast_inj (R := ℚ), hleft, hright, h]
  · rw [compare_gt_iff_gt.mpr h, compare_gt_iff_gt, ← Nat.cast_lt (α := ℚ), hleft, hright]
    exact mul_lt_mul_of_pos_right h hpos

/-- Multiples of a power of one half are decimals. -/
theorem value_of_halves {d : Decimal} {n k : Nat} (hdigits : d.digits = n * Nat.pow 5 k)
    (hexponent : d.exponent = -(k : Int)) : d.value = n / 2 ^ (k : Int) := by
  rw [value, hdigits, hexponent, Nat.pow_eq, zpow_neg, zpow_natCast, zpow_natCast,
    show (10 : ℚ) = 5 * 2 by norm_num, mul_pow]
  push_cast
  field_simp

theorem digits_exact (n : Nat) : (exact n).digits = n * Nat.pow 5 1074 := rfl

theorem exponent_exact (n : Nat) : (exact n).exponent = -((1074 : Nat) : Int) := rfl

variable {n m : Nat} {e : Int} {d : Decimal}

/-! ## Units of the last place -/

theorem log2_le_of_canonical (hc : Canonical m e) (hm : 0 < m) : m.log2 ≤ 52 := by
  have := (Nat.log2_lt hm.ne').mpr hc.lt
  omega

section Step

variable (hc : Canonical m e) (hm : 0 < m)

include hc hm

/-- The step between neighbours is one unit of the last place. -/
theorem twoTo_stepLog : twoTo (stepLog (m * 2 ^ (e + 1074).toNat)) = 2 ^ (e + 1074).toNat := by
  have hle := hc.le
  have hlog := log2_le_of_canonical hc hm
  have hstep : stepLog (m * 2 ^ (e + 1074).toNat) = (e + 1074).toNat := by
    rw [stepLog, log2_mul_two_pow hm]
    rcases hc.full with hmin | hfull
    · omega
    · have := (Nat.le_log2 hm.ne').mpr hfull
      omega
  rw [hstep, twoTo, Nat.one_shiftLeft]

theorem isNarrowBelow_iff :
    isNarrowBelow (m * 2 ^ (e + 1074).toNat) = true ↔ m = 2 ^ 52 ∧ -1074 < e := by
  have hle := hc.le
  have hlog := log2_le_of_canonical hc hm
  unfold isNarrowBelow
  rw [Bool.and_eq_true, decide_eq_true_iff, beq_iff_eq, log2_mul_two_pow hm, twoTo, Nat.one_shiftLeft]
  constructor
  · rintro ⟨h53, hpow⟩
    have hlog52 : m.log2 = 52 := by
      rcases hc.full with hmin | hfull
      · omega
      · have := (Nat.le_log2 hm.ne').mpr hfull
        omega
    rw [hlog52, Nat.pow_add] at hpow
    exact ⟨Nat.eq_of_mul_eq_mul_right (by positivity) hpow, by omega⟩
  · rintro ⟨hm52, hlt⟩
    have hlog52 : m.log2 = 52 := by rw [hm52, Nat.log2_two_pow]
    rw [hlog52, Nat.pow_add, hm52]
    exact ⟨by omega, rfl⟩

/-- The ends of the rounding interval, in quarters of a unit. -/
theorem cast_low :
    ((4 * (m * 2 ^ (e + 1074).toNat) - if isNarrowBelow (m * 2 ^ (e + 1074).toNat) = true
      then 2 ^ (e + 1074).toNat else 2 * 2 ^ (e + 1074).toNat : Nat) : ℚ) =
      (m - gapBelow m e) * 2 ^ e * (4 * one) := by
  have hstep := cast_step hc.le
  have hstep_le : 2 ^ (e + 1074).toNat ≤ m * 2 ^ (e + 1074).toNat := Nat.le_mul_of_pos_left _ hm
  have hunits := cast_units (m := m) hc.le
  have hnarrow := isNarrowBelow_iff hc hm
  unfold gapBelow
  generalize isNarrowBelow (m * 2 ^ (e + 1074).toNat) = narrow at hnarrow ⊢
  generalize 2 ^ (e + 1074).toNat = step at hstep hstep_le hunits ⊢
  cases narrow
  · rw [if_neg Bool.false_ne_true, if_neg fun h => Bool.false_ne_true (hnarrow.mpr h),
      Nat.cast_sub (by omega), Nat.cast_mul, hunits, Nat.cast_mul, hstep]
    push_cast
    ring
  · rw [if_pos rfl, if_pos (hnarrow.mp rfl), Nat.cast_sub (by omega), Nat.cast_mul, hunits, hstep]
    push_cast
    ring

/-- A decimal that reads back lies in the rounding interval. -/
theorem roundsTo_of_readsBack (h : readsBack (m * 2 ^ (e + 1074).toNat) d = true) :
    RoundsTo d.value m e := by
  have hone : (0 : ℚ) < 4 * one := mul_pos (by norm_num) one_cast_pos
  have hlow := cast_low hc hm
  have hhigh : ((4 * (m * 2 ^ (e + 1074).toNat) + 2 * 2 ^ (e + 1074).toNat : Nat) : ℚ) =
      (m + 1 / 2) * 2 ^ e * (4 * one) := by
    rw [Nat.cast_add, Nat.cast_mul, Nat.cast_mul, cast_units hc.le, cast_step hc.le]
    push_cast
    ring
  have hdiv : m * 2 ^ (e + 1074).toNat / 2 ^ (e + 1074).toNat = m := Nat.mul_div_cancel _ (by positivity)
  unfold readsBack at h
  simp only [twoTo_stepLog hc hm, hdiv, compareQuarters_eq, Bool.and_eq_true, Bool.or_eq_true,
    beq_iff_eq] at h
  rw [hlow, hhigh] at h
  simp only [compare_gt_iff_gt, compare_lt_iff_lt, compare_eq_iff_eq,
    mul_lt_mul_iff_left₀ hone, mul_left_inj' hone.ne'] at h
  obtain ⟨hb, ha⟩ := h
  refine ⟨?_, ?_, fun hodd => ⟨?_, ?_⟩⟩
  · rcases hb with hb | hb
    · exact hb.le
    · exact hb.2.ge
  · rcases ha with ha | ha
    · exact ha.le
    · exact ha.2.le
  · exact (hb.resolve_right fun h => by omega).ne
  · exact (ha.resolve_right fun h => by omega).ne

omit hm in
/-- The exact value of a number lies in its rounding interval. -/
theorem value_exact : (exact (m * 2 ^ (e + 1074).toNat)).value = m * 2 ^ e := by
  have hone : (one : ℚ) ≠ 0 := one_cast_pos.ne'
  have hvalue := value_of_halves (digits_exact (m * 2 ^ (e + 1074).toNat)) (exponent_exact _)
  rw [hvalue, Nat.cast_ofNat, ← one_cast, cast_units hc.le, mul_div_cancel_right₀ _ hone]

end Step

theorem choose_eq_some {low high : Bool} {order : Ordering} {lower upper : Decimal}
    (h : choose low high order lower upper = some d) :
    (low = true ∧ lower = d) ∨ (high = true ∧ upper = d) := by
  unfold choose at h
  split at h
  · cases h
  · exact .inl ⟨rfl, Option.some.inj h⟩
  · exact .inr ⟨rfl, Option.some.inj h⟩
  · split at h
    · exact .inl ⟨rfl, Option.some.inj h⟩
    · exact .inr ⟨rfl, Option.some.inj h⟩
    · split at h
      · exact .inl ⟨rfl, Option.some.inj h⟩
      · exact .inr ⟨rfl, Option.some.inj h⟩

/-- A decimal that is found reads back. -/
theorem readsBack_of_shortestAt? {exponent : Int} (h : shortestAt? n exponent = some d) :
    readsBack n d = true := by
  rcases choose_eq_some h with ⟨hd, hlower⟩ | ⟨hd, hupper⟩
  · rw [← hlower]
    exact hd
  · rw [← hupper]
    exact hd

/-- The decimal that is written for a number lies in its rounding interval. -/
theorem roundsTo_shortest (hc : Canonical m e) (hm : 0 < m) :
    RoundsTo (shortest (m * 2 ^ (e + 1074).toNat)).value m e := by
  have hne : m * 2 ^ (e + 1074).toNat ≠ 0 := by positivity
  rw [shortest, if_neg hne]
  dsimp only
  rcases hfind : (List.range 17).findSome? (fun (i : Nat) =>
    shortestAt? (m * 2 ^ (e + 1074).toNat) (scale (m * 2 ^ (e + 1074).toNat) - 1 - i)) with _ | d
  · rw [Option.getD_none, value_exact hc]
    exact .self m e
  · rw [Option.getD_some]
    obtain ⟨i, -, hi⟩ := List.exists_of_findSome?_eq_some hfind
    exact roundsTo_of_readsBack hc hm (readsBack_of_shortestAt? hi)

end RangeCalc.Decimal
