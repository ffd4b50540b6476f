import RangeCalc.Number.Literal
import RangeCalc.Proofs.Number.Unpack

/-!
# The number nearest to a decimal

A decimal in the rounding interval of a finite number is read as that number (`nearestDecimal_eq`). Small
decimals are read by one exact division or multiplication, all others by long division; both round
once.
-/

namespace RangeCalc.Binary64

open Float.Model Float.Model.UnpackedFloat

/-- The value of a canonical mantissa lies in its own rounding interval. -/
theorem RoundsTo.self (m : Nat) (e : Int) : RoundsTo (m * 2 ^ e) m e := by
  have hpos : (0 : ℚ) < 2 ^ e := by positivity
  have hgap : 0 < gapBelow m e := by
    unfold gapBelow
    split <;> norm_num
  have hlow : ((m : ℚ) - gapBelow m e) * 2 ^ e < m * 2 ^ e :=
    mul_lt_mul_of_pos_right (by linarith) hpos
  have hhigh : (m : ℚ) * 2 ^ e < (m + 1 / 2) * 2 ^ e :=
    mul_lt_mul_of_pos_right (by linarith) hpos
  exact ⟨hlow.le, hhigh.le, fun _ => ⟨hlow.ne, hhigh.ne⟩⟩

/-! ## Products and quotients -/

variable {m : Nat} {e : Int}

theorem log2_mul_two_pow (hm : 0 < m) (j : Nat) : (m * 2 ^ j).log2 = m.log2 + j := by
  rw [Nat.log2_eq_iff (by positivity)]
  constructor
  · rw [Nat.pow_add]
    exact Nat.mul_le_mul_right _ (Nat.log2_self_le hm.ne')
  · rw [show m.log2 + j + 1 = m.log2 + 1 + j by omega, Nat.pow_add]
    exact Nat.mul_lt_mul_of_pos_right Nat.lt_log2_self (by positivity)

/-- An integer with a power of two is rounded to the number in whose interval it lies. -/
theorem roundWithAccuracy_exact {s : UnpackedFloat.Sign} {num : Nat} {e' : Int} (hbits : 52 ≤ num.log2)
    (hc : Canonical m e) (hm : 0 < m) (hq : RoundsTo (num * 2 ^ e') m e) :
    roundWithAccuracy Format.binary64 s num e' .exact = .finite s m e hm := by
  have h := @roundWithAccuracy_eq s num 1 e' m e (by decide) (by rw [Nat.div_one]; omega) hc hm
    (by rw [Nat.cast_one, div_one]; exact hq)
  rw [Nat.div_one, Nat.mod_one] at h
  exact h

theorem mul_eq {m₁ m₂ : Nat} {e₁ e₂ : Int} (h₁ : 0 < m₁) (h₂ : 0 < m₂) (hbits : 2 ^ 52 ≤ m₁)
    (hc : Canonical m e) (hm : 0 < m) (hq : RoundsTo (m₁ * 2 ^ e₁ * (m₂ * 2 ^ e₂)) m e) :
    UnpackedFloat.mul Format.binary64 (.finite .positive m₁ e₁ h₁) (.finite .positive m₂ e₂ h₂) =
      .finite .positive m e hm := by
  refine roundWithAccuracy_exact ?_ hc hm ?_
  · have : m₁ * 1 ≤ m₁ * m₂ := Nat.mul_le_mul_left m₁ h₂
    rw [Nat.le_log2 (by positivity)]
    omega
  · have hval : ((m₁ * m₂ : Nat) : ℚ) * 2 ^ (e₁ + e₂) = m₁ * 2 ^ e₁ * (m₂ * 2 ^ e₂) := by
      rw [zpow_add₀ (by norm_num)]
      push_cast
      ring
    rw [hval]
    exact hq

/-- The quotient is computed with as many bits as the rounding keeps. -/
theorem divCore_bits {m₁ m₂ sh : Nat} {e₁ e₂ t : Int} (h₁ : 0 < m₁) (h₂ : 0 < m₂)
    (ht : min (e₁ - e₂) (max ((m₁.log2 : Int) + e₁ - (m₂.log2 + e₂) - 53) (-1074)) = t)
    (hsh : (e₁ - e₂ - t).toNat = sh) :
    t ≤ max (((m₁ * 2 ^ sh / m₂).log2 : Int) + t - 52) (-1074) := by
  by_cases hmin : t ≤ -1074
  · omega
  have hexp : 52 + (m₂.log2 + 1) ≤ m₁.log2 + sh := by omega
  have hge : 2 ^ 52 ≤ m₁ * 2 ^ sh / m₂ := by
    rw [Nat.le_div_iff_mul_le h₂]
    calc 2 ^ 52 * m₂ ≤ 2 ^ 52 * 2 ^ (m₂.log2 + 1) := Nat.mul_le_mul_left _ Nat.lt_log2_self.le
      _ = 2 ^ (52 + (m₂.log2 + 1)) := (Nat.pow_add 2 52 _).symm
      _ ≤ 2 ^ (m₁.log2 + sh) := Nat.pow_le_pow_right (by decide) hexp
      _ = 2 ^ m₁.log2 * 2 ^ sh := by rw [Nat.pow_add]
      _ ≤ m₁ * 2 ^ sh := Nat.mul_le_mul_right _ (Nat.log2_self_le h₁.ne')
  have hne : m₁ * 2 ^ sh / m₂ ≠ 0 := by
    intro h0
    rw [h0] at hge
    exact absurd hge (by decide)
  have := (Nat.le_log2 hne).mpr hge
  omega

/-- A quotient is computed as a fraction with at least as many bits as the rounding keeps. -/
theorem divCore_eq {m₁ m₂ : Nat} {e₁ e₂ : Int} (h₁ : 0 < m₁) (h₂ : 0 < m₂) :
    ∃ num t, divCore Format.binary64 m₁ e₁ m₂ e₂ = (num / m₂, t, accuracyOfFraction (num % m₂) m₂) ∧
      t ≤ max (((num / m₂).log2 : Int) + t - 52) (-1074) ∧
      (num : ℚ) / m₂ * 2 ^ t = m₁ * 2 ^ e₁ / (m₂ * 2 ^ e₂) := by
  obtain ⟨t, ht⟩ : ∃ t, min (e₁ - e₂) (max ((m₁.log2 : Int) + e₁ - (m₂.log2 + e₂) - 53) (-1074)) = t :=
    ⟨_, rfl⟩
  obtain ⟨sh, hsh⟩ : ∃ sh, (e₁ - e₂ - t).toNat = sh := ⟨_, rfl⟩
  have htarget : min (e₁ - e₂)
      (Format.binary64.targetExponent (totalExponent m₁ e₁ - totalExponent m₂ e₂)) = t := by
    rw [← ht]
    simp only [Format.targetExponent, totalExponent, Format.mantissaBits, Format.minExponent]
    norm_num
    omega
  refine ⟨m₁ * 2 ^ sh, t, ?_, divCore_bits h₁ h₂ ht hsh, ?_⟩
  · simp only [divCore, htarget, hsh, Nat.shiftLeft_eq]
  · have hexp : e₁ = sh + t + e₂ := by omega
    have hne : (m₂ : ℚ) ≠ 0 := by positivity
    rw [hexp, zpow_add₀ (by norm_num), zpow_add₀ (by norm_num), zpow_natCast]
    push_cast
    field_simp

theorem div_eq {s₁ s₂ : UnpackedFloat.Sign} {m₁ m₂ : Nat} {e₁ e₂ : Int} (h₁ : 0 < m₁) (h₂ : 0 < m₂)
    (hc : Canonical m e) (hm : 0 < m) (hq : RoundsTo (m₁ * 2 ^ e₁ / (m₂ * 2 ^ e₂)) m e) :
    UnpackedFloat.div Format.binary64 (.finite s₁ m₁ e₁ h₁) (.finite s₂ m₂ e₂ h₂) =
      .finite (s₁ / s₂) m e hm := by
  obtain ⟨num, t, hcore, hbits, hval⟩ := @divCore_eq m₁ m₂ e₁ e₂ h₁ h₂
  simp only [UnpackedFloat.div, hcore]
  exact roundWithAccuracy_eq h₂ hbits hc hm (by rwa [hval])

/-! ## Exact operands -/

/-- A number with a canonical mantissa and an exponent. -/
def ofCanonical (m : Nat) (e : Int) (hm : 0 < m) : Float :=
  .ofModel (.pack (.finite .positive m e hm))

theorem ofCanonical_unpack (hm : 0 < m) (hc : Canonical m e) (he : e ≤ 971) :
    (ofCanonical m e hm).toModel.unpack = .finite .positive m e hm := unpack_pack hm hc he

/-- An integer below `2 ^ 53` is a number, with its bits shifted to the front. -/
theorem toFloat_eq {n : Nat} (hn : 0 < n) (hlt : n < 2 ^ 53) :
    ∃ m e hm, n.toUInt64.toFloat = ofCanonical m e hm ∧ Canonical m e ∧ e ≤ 971 ∧ 2 ^ 52 ≤ m ∧
      (m : ℚ) * 2 ^ e = n := by
  have hlog : n.log2 ≤ 52 := by
    have := (Nat.log2_lt hn.ne').mpr hlt
    omega
  have hmpos : 0 < n * 2 ^ (52 - n.log2) := by positivity
  have hfull : 2 ^ 52 ≤ n * 2 ^ (52 - n.log2) := by
    calc 2 ^ 52 = 2 ^ n.log2 * 2 ^ (52 - n.log2) := by rw [← Nat.pow_add]; congr 1; omega
      _ ≤ n * 2 ^ (52 - n.log2) := Nat.mul_le_mul_right _ (Nat.log2_self_le hn.ne')
  have hm53 : n * 2 ^ (52 - n.log2) < 2 ^ 53 := by
    calc n * 2 ^ (52 - n.log2) < 2 ^ (n.log2 + 1) * 2 ^ (52 - n.log2) :=
          Nat.mul_lt_mul_of_pos_right Nat.lt_log2_self (by positivity)
      _ = 2 ^ 53 := by rw [← Nat.pow_add]; congr 1; omega
  have hc : Canonical (n * 2 ^ (52 - n.log2)) ((n.log2 : Int) - 52) := ⟨hm53, by omega, .inr hfull⟩
  have hround : UnpackedFloat.round Format.binary64 .positive n 0 =
      .finite .positive (n * 2 ^ (52 - n.log2)) ((n.log2 : Int) - 52) hmpos := by
    have ht : max ((n.log2 : Int) + 0 - 52) (-1074) = (n.log2 : Int) - 52 := by omega
    have hsh : ((0 : Int) - ((n.log2 : Int) - 52)).toNat = 52 - n.log2 := by omega
    have hexp : (0 : Int) - ((52 - n.log2 : Nat) : Int) = (n.log2 : Int) - 52 := by omega
    simp only [UnpackedFloat.round, targetExponent_eq, ht, decreaseExponent, hsh, hexp,
      Nat.shiftLeft_eq]
    exact roundWithAccuracy_exact ((Nat.le_log2 hmpos.ne').mpr hfull) hc hmpos (.self _ _)
  have hnat : n.toUInt64.toNat = n := by
    simp
    omega
  refine ⟨_, _, hmpos, ?_, hc, by omega, hfull, ?_⟩
  · show Float.ofModel (.pack (UnpackedFloat.normalize Format.binary64 (n.toUInt64.toNat : Int) 0 _)) = _
    rw [hnat, UnpackedFloat.normalize, Int.compare_eq_gt.mpr (by omega)]
    simp only [Int.toNat_natCast, hround]
    rfl
  · push_cast
    rw [zpow_sub₀ (by norm_num), zpow_natCast]
    have hpow : (2 : ℚ) ^ 52 = 2 ^ (52 - n.log2) * 2 ^ n.log2 := by
      rw [← pow_add]
      congr 1
      omega
    have : (2 : ℚ) ^ (52 : Int) = 2 ^ 52 := by norm_num
    rw [this, hpow]
    field_simp

theorem twoTo_pos (n : Nat) : 0 < twoTo n := by
  rw [twoTo, Nat.one_shiftLeft]
  exact Nat.two_pow_pos n

theorem twoTo_cast (n : Nat) : ((twoTo n : Nat) : ℚ) = 2 ^ (n : Int) := by
  rw [twoTo, Nat.one_shiftLeft, zpow_natCast]
  push_cast
  rfl

theorem one_pos : 0 < one := twoTo_pos 1074

theorem one_cast : ((one : Nat) : ℚ) = 2 ^ (1074 : Int) := twoTo_cast 1074

theorem one_cast_pos : (0 : ℚ) < ((one : Nat) : ℚ) := by
  rw [one_cast]
  exact zpow_pos (by norm_num) _

/-- A power of two in units. -/
theorem cast_step (hle : -1074 ≤ e) : ((2 ^ (e + 1074).toNat : Nat) : ℚ) = 2 ^ e * one := by
  have hexp : ((e + 1074).toNat : Int) = e + 1074 := by omega
  rw [one_cast, ← zpow_add₀ (by norm_num), ← hexp, zpow_natCast]
  push_cast
  rfl

/-- A number of units is the mantissa times the power of two. -/
theorem cast_units (hle : -1074 ≤ e) :
    ((m * 2 ^ (e + 1074).toNat : Nat) : ℚ) = m * 2 ^ e * one := by
  rw [Nat.cast_mul, cast_step hle, mul_assoc]

/-- A positive integer that a number stands for. -/
theorem exists_of_magnitude {x : Float} {n : Nat} (hfin : x.isFinite = true)
    (hsign : isNegative x = false) (hn : 0 < n) (hmag : magnitude x = n * one) :
    ∃ m e hm, x.toModel.unpack = .finite .positive m e hm ∧ (m : ℚ) * 2 ^ e = n := by
  have hone := one_pos
  rcases unpack_finite hfin with ⟨h0, -⟩ | ⟨m, e, hm, hu, hc, he, hmag'⟩
  · have : 0 < n * one := Nat.mul_pos hn hone
    omega
  · refine ⟨m, e, hm, ?_, ?_⟩
    · rw [hu, signOf, hsign]
      rfl
    · have hcast : ((m * 2 ^ (e + 1074).toNat : Nat) : ℚ) = (n * one : Nat) := by rw [← hmag', hmag]
      rw [cast_units hc.le] at hcast
      push_cast at hcast
      exact mul_right_cancel₀ one_cast_pos.ne' hcast

/-- The powers of ten that are numbers. -/
theorem exists_tenTo {k : Nat} (hk : k < Float.exactlyRepresentablePowersOfTen.size) :
    ∃ m e hm, Float.exactlyRepresentablePowersOfTen[k].toModel.unpack = .finite .positive m e hm ∧
      (m : ℚ) * 2 ^ e = 10 ^ k := by
  have hall : ∀ k, ∀ hk : k < Float.exactlyRepresentablePowersOfTen.size,
      Float.exactlyRepresentablePowersOfTen[k].isFinite = true ∧
        isNegative Float.exactlyRepresentablePowersOfTen[k] = false ∧
        magnitude Float.exactlyRepresentablePowersOfTen[k] = Nat.pow 10 k * one := by
    decide +kernel
  obtain ⟨hfin, hsign, hmag⟩ := hall k hk
  obtain ⟨m, e, hm, hu, hval⟩ := exists_of_magnitude hfin hsign (Nat.pow_pos (by decide)) hmag
  refine ⟨m, e, hm, hu, ?_⟩
  rw [hval]
  exact_mod_cast rfl

/-! ## Decimals -/

section Decimal

variable {d : Nat} {k : Int} (hc : Canonical m e) (hm : 0 < m)
  (hq : RoundsTo (d * 10 ^ k) m e)

include hc hm hq

/-- Long division and multiplication round once. -/
theorem ofScientific_slow (hd : 0 < d) (hk : k ≤ 400) (hk' : -400 ≤ k + d.log2) :
    UnpackedFloat.ofScientific Format.binary64 d k = .finite .positive m e hm := by
  have h1 : ¬ k > 2 ^ 11 := by
    norm_num
    omega
  have h2 : ¬ k < -((2 ^ 11 : Int) + d.log2) := by
    norm_num
    omega
  rw [UnpackedFloat.ofScientific, dif_neg hd.ne', if_neg h1, if_neg h2]
  by_cases hneg : 0 ≤ k
  · rw [if_pos hneg]
    refine mul_eq _ _ ?_ hc hm ?_
    · rw [Nat.shiftLeft_eq]
      exact Nat.le_mul_of_pos_left _ hd |>.trans' (by decide)
    · have hval : ((d <<< Format.binary64.mantissaBits : Nat) : ℚ) *
          2 ^ (-(Format.binary64.mantissaBits : Int)) * (((10 ^ k.toNat : Nat) : ℚ) * 2 ^ (0 : Int)) =
          d * 10 ^ k := by
        have hexp : (10 : ℚ) ^ k = 10 ^ k.toNat := by
          rw [← zpow_natCast, Int.toNat_of_nonneg hneg]
        rw [hexp, Nat.shiftLeft_eq, zpow_neg, zpow_natCast, zpow_zero]
        push_cast
        field_simp
      rw [hval]
      exact hq
  · rw [if_neg hneg]
    refine div_eq _ _ hc hm ?_
    have hval : (d : ℚ) * 2 ^ (0 : Int) / (((10 ^ (-k).toNat : Nat) : ℚ) * 2 ^ (0 : Int)) =
        d * 10 ^ k := by
      have hexp : (10 : ℚ) ^ k = (10 ^ (-k).toNat)⁻¹ := by
        rw [← zpow_natCast, ← zpow_neg, Int.toNat_of_nonneg (by omega), neg_neg]
      rw [hexp, zpow_zero, mul_one, mul_one, div_eq_mul_inv]
      push_cast
      rfl
    rw [hval]
    exact hq

/-- Digits and a power of ten that are numbers give one rounding. -/
theorem ofScientific_fast (hd : 0 < d) (h : d < 2 ^ 53 ∧ k.natAbs ≤ 22) :
    Float.ofScientific d (decide (k < 0)) k.natAbs = ofCanonical m e hm := by
  rw [Float.ofScientific, dif_pos h]
  obtain ⟨m₁, e₁, hm₁, ha, hc₁, he₁, hfull, hval₁⟩ := toFloat_eq hd h.1
  obtain ⟨m₂, e₂, hm₂, hu₂, hval₂⟩ :=
    exists_tenTo (k := k.natAbs) (Nat.lt_of_le_of_lt h.2 (by decide))
  have hu₁ := ofCanonical_unpack hm₁ hc₁ he₁
  rw [← ha] at hu₁
  by_cases hneg : k < 0
  · simp only [decide_eq_true hneg, if_true]
    show Float.ofModel (.pack (UnpackedFloat.div Format.binary64 (Float.toModel _).unpack
      (Float.toModel _).unpack)) = _
    have hexp : (10 : ℚ) ^ k = (10 ^ k.natAbs)⁻¹ := by
      rw [← zpow_natCast, ← zpow_neg]
      congr 1
      omega
    rw [hu₁, hu₂, div_eq hm₁ hm₂ hc hm]
    · rfl
    · rw [hval₁, hval₂, div_eq_mul_inv, ← hexp]
      exact hq
  · simp only [decide_eq_false hneg, Bool.false_eq_true, if_false]
    show Float.ofModel (.pack (UnpackedFloat.mul Format.binary64 (Float.toModel _).unpack
      (Float.toModel _).unpack)) = _
    have hexp : (10 : ℚ) ^ k = 10 ^ k.natAbs := by
      rw [← zpow_natCast]
      congr 1
      omega
    rw [hu₁, hu₂, mul_eq hm₁ hm₂ hfull hc hm]
    · rfl
    · rw [hval₁, hval₂, ← hexp]
      exact hq

theorem ofScientific_eq (hd : 0 < d) (hk : k ≤ 400) (hk' : -400 ≤ k + d.log2) :
    Float.ofScientific d (decide (k < 0)) k.natAbs = ofCanonical m e hm := by
  by_cases h : d < 2 ^ 53 ∧ k.natAbs ≤ 22
  · exact ofScientific_fast hc hm hq hd h
  · rw [Float.ofScientific, dif_neg h]
    have hexp : (if decide (k < 0) = true then Int.negOfNat k.natAbs else Int.ofNat k.natAbs) = k := by
      by_cases hneg : k < 0
      · rw [if_pos (decide_eq_true hneg), Int.negOfNat_eq]
        show -(k.natAbs : Int) = k
        omega
      · rw [if_neg (by simpa using hneg)]
        show (k.natAbs : Int) = k
        omega
    rw [hexp]
    show Float.ofModel (.pack (UnpackedFloat.ofScientific Format.binary64 d k)) = _
    rw [ofScientific_slow hc hm hq hd hk hk']
    rfl

end Decimal

/-! ## Sizes of decimals -/

theorem two_zpow_le_ten_zpow {k : Int} (hk : 0 ≤ k) : (2 : ℚ) ^ (3 * k) ≤ 10 ^ k := by
  rw [zpow_mul]
  exact zpow_le_zpow_left₀ hk (by norm_num) (by norm_num)

theorem ten_zpow_le_two_zpow {k : Int} (hk : k ≤ 0) : (10 : ℚ) ^ k ≤ 2 ^ (3 * k) := by
  have h := two_zpow_le_ten_zpow (k := -k) (by omega)
  rw [show 3 * -k = -(3 * k) by ring, zpow_neg, zpow_neg] at h
  exact (inv_le_inv₀ (by positivity) (by positivity)).mp h

/-- What rounds to a finite number is neither too large nor too small. -/
theorem RoundsTo.lt {q : ℚ} (hq : RoundsTo q m e) (hc : Canonical m e) (he : e ≤ 971) :
    q < 2 ^ (1024 : Int) := by
  have hm : (m : ℚ) + 1 ≤ 2 ^ (53 : Int) := by exact_mod_cast hc.lt
  calc q ≤ (m + 1 / 2) * 2 ^ e := hq.high
    _ < 2 ^ (53 : Int) * 2 ^ e := mul_lt_mul_of_pos_right (by linarith) (by positivity)
    _ = 2 ^ (53 + e) := by rw [zpow_add₀ (by norm_num)]
    _ ≤ 2 ^ (1024 : Int) := zpow_le_zpow_right₀ (by norm_num) (by omega)

theorem RoundsTo.le {q : ℚ} (hq : RoundsTo q m e) (hc : Canonical m e) (hm : 0 < m) :
    2 ^ (-1075 : Int) ≤ q := by
  have hle := hc.le
  have hm1 : (1 : ℚ) ≤ m := by exact_mod_cast hm
  have hgap := gapBelow_le m e
  calc (2 : ℚ) ^ (-1075 : Int) ≤ 2 ^ (-1 + e) := zpow_le_zpow_right₀ (by norm_num) (by omega)
    _ = 1 / 2 * 2 ^ e := by
      rw [zpow_add₀ (by norm_num), zpow_neg_one]
      norm_num
    _ ≤ (m - gapBelow m e) * 2 ^ e := mul_le_mul_of_nonneg_right (by linarith) (by positivity)
    _ ≤ q := hq.low

end RangeCalc.Binary64

namespace RangeCalc

open Binary64

/-- A decimal is read as the number in whose rounding interval it lies. -/
theorem nearestDecimal_eq {d m : Nat} {k e : Int} (hc : Canonical m e) (hm : 0 < m) (he : e ≤ 971)
    (hq : RoundsTo (d * 10 ^ k) m e) : nearestDecimal d k = ofCanonical m e hm := by
  have hlow := hq.le hc hm
  have hhigh := hq.lt hc he
  have hpos : (0 : ℚ) < 2 ^ (-1075 : Int) := zpow_pos (by norm_num) _
  have hd : 0 < d := by
    rcases Nat.eq_zero_or_pos d with rfl | hd
    · rw [Nat.cast_zero, zero_mul] at hlow
      exact absurd (hpos.trans_le hlow) (lt_irrefl _)
    · exact hd
  have hd1 : (1 : ℚ) ≤ d := by exact_mod_cast hd
  have hk : k ≤ 400 := by
    by_contra hcon
    have h1 : (2 : ℚ) ^ (3 * k) < 2 ^ (1024 : Int) := by
      calc (2 : ℚ) ^ (3 * k) ≤ 10 ^ k := two_zpow_le_ten_zpow (by omega)
        _ = 1 * 10 ^ k := (one_mul _).symm
        _ ≤ d * 10 ^ k := mul_le_mul_of_nonneg_right hd1 (by positivity)
        _ < _ := hhigh
    have := (zpow_lt_zpow_iff_right₀ (by norm_num : (1 : ℚ) < 2)).mp h1
    omega
  have hk' : -400 ≤ k + d.log2 := by
    by_contra hcon
    have hlog : (d : ℚ) < 2 ^ ((d.log2 : Int) + 1) := by
      have h := Nat.lt_log2_self (n := d)
      rw [show (d.log2 : Int) + 1 = ((d.log2 + 1 : Nat) : Int) by push_cast; rfl, zpow_natCast]
      exact_mod_cast h
    have h1 : (2 : ℚ) ^ (-1075 : Int) < 2 ^ ((d.log2 : Int) + 1 + 3 * k) := by
      calc (2 : ℚ) ^ (-1075 : Int) ≤ d * 10 ^ k := hlow
        _ ≤ d * 2 ^ (3 * k) :=
          mul_le_mul_of_nonneg_left (ten_zpow_le_two_zpow (by omega)) (by positivity)
        _ < 2 ^ ((d.log2 : Int) + 1) * 2 ^ (3 * k) := mul_lt_mul_of_pos_right hlog (by positivity)
        _ = 2 ^ ((d.log2 : Int) + 1 + 3 * k) := (zpow_add₀ (by norm_num) _ _).symm
    have := (zpow_lt_zpow_iff_right₀ (by norm_num : (1 : ℚ) < 2)).mp h1
    omega
  rw [nearestDecimal, if_neg hd.ne', if_neg (by omega), if_neg (by omega)]
  exact ofScientific_eq hc hm hq hd hk hk'

end RangeCalc
