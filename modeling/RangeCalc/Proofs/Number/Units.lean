import RangeCalc.Number.ExactSum
import RangeCalc.Proofs.Number.Arithmetic

/-!
# Numbers of units

A number of units is made a floating-point number by rounding it to the grid, and so is an integer. An
integer with at most 53 binary digits is kept.

* `rounds_ofUnits`: a number of units;
* `units_ofInt`: an integer;
* `finite_div`, `finite_mul`: quotients and products that are at most powers of two;
* `roundsUnits_roundUnits`: rounding in units.
-/

namespace RangeCalc.Binary64

open Float.Model Float.Model.UnpackedFloat

variable {n : Nat}

/-! ## Shifts -/

theorem shiftRoundEven_eq (n s : Nat) : shiftRoundEven n s = roundEven n (2 ^ s) := by
  unfold shiftRoundEven roundEven
  simp only [twoTo_eq, Nat.shiftRight_eq_div_pow]
  cases compare (2 * (n % 2 ^ s)) (2 ^ s) <;> rfl

theorem nearestEven_shiftRoundEven (n s : Nat) : NearestEven (n / 2 ^ s) (shiftRoundEven n s) := by
  have h := @nearestEven_roundEven n _ (Nat.two_pow_pos s)
  rw [← shiftRoundEven_eq, Nat.cast_pow, Nat.cast_ofNat] at h
  exact h

theorem isStep_log2 (hn : 2 ^ 53 ≤ n) : IsStep n (n.log2 - 52) := by
  have hne : n ≠ 0 := by omega
  have hlog := (Nat.le_log2 hne).mpr hn
  refine ⟨.inr ?_, ?_⟩
  · rw [show 52 + (n.log2 - 52) = n.log2 by omega]
    exact_mod_cast Nat.log2_self_le hne
  · rw [show 53 + (n.log2 - 52) = n.log2 + 1 by omega]
    exact_mod_cast Nat.lt_log2_self

/-- A number of more than 53 binary digits is rounded by a shift. -/
theorem roundsUnits_shift (hn : 2 ^ 53 ≤ n) :
    RoundsUnits n (shiftRoundEven n (n.log2 - 52) * 2 ^ (n.log2 - 52)) ∧
      2 ^ 52 ≤ shiftRoundEven n (n.log2 - 52) ∧ shiftRoundEven n (n.log2 - 52) ≤ 2 ^ 53 := by
  have hlog := (Nat.le_log2 (show n ≠ 0 by omega)).mpr hn
  have hnear := nearestEven_shiftRoundEven n (n.log2 - 52)
  have hstep := isStep_log2 hn
  exact ⟨⟨_, _, hstep, hnear, rfl⟩, hnear.le_of_le (hstep.low.resolve_left (by omega)),
    hnear.le_of_lt hstep.high⟩

/-! ## Bits -/

/-- The units that the bits of a rounded number stand for, unless they are those of infinity. -/
theorem unitsOfBits_bitsOfUnits (n : Nat) :
    ∃ r, RoundsUnits n r ∧
      (bitsOfUnits n < infinityBits ∧ unitsOfBits (bitsOfUnits n) = r ∨
        bitsOfUnits n = infinityBits ∧ overflowKey ≤ r) := by
  have hinf : infinityBits = 2047 * 2 ^ 52 := by decide
  simp only [bitsOfUnits, unitsOfBits, twoTo_eq, Nat.shiftLeft_eq]
  by_cases hsmall : n < 2 ^ 53
  · refine ⟨n, by simpa using RoundsUnits.self hsmall.le 0, .inl ?_⟩
    rw [if_pos hsmall]
    refine ⟨by omega, ?_⟩
    split
    · rfl
    · rw [show n / 2 ^ 52 - 1 = 0 by omega]
      omega
  · obtain ⟨hrounds, hlow, hhigh⟩ := roundsUnits_shift (not_lt.mp hsmall)
    have hlog := (Nat.le_log2 (by omega)).mpr (not_lt.mp hsmall)
    refine ⟨_, hrounds, ?_⟩
    rw [if_neg hsmall]
    obtain ⟨shift, hshift⟩ : ∃ shift, n.log2 - 52 = shift := ⟨_, rfl⟩
    rw [hshift] at hlow hhigh ⊢
    generalize shiftRoundEven n shift = r at hlow hhigh ⊢
    rcases Nat.lt_or_ge (shift * 2 ^ 52 + r) infinityBits with hlt | hge
    · rw [Nat.min_eq_left hlt.le]
      refine .inl ⟨hlt, ?_⟩
      rw [if_neg (by omega)]
      rcases hhigh.lt_or_eq with hr | rfl
      · rw [show (shift * 2 ^ 52 + r) / 2 ^ 52 - 1 = shift by omega,
          show 2 ^ 52 + (shift * 2 ^ 52 + r) % 2 ^ 52 = r by omega]
      · rw [show (shift * 2 ^ 52 + 2 ^ 53) / 2 ^ 52 - 1 = shift + 1 by omega,
          show 2 ^ 52 + (shift * 2 ^ 52 + 2 ^ 53) % 2 ^ 52 = 2 ^ 52 by omega, Nat.pow_succ]
        ring
    · rw [Nat.min_eq_right hge]
      refine .inr ⟨rfl, ?_⟩
      rcases hhigh.lt_or_eq with hr | rfl
      · calc overflowKey ≤ 2 ^ (52 + shift) := overflowKey_le_two_pow (by omega)
          _ = 2 ^ 52 * 2 ^ shift := Nat.pow_add 2 _ _
          _ ≤ r * 2 ^ shift := Nat.mul_le_mul_right _ hlow
      · rw [← Nat.pow_add]
        exact overflowKey_le_two_pow (by omega)

/-- A sign and the bits of a finite number make a bit pattern. -/
theorem exists_ofSignBits (negative : Bool) {bits : Nat} (h : bits < infinityBits) :
    ∃ x : Float, ofSignBits negative bits = .ofModel (.pack x.toModel.unpack) ∧
      bitsOf x = if negative then 2 ^ 63 + bits else bits := by
  have hinf : infinityBits = 2047 * 2 ^ 52 := by decide
  have h63 : twoTo 63 = 2 ^ 63 := by decide
  obtain ⟨u, hu⟩ : ∃ u, UInt64.ofNat (if negative then twoTo 63 + bits else bits) = u := ⟨_, rfl⟩
  have hbits : u.toNat = if negative then 2 ^ 63 + bits else bits := by
    rw [← hu, h63, UInt64.toNat_ofNat']
    refine Nat.mod_eq_of_lt ?_
    cases negative
    · simp only [Bool.false_eq_true, if_false]
      omega
    · simp only [if_true]
      omega
  have hexp : u.toBitVec.toNat / 2 ^ 52 % 2 ^ 11 = bits / 2 ^ 52 := by
    show u.toNat / 2 ^ 52 % 2 ^ 11 = bits / 2 ^ 52
    rw [hbits]
    cases negative
    · simp only [Bool.false_eq_true, if_false]
      omega
    · simp only [if_true]
      omega
  -- the bits are those of a number, which has to be told from an undefined one
  have hvalid : Format.binary64.Valid u.toBitVec := by
    refine ⟨fun htop => absurd ?_ (show ¬ bits / 2 ^ 52 = 2047 by omega)⟩
    rw [← hexp, ← unpackExponent_toNat, htop]
    rfl
  refine ⟨.ofModel ⟨u, hvalid⟩, ?_, hbits⟩
  rw [ofSignBits, hu]
  rfl

/-- The fields of a finite bit pattern. -/
theorem fields_of_bits {negative : Bool} {bits : Nat} {x : Float} (h : bits < infinityBits)
    (hx : bitsOf x = if negative then 2 ^ 63 + bits else bits) :
    x.isFinite = true ∧ signOf x = (if negative then .negative else .positive) ∧
      magnitude x = unitsOfBits bits := by
  have hinf : infinityBits = 2047 * 2 ^ 52 := by decide
  have hsign := isNegative_iff x
  have hmagnitude : bitsOf x % 2 ^ 63 = bits ∧ bitsOf x / 2 ^ 52 % 2 ^ 11 ≠ 2047 := by
    rw [hx]
    cases negative
    · simp only [Bool.false_eq_true, if_false]
      omega
    · simp only [if_true]
      omega
  refine ⟨isFinite_of_exponentField hmagnitude.2, ?_, ?_⟩
  · rw [hx] at hsign
    rw [signOf]
    cases negative
    · rw [if_neg (by rw [hsign]; simp only [Bool.false_eq_true, if_false]; omega)]
      rfl
    · rw [if_pos (by rw [hsign]; simp only [if_true]; omega)]
      rfl
  · rw [magnitude, magnitudeBits_eq, hmagnitude.1]

/-- A number made of a sign and the bits of a finite one. -/
theorem hasUnits_ofSignBits (negative : Bool) {bits : Nat} (h : bits < infinityBits) :
    ∃ u, ofSignBits negative bits = .ofModel (.pack u) ∧
      HasUnits (if negative then .negative else .positive) (unitsOfBits bits) u := by
  obtain ⟨x, hx, hbits⟩ := exists_ofSignBits negative h
  obtain ⟨hfinite, hsign, hmagnitude⟩ := fields_of_bits h hbits
  refine ⟨x.toModel.unpack, hx, ?_⟩
  rw [← hsign, ← hmagnitude]
  rcases unpack_finite hfinite with ⟨hzero, hunpack⟩ | ⟨m, e, hm, hunpack, hc, -, hmag⟩
  · rw [hzero, hunpack]
    exact .zero
  · rw [hmag, hunpack]
    exact .finite hm hc

/-- A number of units is rounded to the grid. -/
theorem rounds_ofUnits (n : Int) : Rounds n (ofUnits n) := by
  have habs : |(n : ℚ)| = n.natAbs := by rw [Nat.cast_natAbs, Int.cast_abs]
  obtain ⟨r, hr, ⟨hlt, hunits⟩ | ⟨hinf, hlarge⟩⟩ := unitsOfBits_bitsOfUnits n.natAbs
  · obtain ⟨u, hu, hasUnits⟩ := hasUnits_ofSignBits (decide (n < 0)) hlt
    rw [hunits] at hasUnits
    rw [ofUnits, hu]
    refine hasUnits.rounds (by rwa [habs]) ?_
    by_cases hneg : n < 0
    · exact .inr ⟨by simp [hneg], by exact_mod_cast hneg.le⟩
    · exact .inl ⟨by simp [hneg], by exact_mod_cast not_lt.mp hneg⟩
  · have hkey : ∀ negative, (ofSignBits negative infinityBits).isNaN = false ∧
        key (ofSignBits negative infinityBits) =
          if negative then -(overflowKey : Int) else overflowKey := by
      decide +kernel
    obtain ⟨hdefined, hkey⟩ := hkey (decide (n < 0))
    rw [ofUnits, hinf]
    refine ⟨hdefined, r, by rwa [habs], ?_⟩
    rw [hkey, Nat.min_eq_right hlarge]
    by_cases hneg : n < 0
    · exact .inr ⟨by exact_mod_cast hneg.le, by simp [hneg]⟩
    · exact .inl ⟨by exact_mod_cast not_lt.mp hneg, by simp [hneg]⟩

/-! ## Integers -/

/-- One is a power of two; the exponent is a variable so that it is not evaluated. -/
theorem exists_one_eq : ∃ k, k = 1074 ∧ one = 2 ^ k := ⟨1074, rfl, twoTo_eq 1074⟩

/-- An integer with at most 53 binary digits is kept. -/
theorem units_ofInt {n : Int} (h : n.natAbs ≤ 2 ^ 53) :
    (ofInt n).isFinite = true ∧ units (ofInt n) = n * one := by
  have hrounds : Rounds ((n * one : Int) : ℚ) (ofInt n) := rounds_ofUnits (n * one)
  obtain ⟨k, hk, hone⟩ := exists_one_eq
  have hlt : n.natAbs * 2 ^ k < overflowKey := by
    calc n.natAbs * 2 ^ k ≤ 2 ^ 53 * 2 ^ k := Nat.mul_le_mul_right _ h
      _ = 2 ^ (53 + k) := (Nat.pow_add 2 _ _).symm
      _ < overflowKey := two_pow_lt_overflowKey (by omega)
  rw [hone] at hrounds ⊢
  exact hrounds.exact h hlt (by rw [Int.natAbs_mul]; rfl)

/-- The quotient of a number that is at most `2 ^ j` times as large as another one. -/
theorem finite_div {x y : Float} (hx : x.isFinite = true) (hy : y.isFinite = true)
    (hne : units y ≠ 0) {j : Nat} (hj : j ≤ 64) (hle : (units x).natAbs ≤ 2 ^ j * (units y).natAbs) :
    (x / y).isFinite = true ∧ (units (x / y)).natAbs ≤ 2 ^ j * one := by
  obtain ⟨k, hk, hone⟩ := exists_one_eq
  have hlt : 1 * 2 ^ (j + k) < overflowKey := by
    rw [Nat.one_mul]
    exact two_pow_lt_overflowKey (by omega)
  have hpos : (0 : ℚ) < (units y).natAbs := by exact_mod_cast Int.natAbs_pos.mpr hne
  have hquotient : |(units x / units y * one : ℚ)| ≤ (1 * 2 ^ (j + k) : Nat) := by
    rw [abs_mul, abs_div, ← Int.cast_abs, ← Int.cast_abs, ← Nat.cast_natAbs, ← Nat.cast_natAbs,
      Nat.abs_cast, hone, Nat.one_mul, Nat.pow_add, Nat.cast_mul]
    refine mul_le_mul_of_nonneg_right ?_ (Nat.cast_nonneg _)
    rw [div_le_iff₀ hpos]
    exact_mod_cast hle
  have h := (rounds_div hx hy hne).finite (by decide) hlt hquotient
  rwa [Nat.one_mul, Nat.pow_add, ← hone] at h

/-- The product of numbers that are at most powers of two. -/
theorem finite_mul {x y : Float} (hx : x.isFinite = true) (hy : y.isFinite = true) {i j : Nat}
    (hij : i + j < 1024) (hxle : (units x).natAbs ≤ 2 ^ i * one) (hyle : (units y).natAbs ≤ 2 ^ j * one) :
    (x * y).isFinite = true ∧ (units (x * y)).natAbs ≤ 2 ^ (i + j) * one := by
  obtain ⟨k, hk, hone⟩ := exists_one_eq
  have hlt : 1 * 2 ^ (i + j + k) < overflowKey := by
    rw [Nat.one_mul]
    exact two_pow_lt_overflowKey (by omega)
  have hproduct : |(units x * units y / one : ℚ)| ≤ (1 * 2 ^ (i + j + k) : Nat) := by
    rw [abs_div, abs_mul, Nat.abs_cast, div_le_iff₀ one_cast_pos, ← Int.cast_abs, ← Int.cast_abs,
      ← Nat.cast_natAbs, ← Nat.cast_natAbs, Nat.one_mul, Nat.pow_add _ (i + j) k, ← hone]
    have hmul := Nat.mul_le_mul hxle hyle
    rw [Nat.mul_mul_mul_comm, ← Nat.pow_add, ← Nat.mul_assoc] at hmul
    exact_mod_cast hmul
  have h := (rounds_mul hx hy).finite (by decide) hlt hproduct
  rwa [Nat.one_mul, Nat.pow_add _ (i + j) k, ← hone] at h

end RangeCalc.Binary64
