import RangeCalc.Proofs.Number.Rounding

/-!
# Mantissas and exponents of floating-point numbers

A finite number other than zero is a canonical mantissa with an exponent, and it has as many units as
they say (`unpack_finite`). A canonical mantissa that is packed is the one that is unpacked again
(`unpack_pack`).
-/

namespace RangeCalc.Binary64

open Float.Model Float.Model.UnpackedFloat

/-! ## The fields of a bit pattern -/

section Fields

variable (b : BitVec 64)

theorem unpackMantissa_toNat :
    (@unpackMantissa Format.binary64 b).toNat = b.toNat % 2 ^ 52 := by
  simp [unpackMantissa]

theorem unpackExponent_toNat :
    (@unpackExponent Format.binary64 b).toNat = b.toNat / 2 ^ 52 % 2 ^ 11 := by
  simp [unpackExponent, Nat.shiftRight_eq_div_pow]

theorem unpackSign_toNat : (@unpackSign Format.binary64 b).toNat = b.toNat / 2 ^ 63 := by
  have := b.isLt
  simp [unpackSign, Nat.shiftRight_eq_div_pow]
  omega

end Fields

/-- The sign of a number as the float model has it. -/
def signOf (x : Float) : UnpackedFloat.Sign :=
  if isNegative x then .negative else .positive

/-- The bits of a number, as a natural number. -/
def bitsOf (x : Float) : Nat := x.toBits.toNat

theorem bitsOf_lt (x : Float) : bitsOf x < 2 ^ 64 := x.toBits.toNat_lt

theorem bitsOf_eq (x : Float) : x.toModel.toBits.toBitVec.toNat = bitsOf x := rfl

theorem isNegative_iff (x : Float) : isNegative x = true ↔ 2 ^ 63 ≤ bitsOf x := by
  unfold isNegative bitsOf
  rw [decide_eq_true_iff, UInt64.le_iff_toNat_le]
  rfl

theorem signOf_eq (x : Float) :
    UnpackedFloat.Sign.ofBitVec (@unpackSign Format.binary64 x.toModel.toBits.toBitVec) = signOf x := by
  have hsign := unpackSign_toNat x.toModel.toBits.toBitVec
  rw [bitsOf_eq] at hsign
  have hlt := bitsOf_lt x
  unfold UnpackedFloat.Sign.ofBitVec signOf
  by_cases hneg : 2 ^ 63 ≤ bitsOf x
  · rw [if_pos ((isNegative_iff x).mpr hneg), if_neg]
    intro h
    rw [h] at hsign
    simp at hsign
    omega
  · rw [if_neg (mt (isNegative_iff x).mp hneg), if_pos]
    apply BitVec.eq_of_toNat_eq
    rw [hsign]
    simp
    omega

theorem magnitudeBits_eq (x : Float) : magnitudeBits x = bitsOf x % 2 ^ 63 := by
  unfold magnitudeBits bitsOf
  rw [UInt64.toNat_and]
  exact Nat.and_two_pow_sub_one_eq_mod _ 63

/-! ## Finite numbers -/

/-- The exponent field and the mantissa field of a number. -/
def exponentField (x : Float) : Nat := bitsOf x / 2 ^ 52 % 2 ^ 11

def mantissaField (x : Float) : Nat := bitsOf x % 2 ^ 52

theorem magnitude_eq (x : Float) :
    magnitude x =
      if exponentField x = 0 then mantissaField x
      else (2 ^ 52 + mantissaField x) * 2 ^ (exponentField x - 1) := by
  have hlt := bitsOf_lt x
  have htwo : twoTo 52 = 2 ^ 52 := rfl
  have hexp : magnitudeBits x / 2 ^ 52 = exponentField x := by
    rw [magnitudeBits_eq, exponentField]
    omega
  have hman : magnitudeBits x % 2 ^ 52 = mantissaField x := by
    rw [magnitudeBits_eq, mantissaField]
    omega
  unfold magnitude unitsOfBits
  simp only [htwo, hexp, hman]
  by_cases h0 : exponentField x = 0
  · rw [if_pos h0, if_pos h0]
    omega
  · rw [if_neg h0, if_neg h0, Nat.shiftLeft_eq]

/-- What a number unpacks to, by its exponent field. -/
theorem unpack_top {x : Float} (h : exponentField x = 2047) :
    x.toModel.unpack = .infinity (signOf x) ∨ x.toModel.unpack = .notANumber := by
  have hexp : @unpackExponent Format.binary64 x.toModel.toBits.toBitVec = -1#_ := by
    apply BitVec.eq_of_toNat_eq
    rw [unpackExponent_toNat, bitsOf_eq]
    exact h
  simp only [Float.Model.unpack, UnpackedFloat.unpack, hexp, if_true, signOf_eq]
  split
  · exact .inl rfl
  · exact .inr rfl

theorem unpack_least {x : Float} (h : exponentField x = 0) :
    (mantissaField x = 0 ∧ x.toModel.unpack = .zero (signOf x)) ∨
      ∃ hm : 0 < mantissaField x, x.toModel.unpack = .finite (signOf x) (mantissaField x) (-1074) hm := by
  have hexp : @unpackExponent Format.binary64 x.toModel.toBits.toBitVec = 0#_ := by
    apply BitVec.eq_of_toNat_eq
    rw [unpackExponent_toNat, bitsOf_eq]
    exact h
  have hman : (@unpackMantissa Format.binary64 x.toModel.toBits.toBitVec).toNat = mantissaField x := by
    rw [unpackMantissa_toNat, bitsOf_eq]
    rfl
  have hne : (0#11 : BitVec 11) ≠ -1#_ := by decide
  simp only [Float.Model.unpack, UnpackedFloat.unpack, hexp, signOf_eq, if_neg hne, if_true]
  by_cases h0 : mantissaField x = 0
  · left
    have hzero : @unpackMantissa Format.binary64 x.toModel.toBits.toBitVec = 0#_ := by
      apply BitVec.eq_of_toNat_eq
      rw [hman, h0]
      rfl
    exact ⟨h0, by rw [dif_pos hzero]⟩
  · right
    have hzero : ¬ @unpackMantissa Format.binary64 x.toModel.toBits.toBitVec = 0#_ := by
      intro hz
      rw [hz] at hman
      exact h0 hman.symm
    refine ⟨by omega, ?_⟩
    rw [dif_neg hzero]
    simp only [hman]
    rfl

theorem unpack_normal {x : Float} (h0 : exponentField x ≠ 0) (h1 : exponentField x ≠ 2047) :
    x.toModel.unpack =
      .finite (signOf x) (2 ^ 52 + mantissaField x) (exponentField x - 1075) (by omega) := by
  have hexp : (@unpackExponent Format.binary64 x.toModel.toBits.toBitVec).toNat = exponentField x := by
    rw [unpackExponent_toNat, bitsOf_eq]
    rfl
  have hman : (@unpackMantissa Format.binary64 x.toModel.toBits.toBitVec).toNat = mantissaField x := by
    rw [unpackMantissa_toNat, bitsOf_eq]
    rfl
  have hzero : ¬ @unpackExponent Format.binary64 x.toModel.toBits.toBitVec = 0#_ := by
    intro hz
    rw [hz] at hexp
    exact h0 hexp.symm
  have htop : ¬ @unpackExponent Format.binary64 x.toModel.toBits.toBitVec = -1#_ := by
    intro hz
    rw [hz] at hexp
    exact h1 hexp.symm
  have happend : (1#1 ++ @unpackMantissa Format.binary64 x.toModel.toBits.toBitVec).toNat =
      2 ^ 52 + mantissaField x := by
    rw [BitVec.toNat_append, ← Nat.shiftLeft_add_eq_or_of_lt (BitVec.isLt _), hman]
    rfl
  simp only [Float.Model.unpack, UnpackedFloat.unpack, if_neg hzero, if_neg htop, signOf_eq, happend,
    hexp]
  rfl

/-- A finite number is a zero, or a canonical mantissa with an exponent and as many units as they say. -/
theorem unpack_finite {x : Float} (h : x.isFinite = true) :
    (magnitude x = 0 ∧ x.toModel.unpack = .zero (signOf x)) ∨
      ∃ m e hm, x.toModel.unpack = .finite (signOf x) m e hm ∧ Canonical m e ∧ e ≤ 971 ∧
        magnitude x = m * 2 ^ (e + 1074).toNat := by
  have hman : mantissaField x < 2 ^ 52 := Nat.mod_lt _ (by decide)
  have hexp : exponentField x < 2 ^ 11 := Nat.mod_lt _ (by decide)
  rw [magnitude_eq]
  by_cases htop : exponentField x = 2047
  · have hfin : x.toModel.unpack.isFinite = true := h
    rcases unpack_top htop with hu | hu
    · rw [hu] at hfin
      exact absurd hfin Bool.false_ne_true
    · rw [hu] at hfin
      exact absurd hfin Bool.false_ne_true
  by_cases h0 : exponentField x = 0
  · rw [if_pos h0]
    rcases unpack_least h0 with ⟨hz, hu⟩ | ⟨hm, hu⟩
    · exact .inl ⟨hz, hu⟩
    · refine .inr ⟨_, _, hm, hu, ⟨by omega, by decide, .inl rfl⟩, by decide, ?_⟩
      rw [show ((-1074 : Int) + 1074).toNat = 0 from rfl, Nat.pow_zero, Nat.mul_one]
  · rw [if_neg h0]
    refine .inr ⟨_, _, _, unpack_normal h0 htop, ⟨by omega, by omega, .inr (by omega)⟩, by omega, ?_⟩
    rw [show ((exponentField x : Int) - 1075 + 1074).toNat = exponentField x - 1 by omega]

/-! ## Packing -/

theorem unpackSign_packComponents (s : UnpackedFloat.Sign) (exponent : BitVec 11) (mantissa : BitVec 52) :
    unpackSign (packComponents Format.binary64 s exponent mantissa) = s.toBitVec := by
  apply BitVec.eq_of_toNat_eq
  rw [unpackSign_toNat]
  show (s.toBitVec ++ exponent ++ mantissa).toNat / 2 ^ 63 = s.toBitVec.toNat
  have h1 := exponent.isLt
  have h2 := mantissa.isLt
  rw [BitVec.toNat_append, BitVec.toNat_append, ← Nat.shiftLeft_add_eq_or_of_lt h1,
    ← Nat.shiftLeft_add_eq_or_of_lt h2, Nat.shiftLeft_eq, Nat.shiftLeft_eq]
  omega

theorem ofBitVec_toBitVec (s : UnpackedFloat.Sign) : UnpackedFloat.Sign.ofBitVec s.toBitVec = s := by
  cases s <;> rfl

theorem pack_finite (s : UnpackedFloat.Sign) {m : Nat} (e : Int) (hm : 0 < m) :
    UnpackedFloat.pack Format.binary64 (.finite s m e hm) =
      if 2 ^ 11 ≤ (e + 1023 + 52).toNat + 1 then packedInfinity Format.binary64 s
      else if m.log2 + 1 = 53 then
        packComponents Format.binary64 s (BitVec.ofNat 11 (e + 1023 + 52).toNat) (BitVec.ofNat 52 m)
      else packComponents Format.binary64 s 0#11 (BitVec.ofNat 52 m) := rfl

/-- A mantissa of fewer than 53 bits is packed without its exponent, which is the least one. -/
theorem unpack_pack_small {s : UnpackedFloat.Sign} {m : Nat} (hm : 0 < m) (hsmall : m < 2 ^ 52) :
    (Float.Model.pack (.finite s m (-1074) hm)).unpack = .finite s m (-1074) hm := by
  have hlog : ¬ m.log2 + 1 = 53 := by
    have := (Nat.log2_lt (by omega)).mpr hsmall
    omega
  have hman : (BitVec.ofNat 52 m).toNat = m := by
    rw [BitVec.toNat_ofNat, Nat.mod_eq_of_lt hsmall]
  have hne : ¬ BitVec.ofNat 52 m = 0#52 := by
    intro h
    rw [h] at hman
    exact hm.ne hman
  show UnpackedFloat.unpack Format.binary64 (UnpackedFloat.pack Format.binary64 _) = _
  rw [pack_finite, if_neg (by decide), if_neg hlog]
  simp only [UnpackedFloat.unpack, unpackExponent_packComponents, unpackMantissa_packComponents,
    unpackSign_packComponents, ofBitVec_toBitVec]
  rw [if_neg (by decide), if_pos trivial, dif_neg hne]
  simp only [hman]
  rfl

/-- A mantissa of 53 bits is packed without its first bit, which the exponent implies. -/
theorem unpack_pack_full {s : UnpackedFloat.Sign} {m : Nat} {e : Int} (hm : 0 < m)
    (hfull : 2 ^ 52 ≤ m) (hlt : m < 2 ^ 53) (hle : -1074 ≤ e) (he : e ≤ 971) :
    (Float.Model.pack (.finite s m e hm)).unpack = .finite s m e hm := by
  have hbias : ¬ 2 ^ 11 ≤ (e + 1023 + 52).toNat + 1 := by omega
  have hlog : m.log2 + 1 = 53 := by
    have h1 := (Nat.log2_lt (by omega)).mpr hlt
    have h2 := (Nat.le_log2 (by omega)).mpr hfull
    omega
  have hexp : (BitVec.ofNat 11 (e + 1023 + 52).toNat).toNat = (e + 1075).toNat := by
    rw [BitVec.toNat_ofNat, Nat.mod_eq_of_lt (by omega)]
    omega
  have hzero : ¬ BitVec.ofNat 11 (e + 1023 + 52).toNat = 0#11 := by
    intro h
    rw [h] at hexp
    simp at hexp
    omega
  have htop : ¬ BitVec.ofNat 11 (e + 1023 + 52).toNat = -1#11 := by
    intro h
    rw [h] at hexp
    simp at hexp
    omega
  have hman : (1#1 ++ BitVec.ofNat 52 m).toNat = m := by
    rw [BitVec.toNat_append, ← Nat.shiftLeft_add_eq_or_of_lt (BitVec.isLt _), BitVec.toNat_ofNat]
    simp [Nat.shiftLeft_eq]
    omega
  show UnpackedFloat.unpack Format.binary64 (UnpackedFloat.pack Format.binary64 _) = _
  rw [pack_finite, if_neg hbias, if_pos hlog]
  simp only [UnpackedFloat.unpack, unpackExponent_packComponents, unpackMantissa_packComponents,
    unpackSign_packComponents, ofBitVec_toBitVec]
  rw [if_neg htop, if_neg hzero]
  simp only [hman, hexp]
  congr 1
  show ((e + 1075).toNat : Int) - (1023 + 52) = e
  omega

/-- A packed canonical mantissa unpacks to itself, if its exponent is not too large. -/
theorem unpack_pack {s : UnpackedFloat.Sign} {m : Nat} {e : Int} (hm : 0 < m) (hc : Canonical m e)
    (he : e ≤ 971) :
    (Float.Model.pack (.finite s m e hm)).unpack = .finite s m e hm := by
  rcases Nat.lt_or_ge m (2 ^ 52) with hsmall | hfull
  · obtain rfl : e = -1074 := hc.full.resolve_right (by omega)
    exact unpack_pack_small hm hsmall
  · exact unpack_pack_full hm hfull hc.lt hc.le he

end RangeCalc.Binary64
