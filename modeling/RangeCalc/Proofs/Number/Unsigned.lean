import RangeCalc.Proofs.Number.Alike

/-!
# Numbers of unsigned literals

A literal without a sign stands for a number that is not negative, perhaps infinity.

* `Unsigned`: a number that is neither negative nor undefined;
* `Unsigned.eq_infinity`: the only one that is not finite;
* `unsigned_literalValue`: the numbers of literals.
-/

namespace RangeCalc.Binary64

open Float.Model Float.Model.UnpackedFloat

/-- A number that is neither negative nor undefined. -/
structure Unsigned (x : Float) : Prop where
  defined : x.isNaN = false
  sign : isNegative x = false

/-! ## Unpacked numbers -/

/-- What numbers with a sign unpack to. -/
inductive HasSign (s : UnpackedFloat.Sign) : UnpackedFloat → Prop where
  | zero : HasSign s (.zero s)
  | finite {m : Nat} {e : Int} (hm : 0 < m) : HasSign s (.finite s m e hm)
  | infinity : HasSign s (.infinity s)

theorem hasSign_of_not_isNaN {x : Float} (h : x.isNaN = false) : HasSign (signOf x) x.toModel.unpack := by
  by_cases htop : exponentField x = 2047
  · rcases unpack_top htop with hu | hu
    · rw [hu]
      exact .infinity
    · rw [isNaN_unpack, hu] at h
      cases h
  · rcases unpack_finite (isFinite_of_exponentField htop) with ⟨-, hu⟩ | ⟨m, e, hm, hu, -⟩
    · rw [hu]
      exact .zero
    · rw [hu]
      exact .finite hm

theorem HasSign.not_isNaN {s : UnpackedFloat.Sign} {x : Float} (h : HasSign s x.toModel.unpack) :
    x.isNaN = false := by
  rw [isNaN_unpack]
  generalize x.toModel.unpack = u at h
  cases h <;> rfl

theorem HasSign.unique {s t : UnpackedFloat.Sign} {u : UnpackedFloat} (hs : HasSign s u) (ht : HasSign t u) :
    s = t := by
  cases hs <;> cases ht <;> rfl

theorem unsigned_iff {x : Float} : Unsigned x ↔ HasSign .positive x.toModel.unpack := by
  have hsign : signOf x = .positive ↔ isNegative x = false := by
    rw [signOf]
    split <;> simp_all
  constructor
  · rintro ⟨hdefined, h⟩
    rw [← hsign.mpr h]
    exact hasSign_of_not_isNaN hdefined
  · intro h
    exact ⟨h.not_isNaN, hsign.mp ((hasSign_of_not_isNaN h.not_isNaN).unique h)⟩

theorem Unsigned.signOf_eq {x : Float} (h : Unsigned x) : signOf x = .positive :=
  (hasSign_of_not_isNaN h.defined).unique (unsigned_iff.mp h)

/-- A packed number keeps its sign. -/
theorem HasUnits.hasSign_pack {s : UnpackedFloat.Sign} {n : Nat} {u : UnpackedFloat} (h : HasUnits s n u) :
    HasSign s (Float.Model.pack u).unpack := by
  cases h with
  | zero =>
    cases s
    · exact .zero
    · exact .zero
  | @finite m e hm hc =>
    rcases lt_or_ge 971 e with hlarge | hsmall
    · rw [pack_large hm hlarge]
      cases s
      · exact .infinity
      · exact .infinity
    · rw [unpack_pack hm hc hsmall]
      exact .finite hm

theorem HasUnits.unsigned {n : Nat} {u : UnpackedFloat} (h : HasUnits .positive n u) :
    Unsigned (.ofModel (.pack u)) :=
  unsigned_iff.mpr h.hasSign_pack

/-- An unsigned number that is not finite is infinity. -/
theorem Unsigned.eq_infinity {x : Float} (h : Unsigned x) (hx : x.isFinite = false) : x = infinity := by
  have hinfinity : Unsigned infinity ∧ infinity.isFinite = false := by
    refine ⟨⟨?_, ?_⟩, ?_⟩ <;> decide +kernel
  have hunpack {y : Float} (h : Unsigned y) (hy : y.isFinite = false) :
      y.toModel.unpack = .infinity .positive := by
    have hsign := unsigned_iff.mp h
    rw [isFinite_unpack] at hy
    generalize y.toModel.unpack = u at hsign hy
    cases hsign with
    | infinity => rfl
    | _ => cases hy
  exact eq_of_unpack ((hunpack h hx).trans (hunpack hinfinity.1 hinfinity.2).symm)

/-! ## Decimals -/

section

variable {m n : Nat} {e f : Int}

/-- The product of a full mantissa and another one. -/
theorem unsigned_mul (hm : 0 < m) (hn : 0 < n) (hfull : 2 ^ 52 ≤ m) :
    Unsigned (.ofModel (.pack (UnpackedFloat.mul Format.binary64 (.finite .positive m e hm)
      (.finite .positive n f hn)))) := by
  have hlog : 52 ≤ (m * n).log2 :=
    (Nat.le_log2 (by positivity)).mpr (hfull.trans (Nat.le_mul_of_pos_right _ hn))
  obtain ⟨units, -, hunits⟩ := @hasUnits_exact (.positive * .positive) (m * n) (e + f) (by omega)
  exact hunits.unsigned

theorem unsigned_div (hm : 0 < m) (hn : 0 < n) :
    Unsigned (.ofModel (.pack (UnpackedFloat.div Format.binary64 (.finite .positive m e hm)
      (.finite .positive n f hn)))) := by
  obtain ⟨num, t, hcore, hbits, -⟩ := @divCore_eq m n e f hm hn
  obtain ⟨units, -, hunits⟩ := hasUnits_roundWithAccuracy (s := .positive / .positive) hn hbits
  simp only [UnpackedFloat.div, hcore]
  exact hunits.unsigned

end

variable {d : Nat}

theorem unsigned_ofScientific_unpacked (hd : 0 < d) (i : Int) :
    Unsigned (.ofModel (.pack (UnpackedFloat.ofScientific Format.binary64 d i))) := by
  rw [UnpackedFloat.ofScientific, dif_neg hd.ne']
  split
  · exact unsigned_iff.mpr .infinity
  split
  · exact unsigned_iff.mpr .zero
  split
  · refine unsigned_mul _ _ ?_
    rw [Nat.shiftLeft_eq]
    exact (show 2 ^ 52 ≤ 2 ^ Format.binary64.mantissaBits by decide).trans (Nat.le_mul_of_pos_left _ hd)
  · exact unsigned_div _ _

theorem unsigned_ofScientific (hd : 0 < d) (negative : Bool) (k : Nat) :
    Unsigned (Float.ofScientific d negative k) := by
  by_cases h : d < 2 ^ 53 ∧ k ≤ 22
  · rw [Float.ofScientific, dif_pos h]
    obtain ⟨m₁, e₁, hm₁, ha, hc₁, he₁, hfull, -⟩ := toFloat_eq hd h.1
    obtain ⟨m₂, e₂, hm₂, hu₂, -⟩ := exists_tenTo (k := k) (Nat.lt_of_le_of_lt h.2 (by decide))
    have hu₁ := ofCanonical_unpack hm₁ hc₁ he₁
    rw [← ha] at hu₁
    cases negative
    · show Unsigned (.ofModel (.pack (UnpackedFloat.mul Format.binary64 (Float.toModel _).unpack
        (Float.toModel _).unpack)))
      rw [hu₁, hu₂]
      exact unsigned_mul hm₁ hm₂ hfull
    · show Unsigned (.ofModel (.pack (UnpackedFloat.div Format.binary64 (Float.toModel _).unpack
        (Float.toModel _).unpack)))
      rw [hu₁, hu₂]
      exact unsigned_div hm₁ hm₂
  · rw [Float.ofScientific, dif_neg h]
    exact unsigned_ofScientific_unpacked hd _

end RangeCalc.Binary64

namespace RangeCalc

open Binary64

/-- A decimal without a sign is read as a number that is not negative. -/
theorem unsigned_nearestDecimal (digits : Nat) (exponent : Int) :
    Unsigned (nearestDecimal digits exponent) := by
  have hzero : Unsigned 0 := by constructor <;> decide +kernel
  have hinfinity : Unsigned infinity := by constructor <;> decide +kernel
  rw [nearestDecimal]
  split
  · exact hzero
  split
  · exact hinfinity
  split
  · exact hzero
  · exact unsigned_ofScientific (Nat.pos_of_ne_zero ‹_›) _ _

/-- Literals stand for numbers that are not negative. -/
theorem unsigned_literalValue (cs : List Char) : Unsigned (literalValue cs) :=
  unsigned_nearestDecimal _ _

end RangeCalc
