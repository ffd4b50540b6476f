import RangeCalc.Proofs.Number.Grid
import RangeCalc.Proofs.Number.Nearest
import RangeCalc.Proofs.Number.Order

/-!
# Arithmetic of floating-point numbers

Sums, differences, products and quotients of finite numbers are the exact results rounded to the grid, and
infinite if they are too large.

* `Rounds`: a number that an exact number of units is rounded to;
* `rounds_add`, `rounds_sub`, `rounds_mul`, `rounds_div`, `rounds_ofUnits`: the operations;
* `Rounds.key_mono`: they keep the order.
-/

namespace RangeCalc.Binary64

open Float.Model Float.Model.UnpackedFloat

/-- A number that an exact number of units is rounded to; infinity stands for all that are too large. -/
structure Rounds (a : ℚ) (x : Float) : Prop where
  defined : x.isNaN = false
  key_eq : ∃ n, RoundsUnits |a| n ∧
    (0 ≤ a ∧ key x = (min n overflowKey : Nat) ∨ a ≤ 0 ∧ key x = -(min n overflowKey : Nat))

/-! ## Rounding of unpacked numbers -/

/-- Unpacked numbers of a sign with a number of units, without bound. -/
inductive HasUnits (s : UnpackedFloat.Sign) : Nat → UnpackedFloat → Prop where
  | zero : HasUnits s 0 (.zero s)
  | finite {m : Nat} {e : Int} (hm : 0 < m) (hc : Canonical m e) :
    HasUnits s (m * 2 ^ (e + 1074).toNat) (.finite s m e hm)

section Round

variable {s : UnpackedFloat.Sign} {num den m : Nat} {e t : Int}

/-- A mantissa that is rounded to nothing. -/
theorem roundWithAccuracy_zero (hden : 0 < den)
    (ht : max (((num / den).log2 : Int) + e - 52) (-1074) = t) (hle : e ≤ t)
    (hround : roundEven num (2 ^ (t - e).toNat * den) = 0) :
    roundWithAccuracy Format.binary64 s (num / den) e (accuracyOfFraction (num % den) den) =
      .zero s := by
  have hpos : 0 < 2 ^ (t - e).toNat * den := by positivity
  simp only [roundWithAccuracy, shiftToTargetExponent_ofFraction hden ht hle,
    roundedMantissa_ofFraction hpos, hround,
    shiftToTargetExponent_small (show 0 < 2 ^ 53 by decide) (show -1074 ≤ t by omega)]
  rw [dif_pos trivial]

theorem nearestEven_roundEven (hden : 0 < den) : NearestEven (num / den) (roundEven num den) := by
  have hpos : (0 : ℚ) < den := by positivity
  have hnum : (num : ℚ) = den * (num / den : Nat) + (num % den : Nat) := by
    exact_mod_cast (Nat.div_add_mod num den).symm
  have hvalue : (num : ℚ) / den = (num / den : Nat) + (num % den : Nat) / den := by
    rw [eq_comm, hnum]
    field_simp
  have hlt : (num % den : Nat) / (den : ℚ) < 1 := by
    rw [div_lt_one hpos]
    exact_mod_cast Nat.mod_lt num hden
  have hnonneg : 0 ≤ (num % den : Nat) / (den : ℚ) := by positivity
  rw [hvalue]
  unfold roundEven
  rcases hcmp : compare (2 * (num % den)) den with _ | _ | _
  · have hhalf : (num % den : Nat) / (den : ℚ) < 1 / 2 := by
      rw [div_lt_div_iff₀ hpos (by norm_num), one_mul, mul_comm]
      exact_mod_cast Nat.compare_eq_lt.mp hcmp
    exact ⟨by linarith, by linarith, fun h => by rcases h with h | h <;> linarith⟩
  · have hhalf : (num % den : Nat) / (den : ℚ) = 1 / 2 := by
      rw [div_eq_div_iff hpos.ne' (by norm_num), one_mul, mul_comm]
      exact_mod_cast Nat.compare_eq_eq.mp hcmp
    rw [hhalf]
    show NearestEven _ (num / den + num / den % 2)
    rcases Nat.mod_two_eq_zero_or_one (num / den) with h0 | h1
    · rw [h0]
      exact ⟨by push_cast; linarith, by push_cast; linarith, fun _ => by omega⟩
    · rw [h1]
      exact ⟨by push_cast; linarith, by push_cast; linarith, fun _ => by omega⟩
  · have hhalf : 1 / 2 < (num % den : Nat) / (den : ℚ) := by
      rw [div_lt_div_iff₀ (by norm_num) hpos, one_mul, mul_comm _ (2 : ℚ)]
      exact_mod_cast Nat.compare_eq_gt.mp hcmp
    refine ⟨by push_cast; linarith, by push_cast; linarith, fun h => ?_⟩
    rcases h with h | h <;> push_cast at h <;> linarith

/-- A fraction with an exponent, in units: the least exponent has moved to zero. -/
theorem fraction_units : (num : ℚ) / den * 2 ^ e * one = num / den * 2 ^ (e + 1074) := by
  rw [one_cast, mul_assoc, ← zpow_add₀ (by norm_num)]

/-- The step of the grid at a fraction with an exponent keeps 53 bits, unless it is the least step. -/
theorem isStep_fraction {k : Nat} (hden : 0 < den)
    (hk : max (((num / den).log2 : Int) + e - 52) (-1074) = k - 1074) (hbits : e ≤ k - 1074) :
    IsStep (num / den * 2 ^ e * one) k := by
  rw [fraction_units]
  constructor
  · rcases Nat.eq_zero_or_pos k with h0 | hpos
    · exact .inl h0
    · have hlog : ((num / den).log2 : Int) + (e + 1074) = ((52 + k : Nat) : Int) := by
        push_cast
        omega
      have hne : num / den ≠ 0 := by
        intro h0
        rw [h0, show Nat.log2 0 = 0 from rfl] at hlog
        omega
      right
      rw [← zpow_natCast, ← hlog]
      exact two_zpow_le_div (e := e + 1074) hden hne
  · rw [← zpow_natCast]
    refine (div_lt_two_zpow (e := e + 1074) hden).trans_le ?_
    exact zpow_le_zpow_right₀ (by norm_num) (by push_cast; omega)

/-- A fraction that is given with at least as many bits as the rounding keeps is rounded to the grid. -/
theorem hasUnits_roundWithAccuracy (hden : 0 < den)
    (hbits : e ≤ max (((num / den).log2 : Int) + e - 52) (-1074)) :
    ∃ n, RoundsUnits (num / den * 2 ^ e * one) n ∧ HasUnits s n
      (roundWithAccuracy Format.binary64 s (num / den) e (accuracyOfFraction (num % den) den)) := by
  obtain ⟨t, ht⟩ : ∃ t, max (((num / den).log2 : Int) + e - 52) (-1074) = t := ⟨_, rfl⟩
  obtain ⟨k, hk⟩ : ∃ k : Nat, (k : Int) = t + 1074 := ⟨(t + 1074).toNat, by omega⟩
  have hstep : IsStep (num / den * 2 ^ e * one) k := isStep_fraction hden (by omega) (by omega)
  rw [ht] at hbits
  have hvalue : (num : ℚ) / den * 2 ^ e * one / 2 ^ k = num / ((2 ^ (t - e).toNat * den : Nat) : ℚ) := by
    rw [div_mul_zpow hbits, one_cast, mul_assoc, ← zpow_add₀ (by norm_num), ← zpow_natCast, hk]
    field_simp
  have hnear := @nearestEven_roundEven num (2 ^ (t - e).toNat * den) (by positivity)
  rw [← hvalue] at hnear
  refine ⟨_, ⟨k, _, hstep, hnear, rfl⟩, ?_⟩
  have hexp : (t + 1074).toNat = k := by omega
  obtain ⟨r, hr⟩ : ∃ r, roundEven num (2 ^ (t - e).toNat * den) = r := ⟨_, rfl⟩
  rw [hr] at hnear ⊢
  have hle := hnear.le_of_lt hstep.high
  rcases Nat.eq_zero_or_pos r with rfl | hpos
  · rw [roundWithAccuracy_zero hden ht hbits hr, Nat.zero_mul]
    exact .zero
  rcases hle.lt_or_eq with hlt | rfl
  · rw [roundWithAccuracy_keep hden ht hbits hr hpos hlt, ← hexp]
    refine .finite hpos ⟨hlt, by omega, ?_⟩
    exact hstep.low.imp (fun h0 => by omega) fun hlow => hnear.le_of_le hlow
  · rw [roundWithAccuracy_carry hden ht hbits hr]
    have hcarry : 2 ^ 53 * 2 ^ k = 2 ^ 52 * 2 ^ (t + 1 + 1074).toNat := by
      rw [← Nat.pow_add, ← Nat.pow_add]
      congr 1
      omega
    rw [hcarry]
    exact .finite (by decide) ⟨by decide, by omega, .inr le_rfl⟩

/-- An integer with an exponent that is not too large is rounded to the grid. -/
theorem hasUnits_exact (hbits : e ≤ max ((num.log2 : Int) + e - 52) (-1074)) :
    ∃ n, RoundsUnits (num * 2 ^ e * one) n ∧
      HasUnits s n (roundWithAccuracy Format.binary64 s num e .exact) := by
  have h := @hasUnits_roundWithAccuracy s num 1 e (by decide) (by rwa [Nat.div_one])
  rwa [Nat.div_one, Nat.mod_one, Nat.cast_one, div_one] at h

/-- An integer with any exponent is rounded to the grid. -/
theorem hasUnits_round (hm : 0 < m) :
    ∃ n, RoundsUnits (m * 2 ^ e * one) n ∧ HasUnits s n (UnpackedFloat.round Format.binary64 s m e) := by
  obtain ⟨t, ht⟩ : ∃ t, max ((m.log2 : Int) + e - 52) (-1074) = t := ⟨_, rfl⟩
  obtain ⟨i, hi⟩ : ∃ i, (e - t).toNat = i := ⟨_, rfl⟩
  have hvalue : (m : ℚ) * 2 ^ e * one = (m * 2 ^ i : Nat) * 2 ^ (e - i) * one := by
    rw [zpow_sub₀ (by norm_num), zpow_natCast]
    push_cast
    field_simp
  simp only [UnpackedFloat.round, targetExponent_eq, ht, decreaseExponent, hi, Nat.shiftLeft_eq]
  rw [hvalue]
  exact hasUnits_exact (by rw [log2_mul_two_pow hm]; push_cast; omega)

end Round

/-! ## Packing -/

/-- A finite number whose exponent is too large is packed as an infinity. -/
theorem pack_large {s : UnpackedFloat.Sign} {m : Nat} {e : Int} (hm : 0 < m) (he : 971 < e) :
    Float.Model.pack (.finite s m e hm) = Float.Model.pack (.infinity s) := by
  unfold Float.Model.pack
  congr 1
  rw [pack_finite, if_pos (by omega)]
  rfl

/-- The key of a packed number. -/
theorem HasUnits.key_pack {s : UnpackedFloat.Sign} {n : Nat} {u : UnpackedFloat} (h : HasUnits s n u) :
    HasKey (Float.Model.pack u).unpack (s.apply (min n overflowKey : Nat)) := by
  cases h with
  | zero =>
    cases s
    · exact .zero .negative
    · exact .zero .positive
  | @finite m e hm hc =>
    rcases lt_or_ge 971 e with hlarge | hsmall
    · have hle : overflowKey ≤ m * 2 ^ (e + 1074).toNat := by
        have hfull : 2 ^ 52 ≤ m := hc.full.resolve_left (by omega)
        calc overflowKey ≤ 2 ^ (52 + (e + 1074).toNat) := overflowKey_le_two_pow (by omega)
          _ = 2 ^ 52 * 2 ^ (e + 1074).toNat := Nat.pow_add 2 _ _
          _ ≤ m * 2 ^ (e + 1074).toNat := Nat.mul_le_mul_right _ hfull
      rw [Nat.min_eq_right hle]
      rw [pack_large hm hlarge]
      cases s
      · exact .infinity .negative
      · exact .infinity .positive
    · rw [Nat.min_eq_left (units_lt_overflowKey hc hsmall).le, unpack_pack hm hc hsmall]
      exact .finite s hm hc hsmall

theorem HasKey.not_isNaN {x : Float} {n : Int} (h : HasKey x.toModel.unpack n) : x.isNaN = false := by
  rw [isNaN_unpack]
  generalize x.toModel.unpack = u at h
  cases h <;> rfl

/-- A packed number that an exact one was rounded to. -/
theorem HasUnits.rounds {s : UnpackedFloat.Sign} {n : Nat} {u : UnpackedFloat} {a : ℚ} (h : HasUnits s n u)
    (ha : RoundsUnits |a| n) (hs : s = .positive ∧ 0 ≤ a ∨ s = .negative ∧ a ≤ 0) :
    Rounds a (.ofModel (.pack u)) := by
  have hkey := h.key_pack
  refine ⟨HasKey.not_isNaN hkey, n, ha, ?_⟩
  rw [@HasKey.key_eq (.ofModel (.pack u)) _ hkey]
  exact hs.imp (fun ⟨hs, ha⟩ => ⟨ha, by rw [hs]; rfl⟩) fun ⟨hs, ha⟩ => ⟨ha, by rw [hs]; rfl⟩

/-! ## Operations -/

variable {a b : ℚ} {x y : Float} {m n : Nat} {e : Int}

theorem cast_apply (s : UnpackedFloat.Sign) (n : Nat) :
    s = .positive ∧ ((s.apply n : Int) : ℚ) = n ∨ s = .negative ∧ ((s.apply n : Int) : ℚ) = -n := by
  cases s
  · exact .inr ⟨rfl, by rw [UnpackedFloat.Sign.apply, Int.cast_neg, Int.cast_natCast]⟩
  · exact .inl ⟨rfl, by rw [UnpackedFloat.Sign.apply, Int.cast_natCast]⟩

theorem apply_neg (s : UnpackedFloat.Sign) (n : Int) : (-s).apply n = -s.apply n := by
  cases s
  · exact (neg_neg n).symm
  · rfl

/-- A packed number with a sign and a rational number of units. -/
theorem HasUnits.rounds_signed {s : UnpackedFloat.Sign} {u : UnpackedFloat} (h : HasUnits s n u)
    (hb : RoundsUnits b n) (hnonneg : 0 ≤ b) (ha : s = .positive ∧ a = b ∨ s = .negative ∧ a = -b) :
    Rounds a (.ofModel (.pack u)) := by
  rcases ha with ⟨hs, rfl⟩ | ⟨hs, rfl⟩
  · exact h.rounds (by rwa [abs_of_nonneg hnonneg]) (.inl ⟨hs, hnonneg⟩)
  · exact h.rounds (by rwa [abs_neg, abs_of_nonneg hnonneg]) (.inr ⟨hs, by linarith⟩)

theorem rounds_zero (s : UnpackedFloat.Sign) : Rounds 0 (.ofModel (.pack (.zero s))) := by
  have hself := RoundsUnits.self (Nat.zero_le (2 ^ 53)) 0
  rw [Nat.zero_mul, Nat.cast_zero] at hself
  refine (HasUnits.zero (s := s)).rounds_signed hself le_rfl ?_
  cases s
  · exact .inr ⟨rfl, neg_zero.symm⟩
  · exact .inl ⟨rfl, rfl⟩

theorem rounds_pack {s : UnpackedFloat.Sign} (hm : 0 < m) (hc : Canonical m e) :
    Rounds (s.apply (m * 2 ^ (e + 1074).toNat : Nat) : Int) (.ofModel (.pack (.finite s m e hm))) :=
  (HasUnits.finite hm hc).rounds_signed (.self hc.lt.le _) (by positivity) (cast_apply s _)

/-- A finite number is a zero, or it has a sign, a canonical mantissa and an exponent. -/
theorem finite_cases (hx : x.isFinite = true) :
    (units x = 0 ∧ ∃ s, x.toModel.unpack = .zero s) ∨
      ∃ s m e hm, x.toModel.unpack = .finite s m e hm ∧ Canonical m e ∧
        units x = s.apply (m * 2 ^ (e + 1074).toNat : Nat) := by
  rw [units_eq_apply]
  rcases unpack_finite hx with ⟨hzero, hu⟩ | ⟨m, e, hm, hu, hc, -, hmag⟩
  · refine .inl ⟨?_, _, hu⟩
    rw [hzero]
    cases signOf x <;> rfl
  · exact .inr ⟨_, m, e, hm, hu, hc, by rw [hmag]⟩

/-- A finite number is what its units are rounded to. -/
theorem Rounds.self (hx : x.isFinite = true) : Rounds (units x) x := by
  obtain ⟨n, hn, hle, hkey⟩ : ∃ n : Nat, RoundsUnits n n ∧ n ≤ overflowKey ∧ magnitude x = n := by
    rcases unpack_finite hx with ⟨hzero, -⟩ | ⟨m, e, hm, -, hc, he, hmag⟩
    · exact ⟨0, by simpa using RoundsUnits.self (Nat.zero_le (2 ^ 53)) 0, Nat.zero_le _, hzero⟩
    · exact ⟨_, .self hc.lt.le _, (units_lt_overflowKey hc he).le, hmag⟩
  have hunits := units_eq_apply x
  rw [hkey] at hunits
  refine ⟨not_isNaN_of_isFinite hx, n, ?_, ?_⟩
  · rw [hunits]
    rcases cast_apply (signOf x) n with ⟨-, hcast⟩ | ⟨-, hcast⟩
    · rw [hcast, Nat.abs_cast]
      exact hn
    · rw [hcast, abs_neg, Nat.abs_cast]
      exact hn
  · have hnonneg : (0 : ℚ) ≤ n := n.cast_nonneg
    rw [key_of_isFinite hx, Nat.min_eq_left hle, hunits]
    rcases cast_apply (signOf x) n with ⟨hs, hcast⟩ | ⟨hs, hcast⟩
    · left
      rw [hcast, hs, UnpackedFloat.Sign.apply]
      exact ⟨hnonneg, rfl⟩
    · right
      rw [hcast, hs, UnpackedFloat.Sign.apply]
      exact ⟨neg_nonpos.mpr hnonneg, rfl⟩

/-- Rounding keeps the order. -/
theorem Rounds.key_mono (hx : Rounds a x) (hy : Rounds b y) (hab : a ≤ b) : key x ≤ key y := by
  obtain ⟨m, hm, hx⟩ := hx.key_eq
  obtain ⟨n, hn, hy⟩ := hy.key_eq
  rcases hx with ⟨ha, hx⟩ | ⟨ha, hx⟩ <;> rcases hy with ⟨hb, hy⟩ | ⟨hb, hy⟩
  · rw [abs_of_nonneg ha] at hm
    rw [abs_of_nonneg hb] at hn
    have := hm.mono hn hab
    omega
  · obtain rfl : a = 0 := le_antisymm (hab.trans hb) ha
    obtain rfl : b = 0 := le_antisymm hb hab
    rw [abs_zero] at hm hn
    have := hm.zero
    have := hn.zero
    omega
  · omega
  · rw [abs_of_nonpos ha] at hm
    rw [abs_of_nonpos hb] at hn
    have := hn.mono hm (neg_le_neg hab)
    omega

theorem Rounds.key_unique (hx : Rounds a x) (hy : Rounds a y) : key x = key y :=
  le_antisymm (hx.key_mono hy le_rfl) (hy.key_mono hx le_rfl)

theorem rounds_mul (hx : x.isFinite = true) (hy : y.isFinite = true) :
    Rounds (units x * units y / one) (x * y) := by
  show Rounds _ (.ofModel (.pack (UnpackedFloat.mul Format.binary64 x.toModel.unpack y.toModel.unpack)))
  rcases finite_cases hx with ⟨hx0, s₁, hu₁⟩ | ⟨s₁, m₁, e₁, hm₁, hu₁, hc₁, hv₁⟩
  · rw [hx0, hu₁, Int.cast_zero, zero_mul, zero_div]
    rcases finite_cases hy with ⟨-, s₂, hu₂⟩ | ⟨s₂, m₂, e₂, hm₂, hu₂, -, -⟩
    · rw [hu₂]
      exact rounds_zero _
    · rw [hu₂]
      exact rounds_zero _
  rcases finite_cases hy with ⟨hy0, s₂, hu₂⟩ | ⟨s₂, m₂, e₂, hm₂, hu₂, hc₂, hv₂⟩
  · rw [hy0, hu₁, hu₂, Int.cast_zero, mul_zero, zero_div]
    exact rounds_zero _
  have hle₁ := hc₁.le
  have hle₂ := hc₂.le
  -- unless both exponents are the least one, the product has more bits than are kept
  have hbits : e₁ + e₂ ≤ max (((m₁ * m₂).log2 : Int) + (e₁ + e₂) - 52) (-1074) := by
    by_cases hleast : e₁ = -1074 ∧ e₂ = -1074
    · omega
    · have hlarge : 2 ^ 52 ≤ m₁ * m₂ := by
        rcases hc₁.full with h₁ | h₁
        · exact (hc₂.full.resolve_left fun h₂ => hleast ⟨h₁, h₂⟩).trans (Nat.le_mul_of_pos_left _ hm₁)
        · exact h₁.trans (Nat.le_mul_of_pos_right _ hm₂)
      have := (Nat.le_log2 (by positivity)).mpr hlarge
      omega
  obtain ⟨n, hn, hunits⟩ := hasUnits_exact (s := s₁ * s₂) hbits
  rw [hu₁, hu₂]
  refine hunits.rounds_signed hn (mul_nonneg (by positivity) one_cast_pos.le) ?_
  rw [hv₁, hv₂]
  have hvalue : ((m₁ * 2 ^ (e₁ + 1074).toNat : Nat) : ℚ) * (m₂ * 2 ^ (e₂ + 1074).toNat : Nat) / one =
      (m₁ * m₂ : Nat) * 2 ^ (e₁ + e₂) * one := by
    have hone := one_cast_pos.ne'
    rw [cast_units hle₁, cast_units hle₂, zpow_add₀ (by norm_num)]
    push_cast
    field_simp
  rw [← hvalue]
  rcases cast_apply s₁ (m₁ * 2 ^ (e₁ + 1074).toNat) with ⟨rfl, hs₁⟩ | ⟨rfl, hs₁⟩ <;>
    rcases cast_apply s₂ (m₂ * 2 ^ (e₂ + 1074).toNat) with ⟨rfl, hs₂⟩ | ⟨rfl, hs₂⟩ <;>
    rw [hs₁, hs₂]
  · exact .inl ⟨rfl, rfl⟩
  · exact .inr ⟨rfl, by ring⟩
  · exact .inr ⟨rfl, by ring⟩
  · exact .inl ⟨rfl, by ring⟩

theorem rounds_div (hx : x.isFinite = true) (hy : y.isFinite = true) (hne : units y ≠ 0) :
    Rounds (units x / units y * one) (x / y) := by
  show Rounds _ (.ofModel (.pack (UnpackedFloat.div Format.binary64 x.toModel.unpack y.toModel.unpack)))
  rcases finite_cases hy with ⟨hy0, -⟩ | ⟨s₂, m₂, e₂, hm₂, hu₂, hc₂, hv₂⟩
  · exact absurd hy0 hne
  rcases finite_cases hx with ⟨hx0, s₁, hu₁⟩ | ⟨s₁, m₁, e₁, hm₁, hu₁, hc₁, hv₁⟩
  · rw [hx0, hu₁, hu₂, Int.cast_zero, zero_div, zero_mul]
    exact rounds_zero _
  obtain ⟨num, t, hcore, hbits, hquotient⟩ := @divCore_eq m₁ m₂ e₁ e₂ hm₁ hm₂
  obtain ⟨n, hn, hunits⟩ := hasUnits_roundWithAccuracy (s := s₁ / s₂) hm₂ hbits
  rw [hu₁, hu₂]
  simp only [UnpackedFloat.div, hcore]
  refine hunits.rounds_signed hn (mul_nonneg (by positivity) one_cast_pos.le) ?_
  rw [hv₁, hv₂]
  have hvalue : ((m₁ * 2 ^ (e₁ + 1074).toNat : Nat) : ℚ) / (m₂ * 2 ^ (e₂ + 1074).toNat : Nat) * one =
      num / m₂ * 2 ^ t * one := by
    have hone := one_cast_pos.ne'
    rw [cast_units hc₁.le, cast_units hc₂.le, hquotient]
    field_simp
  rw [← hvalue]
  rcases cast_apply s₁ (m₁ * 2 ^ (e₁ + 1074).toNat) with ⟨rfl, hs₁⟩ | ⟨rfl, hs₁⟩ <;>
    rcases cast_apply s₂ (m₂ * 2 ^ (e₂ + 1074).toNat) with ⟨rfl, hs₂⟩ | ⟨rfl, hs₂⟩ <;>
    rw [hs₁, hs₂]
  · exact .inl ⟨rfl, rfl⟩
  · exact .inr ⟨rfl, by ring⟩
  · exact .inr ⟨rfl, by ring⟩
  · exact .inl ⟨rfl, by ring⟩

/-- A signed integer with an exponent. -/
theorem rounds_normalize (i : Int) (e : Int) :
    Rounds (i * 2 ^ e * one)
      (.ofModel (.pack (UnpackedFloat.normalize Format.binary64 i e .positive))) := by
  unfold UnpackedFloat.normalize
  rcases lt_trichotomy i 0 with hneg | rfl | hpos
  · obtain ⟨n, hn, hunits⟩ := @hasUnits_round .negative (-i).toNat e (by omega)
    rw [Int.compare_eq_lt.mpr hneg]
    refine hunits.rounds_signed hn (mul_nonneg (by positivity) one_cast_pos.le) (.inr ⟨rfl, ?_⟩)
    have hcast : (((-i).toNat : Nat) : ℚ) = -i := by
      exact_mod_cast Int.toNat_of_nonneg (show 0 ≤ -i by omega)
    rw [hcast]
    ring
  · rw [Int.cast_zero, zero_mul, zero_mul]
    exact rounds_zero _
  · obtain ⟨n, hn, hunits⟩ := @hasUnits_round .positive i.toNat e (by omega)
    rw [Int.compare_eq_gt.mpr hpos]
    refine hunits.rounds_signed hn (mul_nonneg (by positivity) one_cast_pos.le) (.inl ⟨rfl, ?_⟩)
    have hcast : ((i.toNat : Nat) : ℚ) = i := by
      exact_mod_cast Int.toNat_of_nonneg hpos.le
    rw [hcast]

/-- A mantissa with a smaller exponent. -/
theorem cast_decreaseExponent (s : UnpackedFloat.Sign) {t : Int} (hle : -1074 ≤ e) (ht : t ≤ e) :
    ((s.apply (decreaseExponent m e t).1 : Int) : ℚ) * 2 ^ t * one =
      (s.apply (m * 2 ^ (e + 1074).toNat : Nat) : Int) := by
  have hvalue : ((m * 2 ^ (e - t).toNat : Nat) : ℚ) * 2 ^ t * one = (m * 2 ^ (e + 1074).toNat : Nat) := by
    have hexp : (2 : ℚ) ^ e = 2 ^ (e - t).toNat * 2 ^ t := by
      rw [← zpow_natCast, ← zpow_add₀ (by norm_num)]
      congr 1
      omega
    rw [cast_units hle, hexp]
    push_cast
    ring
  simp only [decreaseExponent, Nat.shiftLeft_eq]
  cases s
  · simp only [UnpackedFloat.Sign.apply, Int.cast_neg, Int.cast_natCast]
    rw [← hvalue]
    ring
  · simp only [UnpackedFloat.Sign.apply, Int.cast_natCast]
    exact hvalue

theorem rounds_add (hx : x.isFinite = true) (hy : y.isFinite = true) :
    Rounds (units x + units y) (x + y) := by
  show Rounds _ (.ofModel (.pack (UnpackedFloat.add Format.binary64 x.toModel.unpack y.toModel.unpack)))
  rcases finite_cases hx with ⟨hx0, s₁, hu₁⟩ | ⟨s₁, m₁, e₁, hm₁, hu₁, hc₁, hv₁⟩ <;>
    rcases finite_cases hy with ⟨hy0, s₂, hu₂⟩ | ⟨s₂, m₂, e₂, hm₂, hu₂, hc₂, hv₂⟩ <;>
    rw [hu₁, hu₂]
  · rw [hx0, hy0, Int.cast_zero, add_zero]
    simp only [UnpackedFloat.add]
    split <;> exact rounds_zero _
  · rw [hx0, hv₂, Int.cast_zero, zero_add]
    exact rounds_pack hm₂ hc₂
  · rw [hy0, Int.cast_zero, add_zero, hv₁]
    exact rounds_pack hm₁ hc₁
  · have hvalue : ((units x : Int) : ℚ) + (units y : Int) =
        (s₁.apply (decreaseExponent m₁ e₁ (min e₁ e₂)).1 +
          s₂.apply (decreaseExponent m₂ e₂ (min e₁ e₂)).1 : Int) * 2 ^ min e₁ e₂ * one := by
      rw [hv₁, hv₂, ← cast_decreaseExponent s₁ hc₁.le (min_le_left e₁ e₂),
        ← cast_decreaseExponent s₂ hc₂.le (min_le_right e₁ e₂)]
      push_cast
      ring
    rw [hvalue]
    exact rounds_normalize _ _

theorem rounds_sub (hx : x.isFinite = true) (hy : y.isFinite = true) :
    Rounds (units x - units y) (x - y) := by
  show Rounds _ (.ofModel (.pack (UnpackedFloat.sub Format.binary64 x.toModel.unpack y.toModel.unpack)))
  rcases finite_cases hx with ⟨hx0, s₁, hu₁⟩ | ⟨s₁, m₁, e₁, hm₁, hu₁, hc₁, hv₁⟩ <;>
    rcases finite_cases hy with ⟨hy0, s₂, hu₂⟩ | ⟨s₂, m₂, e₂, hm₂, hu₂, hc₂, hv₂⟩ <;>
    rw [hu₁, hu₂]
  · rw [hx0, hy0, Int.cast_zero, sub_zero]
    simp only [UnpackedFloat.sub]
    split <;> exact rounds_zero _
  · rw [hx0, hv₂, Int.cast_zero, zero_sub, ← Int.cast_neg, ← apply_neg]
    exact rounds_pack hm₂ hc₂
  · rw [hy0, Int.cast_zero, sub_zero, hv₁]
    exact rounds_pack hm₁ hc₁
  · have hvalue : ((units x : Int) : ℚ) - (units y : Int) =
        (s₁.apply (decreaseExponent m₁ e₁ (min e₁ e₂)).1 -
          s₂.apply (decreaseExponent m₂ e₂ (min e₁ e₂)).1 : Int) * 2 ^ min e₁ e₂ * one := by
      rw [hv₁, hv₂, ← cast_decreaseExponent s₁ hc₁.le (min_le_left e₁ e₂),
        ← cast_decreaseExponent s₂ hc₂.le (min_le_right e₁ e₂)]
      push_cast
      ring
    rw [hvalue]
    exact rounds_normalize _ _

/-! ## Bounds -/

section Bounds

variable {k : Nat} (hx : Rounds a x)

include hx

/-- A bound on the grid is kept. -/
theorem Rounds.key_le (hm : m ≤ 2 ^ 53) (ha : a ≤ (m * 2 ^ k : Nat)) : key x ≤ (m * 2 ^ k : Nat) := by
  obtain ⟨n, hn, ⟨hnonneg, hkey⟩ | ⟨-, hkey⟩⟩ := hx.key_eq
  · rw [abs_of_nonneg hnonneg] at hn
    have := hn.le_of_le hm ha
    omega
  · omega

theorem Rounds.le_key (hm : m ≤ 2 ^ 53) (ha : -(m * 2 ^ k : Nat) ≤ a) :
    -((m * 2 ^ k : Nat) : Int) ≤ key x := by
  obtain ⟨n, hn, ⟨-, hkey⟩ | ⟨hnonpos, hkey⟩⟩ := hx.key_eq
  · omega
  · rw [abs_of_nonpos hnonpos] at hn
    have := hn.le_of_le hm (by linarith)
    omega

theorem Rounds.key_nonneg (ha : 0 ≤ a) : 0 ≤ key x := by
  have h := hx.le_key (Nat.zero_le (2 ^ 53)) (k := 0) (by simpa using ha)
  simpa using h

theorem Rounds.units_nonneg (hfinite : x.isFinite = true) (ha : 0 ≤ a) : 0 ≤ units x := by
  rw [← key_of_isFinite hfinite]
  exact hx.key_nonneg ha

/-- What is rounded is finite if it is not beyond a bound on the grid. -/
theorem Rounds.finite (hm : m ≤ 2 ^ 53) (hlt : m * 2 ^ k < overflowKey)
    (ha : |a| ≤ (m * 2 ^ k : Nat)) : x.isFinite = true ∧ (units x).natAbs ≤ m * 2 ^ k := by
  obtain ⟨hlow, hhigh⟩ := abs_le.mp ha
  have h1 := hx.key_le hm hhigh
  have h2 := hx.le_key hm hlow
  have hfinite : x.isFinite = true := (isFinite_iff_key hx.defined).mpr ⟨by omega, by omega⟩
  rw [key_of_isFinite hfinite] at h1 h2
  exact ⟨hfinite, by omega⟩

/-- What is rounded is finite if it is less than half a step beyond a finite number of 53 binary digits. -/
theorem Rounds.finite_of_lt_half (hfull : 2 ^ 52 ≤ m) (hm : m < 2 ^ 53) (hlt : m * 2 ^ k < overflowKey)
    (ha : |a| < (m + 1 / 2) * 2 ^ k) : x.isFinite = true ∧ (units x).natAbs ≤ m * 2 ^ k := by
  obtain ⟨n, hn, hkey⟩ := hx.key_eq
  have hle := hn.le_of_lt_half hfull hm ha
  have hfinite : x.isFinite = true := (isFinite_iff_key hx.defined).mpr ⟨by omega, by omega⟩
  rw [key_of_isFinite hfinite] at hkey
  exact ⟨hfinite, by omega⟩

/-- Rounding adds at most half a step. -/
theorem Rounds.key_le_add_half (hnonneg : 0 ≤ a) (ha : a < 2 ^ (53 + k)) : (key x : ℚ) ≤ a + 2 ^ k / 2 := by
  obtain ⟨n, hn, hkey⟩ := hx.key_eq
  rw [abs_of_nonneg hnonneg] at hn
  have hle : key x ≤ n := by omega
  calc (key x : ℚ) ≤ n := by exact_mod_cast hle
    _ ≤ a + 2 ^ k / 2 := hn.le_add_half ha

/-- What is rounded is finite and between two finite numbers if it is between them. -/
theorem Rounds.finite_of_between {low high : Float} (hlow : low.isFinite = true)
    (hhigh : high.isFinite = true) (hle : units low ≤ a) (hge : a ≤ units high) :
    x.isFinite = true ∧ units low ≤ units x ∧ units x ≤ units high := by
  have hbelow := (Rounds.self hlow).key_mono hx hle
  have habove := hx.key_mono (Rounds.self hhigh) hge
  have hlow' := (isFinite_iff_key (not_isNaN_of_isFinite hlow)).mp hlow
  have hhigh' := (isFinite_iff_key (not_isNaN_of_isFinite hhigh)).mp hhigh
  have hfinite : x.isFinite = true := (isFinite_iff_key hx.defined).mpr ⟨by omega, by omega⟩
  rw [key_of_isFinite hlow, key_of_isFinite hfinite] at hbelow
  rw [key_of_isFinite hfinite, key_of_isFinite hhigh] at habove
  exact ⟨hfinite, hbelow, habove⟩

/-- Rounding adds at most half a unit, or one part in `2 ^ 53`. -/
theorem Rounds.natAbs_le_add (hfinite : x.isFinite = true) (ha : |a| ≤ b) :
    ((units x).natAbs : ℚ) ≤ b + b / 2 ^ 53 + 1 / 2 := by
  have hnonneg : 0 ≤ b := (abs_nonneg a).trans ha
  obtain ⟨m, hm⟩ := exists_roundsUnits hnonneg
  obtain ⟨n, hn, hkey⟩ := hx.key_eq
  rw [key_of_isFinite hfinite] at hkey
  have hle := hn.mono hm ha
  have habs : (units x).natAbs ≤ m := by omega
  calc ((units x).natAbs : ℚ) ≤ m := by exact_mod_cast habs
    _ ≤ b + b / 2 ^ 53 + 1 / 2 := hm.le_add hnonneg

theorem Rounds.units_le_add (hfinite : x.isFinite = true) (ha : 0 ≤ a) :
    (units x : ℚ) ≤ a + a / 2 ^ 53 + 1 / 2 := by
  have h := hx.natAbs_le_add hfinite (abs_of_nonneg ha).le
  rwa [Nat.cast_natAbs, Int.cast_abs, abs_of_nonneg (by exact_mod_cast hx.units_nonneg hfinite ha)] at h

end Bounds

/-- A number of units on the grid is kept. -/
theorem Rounds.exact {i : Int} {k : Nat} (hx : Rounds i x) (hm : m ≤ 2 ^ 53)
    (hlt : m * 2 ^ k < overflowKey) (hi : i.natAbs = m * 2 ^ k) : x.isFinite = true ∧ units x = i := by
  have habs : |(i : ℚ)| = (m * 2 ^ k : Nat) := by rw [← hi, Nat.cast_natAbs, Int.cast_abs]
  have hfinite := (hx.finite hm hlt habs.le).1
  obtain ⟨n, hn, hkey⟩ := hx.key_eq
  rw [habs] at hn
  obtain rfl := hn.unique (.self hm k)
  rw [key_of_isFinite hfinite, Nat.min_eq_left hlt.le, ← hi, Int.cast_nonneg_iff,
    Int.cast_nonpos] at hkey
  exact ⟨hfinite, by omega⟩

/-- Zero is kept. -/
theorem Rounds.of_zero (hx : Rounds 0 x) : x.isFinite = true ∧ units x = 0 := by
  rw [← Int.cast_zero] at hx
  exact hx.exact (Nat.zero_le (2 ^ 53)) (k := 0) (by rw [Nat.zero_mul]; exact overflowKey_pos) rfl

/-- The size of a finite number is on the grid. -/
theorem exists_grid (hx : x.isFinite = true) :
    ∃ m k, m ≤ 2 ^ 53 ∧ m * 2 ^ k < overflowKey ∧ (units x).natAbs = m * 2 ^ k := by
  rw [natAbs_units]
  rcases unpack_finite hx with ⟨hzero, -⟩ | ⟨m, e, hm, -, hc, he, hmag⟩
  · exact ⟨0, 0, Nat.zero_le _, by rw [Nat.zero_mul]; exact overflowKey_pos, hzero⟩
  · exact ⟨m, _, hc.lt.le, units_lt_overflowKey hc he, hmag⟩

/-- What is rounded is finite if it is not beyond a finite number. -/
theorem Rounds.finite_of_le (hx : Rounds a x) (hy : y.isFinite = true)
    (ha : |a| ≤ (units y).natAbs) : x.isFinite = true ∧ (units x).natAbs ≤ (units y).natAbs := by
  obtain ⟨m, k, hm, hlt, hunits⟩ := exists_grid hy
  rw [hunits] at ha ⊢
  exact hx.finite hm hlt ha

theorem units_neg (hx : x.isFinite = true) : (-x).isFinite = true ∧ units (-x) = -units x := by
  obtain ⟨m, k, hm, hlt, hunits⟩ := exists_grid hx
  have hrounds : Rounds ((-units x : Int) : ℚ) (-x) := by
    show Rounds _ (.ofModel (.pack (UnpackedFloat.neg x.toModel.unpack)))
    rcases finite_cases hx with ⟨hx0, s, hu⟩ | ⟨s, m, e, hm, hu, hc, hv⟩
    · rw [hx0, hu, neg_zero, Int.cast_zero]
      exact rounds_zero _
    · rw [hv, hu, ← apply_neg]
      exact rounds_pack hm hc
  exact hrounds.exact hm hlt (by rw [Int.natAbs_neg, hunits])

theorem units_abs (hx : x.isFinite = true) :
    x.abs.isFinite = true ∧ units x.abs = (units x).natAbs := by
  obtain ⟨m, k, hm, hlt, hunits⟩ := exists_grid hx
  have hrounds : Rounds (((units x).natAbs : Int) : ℚ) x.abs := by
    show Rounds _ (.ofModel (.pack (UnpackedFloat.abs x.toModel.unpack)))
    rcases finite_cases hx with ⟨hx0, s, hu⟩ | ⟨s, m, e, hm, hu, hc, hv⟩
    · rw [hx0, hu, Int.natAbs_zero, Nat.cast_zero, Int.cast_zero]
      exact rounds_zero _
    · have habs : ((units x).natAbs : Int) =
          UnpackedFloat.Sign.positive.apply (m * 2 ^ (e + 1074).toNat : Nat) := by
        rw [hv]
        cases s
        · exact congrArg _ (Int.natAbs_neg _)
        · rfl
      rw [habs, hu]
      exact rounds_pack hm hc
  exact hrounds.exact hm hlt (by rw [Int.natAbs_natCast, hunits])

/-- Rounding at most doubles an integer. -/
theorem Rounds.natAbs_le_two_mul (hx : Rounds a x) (hfinite : x.isFinite = true) (ha : |a| ≤ n) :
    (units x).natAbs ≤ 2 * n := by
  have h := hx.natAbs_le_add hfinite ha
  rcases Nat.eq_zero_or_pos n with rfl | hpos
  · have hlt : ((units x).natAbs : ℚ) < (1 : Nat) := by
      rw [Nat.cast_zero, zero_div] at h
      push_cast
      linarith
    have := Nat.cast_lt.mp hlt
    omega
  · have hone : (1 : ℚ) ≤ n := by exact_mod_cast hpos
    have hle : ((units x).natAbs : ℚ) ≤ (2 * n : Nat) := by
      push_cast
      linarith
    exact Nat.cast_le.mp hle

end RangeCalc.Binary64
