import RangeCalc.Number.Rounding
import RangeCalc.Proofs.Number.Error
import RangeCalc.Proofs.Number.Signed

/-!
# Rounding to integers

`roundHalfAway` adds a half to the size of a number and takes the integer below the sum. The sum is rounded, so
the argument is about the grid of numbers: unless the number is the one below one half, the rounded sum has the
same integer below it as the exact sum (`RoundsUnits.div_one`). Numbers in steps of at least one never reach the
sum, as they are returned as they are (`roundHalfAway_of_large`).

* `roundHalfAway_nearest`: what rounding gives for every finite number.
-/

namespace RangeCalc.Binary64

variable {m k n p u v : Nat}

/-! ## Half a step on the grid -/

/-- A number of the grid that is not below a power of two is a multiple of the step there. -/
theorem two_pow_dvd_of_le {j : Nat} (hm : m ≤ 2 ^ 53) (h : 2 ^ (52 + j) ≤ m * 2 ^ k) :
    2 ^ j ∣ m * 2 ^ k := by
  rcases Nat.lt_or_ge k j with hlt | hge
  · have hle : 2 ^ (52 + j) ≤ 2 ^ (53 + k) := by
      rw [Nat.pow_add 2 53 k]
      exact h.trans (Nat.mul_le_mul_right _ hm)
    have hj : j = k + 1 := by
      have := (Nat.pow_le_pow_iff_right (by decide : 1 < 2)).mp hle
      omega
    subst hj
    have hfull : m * 2 ^ k = 2 ^ (52 + (k + 1)) := by
      refine Nat.le_antisymm ?_ h
      rw [show 52 + (k + 1) = 53 + k by omega, Nat.pow_add]
      exact Nat.mul_le_mul_right _ hm
    rw [hfull]
    exact pow_dvd_pow 2 (by omega)
  · exact Dvd.dvd.mul_left (pow_dvd_pow 2 hge) m

/-- An integer above one is one step of the grid above a number with 53 bits. -/
theorem exists_step_below (hp : 2 ≤ p) (hp' : p ≤ 2 ^ 52 + 1) (hu : 51 ≤ u) :
    ∃ i j M, u + i = j + 51 ∧ i ≤ 52 ∧ 2 ^ i < p ∧ 2 ^ 52 ≤ M ∧ M < 2 ^ 53 ∧
      p * 2 ^ (u + 1) = (M + 1) * 2 ^ j := by
  obtain ⟨i, hi⟩ : ∃ i, (p - 1).log2 = i := ⟨_, rfl⟩
  have hlow : 2 ^ i ≤ p - 1 := hi ▸ Nat.log2_self_le (by omega)
  have hhigh : p - 1 < 2 ^ (i + 1) := hi ▸ Nat.lt_log2_self
  have hi52 : i ≤ 52 := by
    refine (Nat.pow_le_pow_iff_right (by decide : 1 < 2)).mp (hlow.trans ?_)
    omega
  obtain ⟨j, hj⟩ : ∃ j, u + i = j + 51 := ⟨u + i - 51, by omega⟩
  have hpow : 2 ^ (52 - i) * 2 ^ j = 2 ^ (u + 1) := by
    rw [← Nat.pow_add]
    congr 1
    omega
  obtain ⟨M, hM⟩ : ∃ M, p * 2 ^ (52 - i) = M + 1 := ⟨p * 2 ^ (52 - i) - 1, by
    have := Nat.mul_pos (show 0 < p by omega) (Nat.two_pow_pos (52 - i))
    omega⟩
  refine ⟨i, j, M, hj, hi52, by omega, ?_, ?_, by rw [← hpow, ← Nat.mul_assoc, hM]⟩
  · have h : (2 ^ i + 1) * 2 ^ (52 - i) ≤ M + 1 := hM ▸ Nat.mul_le_mul_right _ (by omega)
    rw [Nat.add_mul, ← Nat.pow_add, show i + (52 - i) = 52 by omega] at h
    have := Nat.two_pow_pos (52 - i)
    omega
  · have h : M + 1 ≤ 2 ^ (i + 1) * 2 ^ (52 - i) := hM ▸ Nat.mul_le_mul_right _ (by omega)
    rw [← Nat.pow_add, show i + 1 + (52 - i) = 53 by omega] at h
    omega

/-- A number of the grid with a half added is not rounded up to an integer above one. -/
theorem RoundsUnits.lt_of_add_half (hm : m ≤ 2 ^ 53) (hu : 51 ≤ u) (hsmall : m * 2 ^ k < 2 ^ (53 + u))
    (hp : 2 ≤ p) (hp' : p ≤ 2 ^ 52 + 1) (hlt : m * 2 ^ k + 2 ^ u < p * 2 ^ (u + 1))
    (hv : RoundsUnits (m * 2 ^ k + 2 ^ u : Nat) v) : v < p * 2 ^ (u + 1) := by
  obtain ⟨i, j, M, hj, hi, hlow, hfull, hM, hn⟩ := exists_step_below hp hp' hu
  obtain ⟨w, hw⟩ : ∃ w, m * 2 ^ k = w := ⟨_, rfl⟩
  have hdouble : 2 ^ (u + 1) = 2 * 2 ^ u := by rw [Nat.pow_succ, Nat.mul_comm]
  by_cases hnear : 2 * (w + 2 ^ u) < (2 * M + 1) * 2 ^ j
  · have ha : ((w + 2 ^ u : Nat) : ℚ) < (M + 1 / 2) * 2 ^ j := by
      have h : (2 : ℚ) * (w + 2 ^ u : Nat) < (2 * M + 1) * 2 ^ j := by exact_mod_cast hnear
      linarith
    have hle := RoundsUnits.le_of_lt_half (hw ▸ hv) hfull hM ha
    rw [hn, Nat.add_mul]
    have := Nat.two_pow_pos j
    omega
  exfalso
  rw [hw] at hlt hsmall
  by_cases hle : 2 ^ (52 + j) ≤ w
  · -- both summands are multiples of the step
    have hju : j ≤ u := by
      have := (Nat.pow_lt_pow_iff_right (by decide : 1 < 2)).mp (hle.trans_lt hsmall)
      omega
    obtain ⟨a, ha⟩ : 2 ^ j ∣ w + 2 ^ u := by
      refine Nat.dvd_add ?_ (pow_dvd_pow 2 hju)
      rw [← hw] at hle ⊢
      exact two_pow_dvd_of_le hm hle
    rw [ha, hn, Nat.mul_comm] at hlt
    rw [ha, ← Nat.mul_assoc, Nat.mul_right_comm] at hnear
    have h1 := Nat.lt_of_mul_lt_mul_right hlt
    have h2 := Nat.le_of_mul_le_mul_right (not_lt.mp hnear) (Nat.two_pow_pos j)
    omega
  · -- the integer is at least one above that power of two
    have hstep : 2 ^ j ≤ 2 ^ (u + 1) := Nat.pow_le_pow_right (by decide) (by omega)
    have hmul : (2 ^ i + 1) * 2 ^ (u + 1) ≤ (M + 1) * 2 ^ j := hn ▸ Nat.mul_le_mul_right _ hlow
    rw [Nat.add_mul, ← Nat.pow_add, show i + (u + 1) = 52 + j by omega, Nat.one_mul, Nat.add_mul,
      Nat.one_mul] at hmul
    rw [Nat.add_mul, Nat.one_mul, Nat.mul_assoc] at hnear
    omega

/-- If a number of the grid and `a` steps are below `b` steps, so many that the grid has no smaller step there, they
are at least one step below. -/
theorem add_step_le {a b s : Nat} (hm : m ≤ 2 ^ 53) (hlt : m * 2 ^ k + a * 2 ^ s < b * 2 ^ s)
    (hb : 2 ^ 52 + a < b) : m * 2 ^ k + (a + 1) * 2 ^ s ≤ b * 2 ^ s := by
  rcases Nat.lt_or_ge (m * 2 ^ k) (2 ^ (52 + s)) with hsmall | hlarge
  · calc m * 2 ^ k + (a + 1) * 2 ^ s ≤ 2 ^ 52 * 2 ^ s + (a + 1) * 2 ^ s := by
          rw [← Nat.pow_add]
          exact Nat.add_le_add_right hsmall.le _
      _ = (2 ^ 52 + (a + 1)) * 2 ^ s := (Nat.add_mul ..).symm
      _ ≤ b * 2 ^ s := Nat.mul_le_mul_right _ hb
  · obtain ⟨c, hc⟩ := two_pow_dvd_of_le hm hlarge
    rw [hc, Nat.mul_comm (2 ^ s) c, ← Nat.add_mul] at hlt ⊢
    have := Nat.lt_of_mul_lt_mul_right hlt
    exact Nat.mul_le_mul_right _ (by omega)

/-- A number of the grid below a half and not next to it gives something below one if a half is added. -/
theorem RoundsUnits.lt_one_of_add_half {s : Nat} (hm : m ≤ 2 ^ 53) (hlt : m * 2 ^ k + 2 ^ s < 2 ^ (53 + s))
    (hv : RoundsUnits (m * 2 ^ k + 2 ^ (53 + s) : Nat) v) : v < 2 ^ (54 + s) := by
  rw [Nat.pow_add] at hlt hv ⊢
  have hgap := @add_step_le m k 1 (2 ^ 53) s hm (by rwa [Nat.one_mul]) (by decide)
  have hle : m * 2 ^ k + 2 ^ 53 * 2 ^ s ≤ (2 ^ 53 - 1) * 2 ^ (s + 1) := by
    rw [Nat.pow_succ]
    omega
  have hv' := hv.le_of_le (by decide) (Nat.cast_le.mpr hle)
  have := Nat.two_pow_pos s
  rw [Nat.pow_succ] at hv'
  omega

/-! ## The integer below a sum -/

/-- How many units make up one half. -/
def half : Nat := twoTo 1073

/-- The greatest number below one half. -/
def belowHalf : Float := 0.49999999999999994

/-- One half and one are powers of two; the exponent is a variable so that they are not evaluated. -/
theorem exists_half_eq : ∃ s, s = 1020 ∧ half = 2 ^ (53 + s) ∧ one = 2 ^ (54 + s) ∧
    magnitude belowHalf + 2 ^ s = half := by
  have hhalf : half = twoTo (53 + 1020) := rfl
  have hone : one = twoTo (54 + 1020) := rfl
  have hbelow : magnitude belowHalf + twoTo 1020 = half := by decide
  exact ⟨1020, rfl, by rw [hhalf, twoTo_eq], by rw [hone, twoTo_eq], by rw [← hbelow, twoTo_eq]⟩

theorem two_mul_half : 2 * half = one := by
  obtain ⟨s, -, hhalf, hone, -⟩ := exists_half_eq
  rw [hhalf, hone, show 54 + s = 53 + s + 1 by omega, Nat.pow_succ, Nat.mul_comm]

/-- If a half is added to a number of the grid and the sum is rounded, the integer below it stays the same,
unless the number is the one below one half. -/
theorem RoundsUnits.div_one (hm : m ≤ 2 ^ 53) (hsmall : m * 2 ^ k < 2 ^ 52 * one)
    (hne : m * 2 ^ k ≠ magnitude belowHalf) (hv : RoundsUnits (m * 2 ^ k + half : Nat) v) :
    v / one = (m * 2 ^ k + half) / one := by
  obtain ⟨s, hs, hhalf, hone, hbelow⟩ := exists_half_eq
  have hdouble : 2 ^ (54 + s) = 2 * 2 ^ (53 + s) := by rw [← hone, ← hhalf, two_mul_half]
  have hpos := Nat.two_pow_pos (54 + s)
  rw [hhalf] at hv hbelow
  rw [hone] at hsmall
  rw [hhalf, hone]
  obtain ⟨q, hq⟩ : ∃ q, (m * 2 ^ k + 2 ^ (53 + s)) / 2 ^ (54 + s) = q := ⟨_, rfl⟩
  have hlow : q * 2 ^ (54 + s) ≤ m * 2 ^ k + 2 ^ (53 + s) := hq ▸ Nat.div_mul_le_self _ _
  have hhigh : m * 2 ^ k + 2 ^ (53 + s) < (q + 1) * 2 ^ (54 + s) := by
    rw [← hq, Nat.mul_comm _ (2 ^ (54 + s))]
    exact Nat.lt_mul_div_succ _ hpos
  have hq52 : q ≤ 2 ^ 52 := by
    have h : q * 2 ^ (54 + s) < (2 ^ 52 + 1) * 2 ^ (54 + s) := by
      rw [Nat.add_mul]
      omega
    exact Nat.le_of_lt_succ (Nat.lt_of_mul_lt_mul_right h)
  rw [hq]
  refine Nat.div_eq_of_lt_le ?_ ?_
  · exact (RoundsUnits.self (by omega) _).mono hv (Nat.cast_le.mpr hlow)
  rcases Nat.eq_zero_or_pos q with rfl | hqpos
  · rw [Nat.zero_add, Nat.one_mul] at hhigh ⊢
    have hgap := @add_step_le m k 0 (2 ^ 53) s hm (by rw [← Nat.pow_add]; omega) (by decide)
    rw [← Nat.pow_add, Nat.zero_add, Nat.one_mul] at hgap
    exact hv.lt_one_of_add_half hm (by omega)
  · rw [← Nat.pow_add, show 52 + (54 + s) = 53 + (53 + s) by omega] at hsmall
    rw [show 54 + s = 53 + s + 1 by omega] at hhigh ⊢
    exact hv.lt_of_add_half hm (by omega) hsmall (by omega) (by omega) hhigh

/-! ## Rounding of numbers -/

section

variable {x y : Float}

/-- What the exact value of a number is rounded to. -/
theorem Rounds.eq_of_units {i : Int} (hx : Rounds i x) (hy : y.isFinite = true) (hi : units y = i) :
    x.isFinite = true ∧ units x = i := by
  obtain ⟨hfinite, hle, hge⟩ := hx.finite_of_between hy hy (by rw [hi]) (by rw [hi])
  exact ⟨hfinite, by omega⟩

/-- A number times one is as large as the number. -/
theorem mul_one_units (hx : x.isFinite = true) : (x * 1).isFinite = true ∧ units (x * 1) = units x := by
  obtain ⟨hfinite, hunits⟩ : (1 : Float).isFinite = true ∧ units 1 = one := by decide
  have h := rounds_mul hx hfinite
  rw [hunits, Int.cast_natCast, mul_div_assoc, div_self one_cast_pos.ne', mul_one] at h
  exact h.eq_of_units hx rfl

/-- A number divided by one is as large as the number. -/
theorem div_one_units (hx : x.isFinite = true) : (x / 1).isFinite = true ∧ units (x / 1) = units x := by
  obtain ⟨hfinite, hunits⟩ : (1 : Float).isFinite = true ∧ units 1 = one := by decide
  have hpos := one_pos
  have h := rounds_div hx hfinite (by omega)
  rw [hunits, Int.cast_natCast, div_mul_cancel₀ _ one_cast_pos.ne'] at h
  exact h.eq_of_units hx rfl

theorem integersFrom_le_iff (hx : x.isFinite = true) :
    integersFrom ≤ x.abs * 1 ↔ 2 ^ 52 * one ≤ magnitude x := by
  obtain ⟨hfinite, hunits⟩ : integersFrom.isFinite = true ∧ units integersFrom = (2 ^ 52 * one : Nat) := by
    decide
  obtain ⟨habs, hsize⟩ := units_abs hx
  obtain ⟨hscaled, hscaledUnits⟩ := mul_one_units habs
  rw [le_iff_units hfinite hscaled, hunits, hscaledUnits, hsize, natAbs_units, Int.ofNat_le]

/-- The size of a finite number is on the grid. -/
theorem exists_grid_magnitude (hx : x.isFinite = true) : ∃ m k, m ≤ 2 ^ 53 ∧ magnitude x = m * 2 ^ k := by
  obtain ⟨m, k, hm, -, hunits⟩ := exists_grid hx
  exact ⟨m, k, hm, by rw [← natAbs_units, hunits]⟩

/-- A number below `2 ^ 52` is at least a half below it. -/
theorem magnitude_add_half_le (hx : x.isFinite = true) (hsmall : magnitude x < 2 ^ 52 * one) :
    magnitude x + half ≤ 2 ^ 52 * one := by
  obtain ⟨s, -, hhalf, -, -⟩ := exists_half_eq
  obtain ⟨m, k, hm, hsize⟩ := exists_grid_magnitude hx
  rw [← two_mul_half, hhalf, ← Nat.mul_assoc] at hsmall ⊢
  rw [hsize] at hsmall ⊢
  have hgap := @add_step_le m k 0 (2 ^ 53) (53 + s) hm (by rwa [Nat.zero_mul]) (by decide)
  rwa [Nat.zero_add, Nat.one_mul] at hgap

/-- The numbers with the size of the one below one half are this number and its opposite. -/
theorem abs_eq_belowHalf_iff (hx : x.isFinite = true) :
    x.abs = belowHalf ↔ magnitude x = magnitude belowHalf := by
  obtain ⟨hfinite, hpositive⟩ : belowHalf.isFinite = true ∧ isNegative belowHalf = false := by decide
  have hsign : signOf belowHalf = .positive := by rw [signOf, hpositive]; rfl
  constructor
  · intro h
    rw [← h, magnitude_abs hx]
  · intro h
    exact eq_of_sign (units_abs hx).1 hfinite (by rw [signOf_abs hx, hsign]) (by rw [magnitude_abs hx, h])

variable [MathLibrary]

theorem roundHalfAway_zero (hx : x.isFinite = true) :
    roundHalfAway x 0 = if integersFrom ≤ x.abs * 1 then x
      else withSignOf (ofInt (floorInt (x.abs * 1 + 0.5)) / 1) x := by
  have hplaces : (ofInt 0).isInf = false ∧ (ofInt 0 == 0) = true ∧ ((1 : Float) == 0) = false := by
    decide
  simp only [roundHalfAway, power?, hx, hplaces, Bool.not_true, Bool.false_eq_true, if_false, if_true]

/-- A number without a fractional part stays as it is. -/
theorem roundHalfAway_of_large (hx : x.isFinite = true) (hlarge : 2 ^ 52 * one ≤ magnitude x) :
    roundHalfAway x 0 = x := by
  rw [roundHalfAway_zero hx, if_pos ((integersFrom_le_iff hx).mpr hlarge)]

/-- Any other number keeps its sign, and its size is that of the integer below the rounded sum with a half. -/
theorem roundHalfAway_of_small (hx : x.isFinite = true) (hsmall : magnitude x < 2 ^ 52 * one) :
    ∃ v, RoundsUnits (magnitude x + half : Nat) v ∧ (roundHalfAway x 0).isFinite = true ∧
      signOf (roundHalfAway x 0) = signOf x ∧ magnitude (roundHalfAway x 0) = v / one * one := by
  obtain ⟨hhalf, hhalfUnits⟩ : (0.5 : Float).isFinite = true ∧ units 0.5 = half := by decide
  obtain ⟨k, hk, hone⟩ := exists_one_eq
  obtain ⟨habs, hsize⟩ := units_abs hx
  obtain ⟨hscaled, hscaledUnits⟩ := mul_one_units habs
  have hsum := rounds_add hscaled hhalf
  rw [hscaledUnits, hhalfUnits, hsize, natAbs_units, ← Int.cast_add, ← Nat.cast_add, Int.cast_natCast] at hsum
  have hle : |((magnitude x + half : Nat) : ℚ)| ≤ (2 ^ 53 * 2 ^ k : Nat) := by
    rw [Nat.abs_cast, Nat.cast_le, ← hone]
    have := two_mul_half
    omega
  have hlt : 2 ^ 53 * 2 ^ k < overflowKey := by
    rw [← Nat.pow_add]
    exact two_pow_lt_overflowKey (by omega)
  obtain ⟨hfinite, hbound⟩ := hsum.finite le_rfl hlt hle
  obtain ⟨v, hv, hsign⟩ := hsum.units_eq hfinite
  have hunits : units (x.abs * 1 + 0.5) = v := by
    rcases hsign with ⟨-, h⟩ | ⟨hneg, -⟩
    · exact h
    · have hpos : 0 < magnitude x + half := Nat.add_pos_right _ (twoTo_pos 1073)
      exact absurd (Nat.cast_pos.mpr hpos) (not_lt.mpr hneg)
  rw [hunits, Int.natAbs_natCast, ← hone] at hbound
  have hfloor : floorInt (x.abs * 1 + 0.5) = (v / one : Nat) := by
    rw [floorInt, hunits]
    rfl
  obtain ⟨hinteger, hintegerUnits⟩ := units_ofInt (n := (v / one : Nat))
    (Nat.div_le_of_le_mul (by rwa [Nat.mul_comm]))
  obtain ⟨hquotient, hquotientUnits⟩ := div_one_units hinteger
  have hresult : roundHalfAway x 0 = withSignOf (ofInt (v / one : Nat) / 1) x := by
    rw [roundHalfAway_zero hx, if_neg (mt (integersFrom_le_iff hx).mp (not_le.mpr hsmall)), hfloor]
  obtain ⟨hfields, hfieldsSign, hfieldsSize⟩ := fields_withSignOf hquotient x
  rw [hresult]
  refine ⟨v, by rwa [Nat.abs_cast] at hv, hfields, hfieldsSign, ?_⟩
  rw [hfieldsSize, ← natAbs_units, hquotientUnits, hintegerUnits, ← Nat.cast_mul, Int.natAbs_natCast]

/-- The result is an integer with the sign of the number. -/
theorem roundHalfAway_integer (hx : x.isFinite = true) :
    (roundHalfAway x 0).isFinite = true ∧ signOf (roundHalfAway x 0) = signOf x ∧
      ∃ n, magnitude (roundHalfAway x 0) = n * one := by
  rcases Nat.lt_or_ge (magnitude x) (2 ^ 52 * one) with hsmall | hlarge
  · obtain ⟨v, -, hfinite, hsign, hsize⟩ := roundHalfAway_of_small hx hsmall
    exact ⟨hfinite, hsign, _, hsize⟩
  · rw [roundHalfAway_of_large hx hlarge]
    obtain ⟨m, k, hm, hsize⟩ := exists_grid_magnitude hx
    obtain ⟨l, -, hone⟩ := exists_one_eq
    rw [hone, hsize, ← Nat.pow_add] at hlarge
    obtain ⟨n, hn⟩ := two_pow_dvd_of_le hm hlarge
    exact ⟨hx, rfl, n, by rw [hsize, hn, hone, Nat.mul_comm]⟩

/-- The size of the result is less than a half below that of the number, and at most a half above it. -/
theorem magnitude_roundHalfAway_near (hx : x.isFinite = true) (hne : magnitude x ≠ magnitude belowHalf) :
    magnitude (roundHalfAway x 0) ≤ magnitude x + half ∧
      magnitude x < magnitude (roundHalfAway x 0) + half := by
  have htwo := two_mul_half
  have hpos := one_pos
  rcases Nat.lt_or_ge (magnitude x) (2 ^ 52 * one) with hsmall | hlarge
  · obtain ⟨v, hv, -, -, hsize⟩ := roundHalfAway_of_small hx hsmall
    obtain ⟨m, k, hm, hgrid⟩ := exists_grid_magnitude hx
    rw [hsize]
    rw [hgrid] at hv hsmall hne ⊢
    rw [hv.div_one hm hsmall hne]
    have hlow := Nat.div_mul_le_self (m * 2 ^ k + half) one
    have hhigh := Nat.lt_div_mul_add (a := m * 2 ^ k + half) hpos
    omega
  · rw [roundHalfAway_of_large hx hlarge]
    omega

/-- A number that is not larger gives a result that is not larger. -/
theorem magnitude_roundHalfAway_mono (hx : x.isFinite = true) (hy : y.isFinite = true)
    (h : magnitude x ≤ magnitude y) : magnitude (roundHalfAway x 0) ≤ magnitude (roundHalfAway y 0) := by
  rcases Nat.lt_or_ge (magnitude x) (2 ^ 52 * one) with hxsmall | hxlarge
  · obtain ⟨v, hv, -, -, hxsize⟩ := roundHalfAway_of_small hx hxsmall
    rw [hxsize]
    rcases Nat.lt_or_ge (magnitude y) (2 ^ 52 * one) with hysmall | hylarge
    · obtain ⟨w, hw, -, -, hysize⟩ := roundHalfAway_of_small hy hysmall
      rw [hysize]
      have hvw := hv.mono hw (Nat.cast_le.mpr (Nat.add_le_add_right h half))
      exact Nat.mul_le_mul_right _ (Nat.div_le_div_right hvw)
    · rw [roundHalfAway_of_large hy hylarge]
      have hv52 : v ≤ 2 ^ 52 * one := by
        obtain ⟨k, -, hone⟩ := exists_one_eq
        have hle := Nat.cast_le (α := ℚ).mpr (magnitude_add_half_le hx hxsmall)
        rw [hone] at hle ⊢
        exact hv.le_of_le (by decide) hle
      exact ((Nat.div_mul_le_self v one).trans hv52).trans hylarge
  · rw [roundHalfAway_of_large hx hxlarge, roundHalfAway_of_large hy (hxlarge.trans h)]
    exact h

/-- The number below one half is rounded to one: with a half added it is not below one any more. -/
theorem units_roundHalfAway_belowHalf : units (roundHalfAway belowHalf 0) = one := by
  rw [roundHalfAway_zero (by decide)]
  decide +kernel

theorem magnitude_roundHalfAway_belowHalf (hx : x.isFinite = true)
    (hsize : magnitude x = magnitude belowHalf) : magnitude (roundHalfAway x 0) = one := by
  have hfinite : belowHalf.isFinite = true := by decide
  have hone : magnitude (roundHalfAway belowHalf 0) = one := by
    rw [← natAbs_units, units_roundHalfAway_belowHalf, Int.natAbs_natCast]
  rw [← hone]
  exact Nat.le_antisymm (magnitude_roundHalfAway_mono hx hfinite hsize.le)
    (magnitude_roundHalfAway_mono hfinite hx hsize.ge)

/-- The opposite number gives the opposite result. -/
theorem roundHalfAway_neg (hx : x.isFinite = true) : roundHalfAway (-x) 0 = -roundHalfAway x 0 := by
  obtain ⟨hneg, -⟩ := units_neg hx
  obtain ⟨hfinite, hsign, -⟩ := roundHalfAway_integer hx
  obtain ⟨hfinite', hsign', -⟩ := roundHalfAway_integer hneg
  have hsize := magnitude_neg hx
  refine eq_of_sign hfinite' (units_neg hfinite).1 ?_ ?_
  · rw [hsign', signOf_neg hx, signOf_neg hfinite, hsign]
  · rw [magnitude_neg hfinite]
    exact Nat.le_antisymm (magnitude_roundHalfAway_mono hneg hx hsize.le)
      (magnitude_roundHalfAway_mono hx hneg hsize.ge)

/-- Zero is rounded to zero. -/
theorem magnitude_roundHalfAway_eq_zero (hx : x.isFinite = true) (h : magnitude x = 0) :
    magnitude (roundHalfAway x 0) = 0 := by
  have hbelow : magnitude belowHalf ≠ 0 := by decide
  have htwo := two_mul_half
  have hpos := one_pos
  obtain ⟨-, -, n, hn⟩ := roundHalfAway_integer hx
  obtain ⟨hle, -⟩ := magnitude_roundHalfAway_near hx (by rw [h]; exact hbelow.symm)
  rw [h, hn] at hle
  have hlt : n * one < 1 * one := by omega
  rw [hn, Nat.lt_one_iff.mp (Nat.lt_of_mul_lt_mul_right hlt), Nat.zero_mul]

/-- Rounding keeps the order of the numbers. -/
theorem roundHalfAway_mono (hx : x.isFinite = true) (hy : y.isFinite = true) (h : x ≤ y) :
    roundHalfAway x 0 ≤ roundHalfAway y 0 := by
  obtain ⟨hrx, hsignx, -⟩ := roundHalfAway_integer hx
  obtain ⟨hry, hsigny, -⟩ := roundHalfAway_integer hy
  rw [le_iff_units hx hy, units_eq_apply x, units_eq_apply y] at h
  rw [le_iff_units hrx hry, units_eq_apply (roundHalfAway x 0), units_eq_apply (roundHalfAway y 0), hsignx,
    hsigny]
  cases hsx : signOf x <;> cases hsy : signOf y <;> rw [hsx, hsy] at h
  case negative.negative =>
    have hsize := Int.ofNat_le.mp (Int.le_of_neg_le_neg h)
    exact Int.neg_le_neg (Int.ofNat_le.mpr (magnitude_roundHalfAway_mono hy hx hsize))
  case negative.positive =>
    exact (Int.neg_nonpos_of_nonneg (Int.natCast_nonneg _)).trans (Int.natCast_nonneg _)
  case positive.negative =>
    change (magnitude x : Int) ≤ -(magnitude y : Int) at h
    rw [magnitude_roundHalfAway_eq_zero hx (by omega), magnitude_roundHalfAway_eq_zero hy (by omega)]
    rfl
  case positive.positive =>
    exact Int.ofNat_le.mpr (magnitude_roundHalfAway_mono hx hy (Int.ofNat_le.mp h))

/-- Rounding to an integer gives a nearest integer, and of two of them the one that is farther from zero. Of all
finite numbers only the one below one half and its opposite are rounded to an integer that is not nearest: the
sum with a half is rounded up to one before the integer below it is taken. Opposite numbers have opposite
results, and the results are in the order of the numbers. -/
theorem roundHalfAway_nearest (hx : x.isFinite = true) :
    (roundHalfAway x 0).isFinite = true ∧ isInteger (roundHalfAway x 0) = true ∧
      (x.abs ≠ belowHalf → 2 * |units (roundHalfAway x 0) - units x| ≤ one) ∧
      (2 * |units (roundHalfAway x 0) - units x| = one → |units x| < |units (roundHalfAway x 0)|) ∧
      (x.abs = belowHalf → |units (roundHalfAway x 0)| = one) ∧
      roundHalfAway (-x) 0 = -roundHalfAway x 0 ∧
      ∀ y : Float, y.isFinite = true → x ≤ y → roundHalfAway x 0 ≤ roundHalfAway y 0 := by
  obtain ⟨hfinite, hsign, n, hinteger⟩ := roundHalfAway_integer hx
  have htwo := two_mul_half
  have hdistance := abs_units_sub hsign
  have hsize : |units x| = magnitude x := by rw [Int.abs_eq_natAbs, natAbs_units]
  have hresultSize : |units (roundHalfAway x 0)| = magnitude (roundHalfAway x 0) := by
    rw [Int.abs_eq_natAbs, natAbs_units]
  rw [abs_eq_belowHalf_iff hx, Ne, abs_eq_belowHalf_iff hx, hdistance, hsize, hresultSize, abs_eq_max_neg]
  refine ⟨hfinite, ?_, ?nearest, ?tie, ?belowHalf, roundHalfAway_neg hx, fun y hy => roundHalfAway_mono hx hy⟩
  · rw [isInteger, hinteger, Nat.mul_mod_left]
    rfl
  case nearest =>
    intro hne
    obtain ⟨hle, hlt⟩ := magnitude_roundHalfAway_near hx hne
    rw [← htwo]
    omega
  case tie =>
    intro htie
    rcases eq_or_ne (magnitude x) (magnitude belowHalf) with heq | hne
    · -- this number is less than a half away from zero, so more than a half away from one
      obtain ⟨s, -, -, -, hbelow⟩ := exists_half_eq
      have hpos := Nat.two_pow_pos s
      rw [magnitude_roundHalfAway_belowHalf hx heq, heq] at htie
      omega
    · obtain ⟨hle, hlt⟩ := magnitude_roundHalfAway_near hx hne
      omega
  case belowHalf =>
    intro heq
    rw [magnitude_roundHalfAway_belowHalf hx heq]

end

theorem roundHalfAway_nearest_half : (2.5 : Float).isFinite = true ∧
    2 * |units (roundHalfAway 2.5 0) - units 2.5| = one ∧ |units 2.5| < |units (roundHalfAway 2.5 0)| := by
  have hfinite : (2.5 : Float).isFinite = true := by decide
  have htie : 2 * |units (roundHalfAway 2.5 0) - units 2.5| = one := by
    rw [roundHalfAway_zero hfinite]
    decide +kernel
  obtain ⟨-, -, -, haway, -⟩ := roundHalfAway_nearest hfinite
  exact ⟨hfinite, htie, haway htie⟩

/-- The number below one half is rounded to one, which is more than a half away. -/
theorem roundHalfAway_belowHalf_not_nearest : belowHalf.isFinite = true ∧
    units (roundHalfAway belowHalf 0) = one ∧
    one < 2 * |units (roundHalfAway belowHalf 0) - units belowHalf| := by
  rw [units_roundHalfAway_belowHalf]
  decide

end RangeCalc.Binary64
