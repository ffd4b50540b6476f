import RangeCalc.Proofs.Number.Units

/-!
# Errors of rounding

* `Rounds.abs_sub_le`: how far a rounded number is from the exact one;
* `Rounds.exact_of_isFinite`: what is rounded to itself;
* `Rounds.units_lt`: what is rounded to something smaller.
-/

namespace RangeCalc.Binary64

variable {a : ℚ} {x : Float} {k m n : Nat}

/-- Rounding changes a number by at most half a unit, or one part in `2 ^ 53`. -/
theorem RoundsUnits.abs_sub_le (h : RoundsUnits a n) (ha : 0 ≤ a) : |(n : ℚ) - a| ≤ a / 2 ^ 53 + 1 / 2 := by
  have hhigh := h.le_add ha
  obtain ⟨l, r, hl, hr, rfl⟩ := h
  have hstep : (0 : ℚ) < 2 ^ l := by positivity
  have hlow : a ≤ (r * 2 ^ l : Nat) + 2 ^ l / 2 := by
    push_cast
    calc a = a / 2 ^ l * 2 ^ l := by field_simp
      _ ≤ (r + 1 / 2) * 2 ^ l := mul_le_mul_of_nonneg_right hr.high hstep.le
      _ = r * 2 ^ l + 2 ^ l / 2 := by ring
  -- half a step is half a unit, or at most one part in `2 ^ 53`
  have hhalf : (2 : ℚ) ^ l / 2 ≤ a / 2 ^ 53 + 1 / 2 := by
    rcases hl.low with rfl | hfull
    · linarith
    · rw [pow_add] at hfull
      linarith
  rw [abs_le]
  constructor <;> linarith

/-- A rounded number that is finite, up to its sign. -/
theorem Rounds.units_eq (hx : Rounds a x) (hfinite : x.isFinite = true) :
    ∃ n, RoundsUnits |a| n ∧ (0 ≤ a ∧ units x = n ∨ a ≤ 0 ∧ units x = -n) := by
  obtain ⟨n, hn, hkey⟩ := hx.key_eq
  have hbound := (isFinite_iff_key hx.defined).mp hfinite
  rw [key_of_isFinite hfinite] at hkey hbound
  exact ⟨n, hn, hkey.imp (fun ⟨hsign, h⟩ => ⟨hsign, by omega⟩) fun ⟨hsign, h⟩ => ⟨hsign, by omega⟩⟩

theorem Rounds.abs_sub_le (hx : Rounds a x) (hfinite : x.isFinite = true) :
    |units x - a| ≤ |a| / 2 ^ 53 + 1 / 2 := by
  obtain ⟨n, hn, ⟨hsign, hunits⟩ | ⟨hsign, hunits⟩⟩ := hx.units_eq hfinite
  · have h := hn.abs_sub_le (abs_nonneg a)
    rw [abs_of_nonneg hsign] at h ⊢
    rw [hunits]
    exact_mod_cast h
  · have h := hn.abs_sub_le (abs_nonneg a)
    rw [abs_of_nonpos hsign] at h ⊢
    rw [hunits, abs_sub_comm]
    convert h using 2
    push_cast
    ring

/-- A finite number that an integer on the grid is rounded to. -/
theorem Rounds.exact_of_isFinite {i : Int} (hx : Rounds i x) (hfinite : x.isFinite = true) (hm : m ≤ 2 ^ 53)
    (hi : i.natAbs = m * 2 ^ k) : units x = i := by
  obtain ⟨n, hn, hunits⟩ := hx.units_eq hfinite
  rw [← Int.cast_abs, ← Nat.cast_natAbs, hi] at hn
  obtain rfl := hn.unique (.self hm k)
  rw [Int.cast_nonneg_iff, Int.cast_nonpos] at hunits
  omega

/-- What is below a large number by one part in `2 ^ 53` is rounded to something smaller. -/
theorem Rounds.units_lt (hx : Rounds a x) (hfinite : x.isFinite = true) (hn : 2 ^ 52 < n)
    (ha : a ≤ n - n / 2 ^ 53) : units x < n := by
  obtain ⟨r, hr, ⟨hsign, hunits⟩ | ⟨-, hunits⟩⟩ := hx.units_eq hfinite
  · rw [abs_of_nonneg hsign] at hr
    obtain ⟨l, q, hl, hq, rfl⟩ := hr
    have hn' : (2 ^ 52 : ℚ) < n := by exact_mod_cast hn
    have hstep : (0 : ℚ) < 2 ^ l := by positivity
    have hle : ((q * 2 ^ l : Nat) : ℚ) ≤ a + 2 ^ l / 2 := by
      push_cast
      calc (q : ℚ) * 2 ^ l ≤ (a / 2 ^ l + 1 / 2) * 2 ^ l :=
            mul_le_mul_of_nonneg_right (by linarith [hq.low]) hstep.le
        _ = a + 2 ^ l / 2 := by field_simp
    have hlt : ((q * 2 ^ l : Nat) : ℚ) < n := by
      refine hle.trans_lt ?_
      rcases hl.low with rfl | hfull
      · rw [pow_zero]
        linarith
      · rw [pow_add] at hfull
        linarith
    rw [hunits]
    exact_mod_cast hlt
  · omega

end RangeCalc.Binary64
