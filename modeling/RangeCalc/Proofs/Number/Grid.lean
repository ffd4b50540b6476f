import Mathlib.Algebra.Order.Field.Basic
import Mathlib.Algebra.Order.Floor.Semiring
import Mathlib.Data.Rat.Floor
import Mathlib.Tactic.FieldSimp
import Mathlib.Tactic.Linarith
import Mathlib.Tactic.NormNum
import Mathlib.Tactic.Positivity
import Mathlib.Tactic.Ring

/-!
# The grid of numbers

The finite numbers lie on a grid: in units, all integers up to `2 ^ 53`, and above each power of two a step
that is twice as wide. A rational number of units is rounded to the grid, ties to even, as if the
exponents had no end.

* `NearestEven`: the integer nearest to a rational number;
* `RoundsUnits`: what a number of units is rounded to, and `exists_roundsUnits`;
* `RoundsUnits.mono`: rounding keeps the order;
* `RoundsUnits.self`: a number on the grid is rounded to itself.
-/

namespace RangeCalc.Binary64

/-- The integer nearest to a rational number, ties to even. -/
structure NearestEven (a : ℚ) (r : Nat) : Prop where
  low : r - 1 / 2 ≤ a
  high : a ≤ r + 1 / 2
  even : a = r - 1 / 2 ∨ a = r + 1 / 2 → r % 2 = 0

/-- The step between the numbers of the grid around a number of units is `2 ^ k`. -/
structure IsStep (a : ℚ) (k : Nat) : Prop where
  low : k = 0 ∨ 2 ^ (52 + k) ≤ a
  high : a < 2 ^ (53 + k)

/-- What a number of units is rounded to. -/
def RoundsUnits (a : ℚ) (n : Nat) : Prop :=
  ∃ k r, IsStep a k ∧ NearestEven (a / 2 ^ k) r ∧ n = r * 2 ^ k

variable {a b : ℚ} {k l r s m n : Nat}

/-! ## The nearest integer -/

theorem NearestEven.mono (h : NearestEven a r) (h' : NearestEven b s) (hab : a ≤ b) : r ≤ s := by
  by_contra hlt
  have hle : (s : ℚ) + 1 ≤ r := by exact_mod_cast Nat.lt_of_not_le hlt
  have hlow := h.low
  have hhigh := h'.high
  -- both are ties between the same two integers
  have hr : r = s + 1 := by
    have : (r : ℚ) ≤ s + 1 := by linarith
    have : r ≤ s + 1 := by exact_mod_cast this
    omega
  have hs := h'.even (.inr (by linarith))
  have hr' := h.even (.inl (by linarith))
  omega

theorem NearestEven.self (n : Nat) : NearestEven n n :=
  ⟨by linarith, by linarith, fun h => by rcases h with h | h <;> linarith⟩

theorem exists_nearestEven (ha : 0 ≤ a) : ∃ r, NearestEven a r := by
  have hlow : (⌊a⌋₊ : ℚ) ≤ a := Nat.floor_le ha
  have hhigh : a < ⌊a⌋₊ + 1 := Nat.lt_floor_add_one a
  generalize ⌊a⌋₊ = q at hlow hhigh
  rcases lt_trichotomy a (q + 1 / 2) with h | h | h
  · exact ⟨q, by linarith, by linarith, fun heq => by rcases heq with heq | heq <;> linarith⟩
  · rcases Nat.mod_two_eq_zero_or_one q with hq | hq
    · exact ⟨q, by linarith, by linarith, fun _ => hq⟩
    · exact ⟨q + 1, by push_cast; linarith, by push_cast; linarith, fun _ => by omega⟩
  · refine ⟨q + 1, by push_cast; linarith, by push_cast; linarith, fun heq => ?_⟩
    rcases heq with heq | heq <;> push_cast at heq <;> linarith

/-! ## The step -/

theorem exists_isStep (ha : 0 ≤ a) : ∃ k, IsStep a k := by
  by_cases hsmall : a < 2 ^ 53
  · exact ⟨0, .inl rfl, hsmall⟩
  · have hle : 2 ^ 53 ≤ ⌊a⌋₊ := by
      rw [Nat.le_floor_iff ha]
      push_cast
      exact not_lt.mp hsmall
    have hne : ⌊a⌋₊ ≠ 0 := by omega
    have hlog := (Nat.le_log2 hne).mpr hle
    refine ⟨⌊a⌋₊.log2 - 52, .inr ?_, ?_⟩
    · rw [show 52 + (⌊a⌋₊.log2 - 52) = ⌊a⌋₊.log2 by omega]
      exact le_trans (by exact_mod_cast Nat.log2_self_le hne) (Nat.floor_le ha)
    · rw [show 53 + (⌊a⌋₊.log2 - 52) = ⌊a⌋₊.log2 + 1 by omega]
      have hlt : ⌊a⌋₊ + 1 ≤ 2 ^ (⌊a⌋₊.log2 + 1) := Nat.lt_log2_self
      exact (Nat.lt_floor_add_one a).trans_le (by exact_mod_cast hlt)

theorem IsStep.mono (h : IsStep a k) (h' : IsStep b l) (hab : a ≤ b) : k ≤ l := by
  by_contra hlt
  have h1 : (2 : ℚ) ^ (52 + k) < 2 ^ (53 + l) := by
    calc (2 : ℚ) ^ (52 + k) ≤ a := h.low.resolve_left (by omega)
      _ ≤ b := hab
      _ < 2 ^ (53 + l) := h'.high
  have := (pow_lt_pow_iff_right₀ (by norm_num : (1 : ℚ) < 2)).mp h1
  omega

/-! ## Rounding -/

theorem exists_roundsUnits (ha : 0 ≤ a) : ∃ n, RoundsUnits a n := by
  obtain ⟨k, hk⟩ := exists_isStep ha
  obtain ⟨r, hr⟩ := exists_nearestEven (a := a / 2 ^ k) (by positivity)
  exact ⟨r * 2 ^ k, k, r, hk, hr, rfl⟩

/-- A number of units less than `2 ^ n` steps has a nearest integer of at most that many. -/
theorem NearestEven.le_of_lt (h : NearestEven (a / 2 ^ k) r) (ha : a < 2 ^ (n + k)) : r ≤ 2 ^ n := by
  refine h.mono (.self (2 ^ n)) ?_
  rw [div_le_iff₀ (by positivity)]
  push_cast
  rw [← pow_add]
  exact ha.le

theorem NearestEven.le_of_le (h : NearestEven (a / 2 ^ k) r) (ha : 2 ^ (n + k) ≤ a) : 2 ^ n ≤ r := by
  refine (NearestEven.self (2 ^ n)).mono h ?_
  rw [le_div_iff₀ (by positivity)]
  push_cast
  rwa [← pow_add]

/-- Rounding keeps the order. -/
theorem RoundsUnits.mono (h : RoundsUnits a m) (h' : RoundsUnits b n) (hab : a ≤ b) : m ≤ n := by
  obtain ⟨k, r, hk, hr, rfl⟩ := h
  obtain ⟨l, s, hl, hs, rfl⟩ := h'
  rcases Nat.lt_or_ge k l with hlt | hge
  · -- the wider step starts where the narrower one ends
    calc r * 2 ^ k ≤ 2 ^ 53 * 2 ^ k := Nat.mul_le_mul_right _ (hr.le_of_lt hk.high)
      _ = 2 ^ (53 + k) := (Nat.pow_add 2 _ _).symm
      _ ≤ 2 ^ (52 + l) := Nat.pow_le_pow_right (by decide) (by omega)
      _ = 2 ^ 52 * 2 ^ l := Nat.pow_add 2 _ _
      _ ≤ s * 2 ^ l := Nat.mul_le_mul_right _ (hs.le_of_le (hl.low.resolve_left (by omega)))
  · obtain rfl : k = l := Nat.le_antisymm (hk.mono hl hab) hge
    exact Nat.mul_le_mul_right _ (hr.mono hs (div_le_div_of_nonneg_right hab (by positivity)))

theorem RoundsUnits.unique (h : RoundsUnits a m) (h' : RoundsUnits a n) : m = n :=
  Nat.le_antisymm (h.mono h' le_rfl) (h'.mono h le_rfl)

/-- A mantissa of at most 53 bits with an exponent is on the grid. -/
theorem RoundsUnits.self (hm : m ≤ 2 ^ 53) (k : Nat) : RoundsUnits (m * 2 ^ k : Nat) (m * 2 ^ k) := by
  obtain ⟨l, hl⟩ := exists_isStep (a := (m * 2 ^ k : Nat)) (by positivity)
  -- its step divides it
  obtain ⟨q, hq⟩ : ∃ q, m * 2 ^ k = q * 2 ^ l := by
    rcases Nat.lt_or_ge k l with hlt | hge
    · have hlow : 2 ^ (52 + l) ≤ m * 2 ^ k := by exact_mod_cast hl.low.resolve_left (by omega)
      have hhigh : m * 2 ^ k ≤ 2 ^ (53 + k) := by
        rw [Nat.pow_add]
        exact Nat.mul_le_mul_right _ hm
      have hexp : 2 ^ (53 + k) ≤ 2 ^ (52 + l) := Nat.pow_le_pow_right (by decide) (by omega)
      exact ⟨2 ^ 52, by rw [← Nat.pow_add]; omega⟩
    · refine ⟨m * 2 ^ (k - l), ?_⟩
      rw [Nat.mul_assoc, ← Nat.pow_add, Nat.sub_add_cancel hge]
  refine ⟨l, q, hl, ?_, hq⟩
  have hvalue : ((m * 2 ^ k : Nat) : ℚ) / 2 ^ l = q := by
    rw [hq]
    push_cast
    field_simp
  rw [hvalue]
  exact .self q

theorem RoundsUnits.le_of_le (h : RoundsUnits a n) (hm : m ≤ 2 ^ 53) (ha : a ≤ (m * 2 ^ k : Nat)) :
    n ≤ m * 2 ^ k :=
  h.mono (.self hm k) ha

theorem RoundsUnits.zero (h : RoundsUnits 0 n) : n = 0 := by
  have hself := RoundsUnits.self (Nat.zero_le (2 ^ 53)) 0
  rw [Nat.zero_mul, Nat.cast_zero] at hself
  exact h.unique hself

/-- Rounding adds at most half a unit, or one part in `2 ^ 53`. -/
theorem RoundsUnits.le_add (h : RoundsUnits a n) (ha : 0 ≤ a) : (n : ℚ) ≤ a + a / 2 ^ 53 + 1 / 2 := by
  obtain ⟨k, r, hk, hr, rfl⟩ := h
  have hstep : (0 : ℚ) < 2 ^ k := by positivity
  have hbound : (r : ℚ) * 2 ^ k ≤ a + 2 ^ k / 2 := by
    calc (r : ℚ) * 2 ^ k ≤ (a / 2 ^ k + 1 / 2) * 2 ^ k :=
          mul_le_mul_of_nonneg_right (by linarith [hr.low]) hstep.le
      _ = a + 2 ^ k / 2 := by field_simp
  have hpart : 0 ≤ a / 2 ^ 53 := by positivity
  push_cast
  rcases hk.low with rfl | hlow
  · linarith
  · have hhalf : (2 : ℚ) ^ k / 2 ≤ a / 2 ^ 53 := by
      rw [pow_add] at hlow
      rw [div_le_div_iff₀ (by norm_num) (by norm_num)]
      linarith
    linarith

/-- A number of units below a power of two has a step that is at least 53 binary digits smaller. -/
theorem IsStep.le_of_lt (h : IsStep a l) (ha : a < 2 ^ (53 + k)) : l ≤ k := by
  rcases h.low with rfl | hlow
  · exact Nat.zero_le k
  · have := (pow_lt_pow_iff_right₀ (by norm_num : (1 : ℚ) < 2)).mp (hlow.trans_lt ha)
    omega

/-- Rounding adds at most half a step. -/
theorem RoundsUnits.le_add_half (h : RoundsUnits a n) (ha : a < 2 ^ (53 + k)) : (n : ℚ) ≤ a + 2 ^ k / 2 := by
  obtain ⟨l, r, hl, hr, rfl⟩ := h
  have hstep : (2 : ℚ) ^ l ≤ 2 ^ k := pow_le_pow_right₀ (by norm_num) (hl.le_of_lt ha)
  have hpos : (0 : ℚ) < 2 ^ l := by positivity
  push_cast
  calc (r : ℚ) * 2 ^ l ≤ (a / 2 ^ l + 1 / 2) * 2 ^ l :=
        mul_le_mul_of_nonneg_right (by linarith [hr.low]) hpos.le
    _ = a + 2 ^ l / 2 := by field_simp
    _ ≤ a + 2 ^ k / 2 := by linarith

/-- What is less than half a step above a number of 53 binary digits is not rounded to a larger one. -/
theorem RoundsUnits.le_of_lt_half (h : RoundsUnits a n) (hfull : 2 ^ 52 ≤ m) (hm : m < 2 ^ 53)
    (ha : a < (m + 1 / 2) * 2 ^ k) : n ≤ m * 2 ^ k := by
  obtain ⟨l, r, hl, hr, rfl⟩ := h
  have hpos : (0 : ℚ) < 2 ^ k := by positivity
  have hle : l ≤ k := by
    refine hl.le_of_lt (ha.trans ?_)
    have : (m : ℚ) + 1 ≤ 2 ^ 53 := by exact_mod_cast hm
    rw [pow_add]
    exact mul_lt_mul_of_pos_right (by linarith) hpos
  rcases hle.lt_or_eq with hlt | rfl
  · calc r * 2 ^ l ≤ 2 ^ 53 * 2 ^ l := Nat.mul_le_mul_right _ (hr.le_of_lt hl.high)
      _ = 2 ^ (53 + l) := (Nat.pow_add 2 _ _).symm
      _ ≤ 2 ^ (52 + k) := Nat.pow_le_pow_right (by decide) (by omega)
      _ = 2 ^ 52 * 2 ^ k := Nat.pow_add 2 _ _
      _ ≤ m * 2 ^ k := Nat.mul_le_mul_right _ hfull
  · refine Nat.mul_le_mul_right _ ?_
    have hlt : (r : ℚ) < m + 1 := by linarith [hr.low, (div_lt_iff₀ hpos).mpr ha]
    have : r < m + 1 := by exact_mod_cast hlt
    omega

/-- What is not rounded to nothing is at most halved. -/
theorem RoundsUnits.le_two_mul_of_pos (h : RoundsUnits a n) (hn : 0 < n) : a ≤ 2 * n := by
  obtain ⟨k, r, hk, hr, rfl⟩ := h
  have hstep : (0 : ℚ) < 2 ^ k := by positivity
  have hr1 : (1 : ℚ) ≤ r := by
    have : 1 ≤ r := Nat.pos_of_mul_pos_right hn
    exact_mod_cast this
  have hhigh := hr.high
  push_cast
  calc a = a / 2 ^ k * 2 ^ k := by field_simp
    _ ≤ 2 * r * 2 ^ k := mul_le_mul_of_nonneg_right (by linarith) hstep.le
    _ = 2 * (r * 2 ^ k) := by ring

end RangeCalc.Binary64
