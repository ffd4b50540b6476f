import Mathlib.Algebra.Order.Floor.Ring
import Mathlib.Data.List.Sort
import Mathlib.Tactic.Linarith
import RangeCalc.Proofs.Fallible
import RangeCalc.Proofs.Scalar.Exact
import RangeCalc.Statistics.Summary

/-!
# Percentiles of rational numbers

The percentile of `p` among `n` numbers is found at the rank `p / 100 * (n - 1)`: there, a straight line leads
from the order statistic below the rank to the one above.

* `atRank`: the broken line through some numbers;
* `getElem_le_of_forall₂`: order statistics of larger numbers;
* `percentile_rational`: percentiles as points of the broken line;
* `isInterpolant`, `atPercentage_le`: where that line leads, and that larger numbers raise it;
* `percentile_isInterpolant`: what percentiles are.
-/

namespace RangeCalc.Statistics

/-! ## The line through some numbers -/

/-- The number at a rank: on the straight line from the number below the rank to the one above. -/
def atRank (x : Nat → ℚ) (r : ℚ) : ℚ :=
  x ⌊r⌋₊ + (x ⌈r⌉₊ - x ⌊r⌋₊) * (r - ⌊r⌋₊)

section

variable {x y : Nat → ℚ} {r r' : ℚ} {k : Nat}

@[simp]
theorem atRank_natCast (x : Nat → ℚ) (k : Nat) : atRank x k = x k := by
  simp [atRank]

@[simp]
theorem atRank_zero (x : Nat → ℚ) : atRank x 0 = x 0 := by
  simp [atRank]

/-- Between two neighbours there is one line, which ends at both of them. -/
theorem atRank_eq (hk : k ≤ r) (hr : r ≤ k + 1) : atRank x r = x k + (x (k + 1) - x k) * (r - k) := by
  rcases hr.eq_or_lt with rfl | hlt
  · rw [← Nat.cast_succ, atRank_natCast]
    push_cast
    ring
  rcases hk.eq_or_lt with rfl | hgt
  · simp
  · have hfloor : ⌊r⌋₊ = k := Nat.floor_eq_on_Ico k r ⟨hk, hlt⟩
    have hceil : ⌈r⌉₊ = k + 1 := by
      rw [Nat.ceil_eq_iff k.succ_ne_zero]
      exact ⟨hgt, by push_cast; exact hr⟩
    rw [atRank, hfloor, hceil]

theorem atRank_mem_Icc (hx : Monotone x) (hr : 0 ≤ r) : atRank x r ∈ Set.Icc (x ⌊r⌋₊) (x ⌈r⌉₊) := by
  have hstep : 0 ≤ x ⌈r⌉₊ - x ⌊r⌋₊ := sub_nonneg.mpr (hx (Nat.floor_le_ceil r))
  have hlow : 0 ≤ r - ⌊r⌋₊ := sub_nonneg.mpr (Nat.floor_le hr)
  have hhigh : r - ⌊r⌋₊ ≤ 1 := by linarith [Nat.lt_floor_add_one r]
  have hnonneg := mul_nonneg hstep hlow
  have hle := mul_le_of_le_one_right hstep hhigh
  constructor <;> rw [atRank] <;> linarith

/-- The line through numbers in order does not fall. -/
theorem atRank_mono (hx : Monotone x) (hr : 0 ≤ r) (h : r ≤ r') : atRank x r ≤ atRank x r' := by
  have hr' := hr.trans h
  rcases (Nat.floor_mono h).eq_or_lt with hsame | hlater
  · -- the same piece of the line
    rw [atRank_eq (Nat.floor_le hr) (Nat.lt_floor_add_one r).le, hsame,
      atRank_eq (Nat.floor_le hr') (Nat.lt_floor_add_one r').le]
    have hstep : 0 ≤ x (⌊r'⌋₊ + 1) - x ⌊r'⌋₊ := sub_nonneg.mpr (hx (Nat.le_succ _))
    linarith [mul_le_mul_of_nonneg_left (sub_le_sub_right h (⌊r'⌋₊ : ℚ)) hstep]
  · calc atRank x r ≤ x ⌈r⌉₊ := (atRank_mem_Icc hx hr).2
      _ ≤ x ⌊r'⌋₊ := hx ((Nat.ceil_le_floor_add_one r).trans hlater)
      _ ≤ atRank x r' := (atRank_mem_Icc hx hr').1

/-- The line through larger numbers is above. -/
theorem atRank_le_atRank (hxy : ∀ k, x k ≤ y k) (hr : 0 ≤ r) : atRank x r ≤ atRank y r := by
  have hlow : 0 ≤ r - ⌊r⌋₊ := sub_nonneg.mpr (Nat.floor_le hr)
  have hhigh : 0 ≤ 1 - (r - ⌊r⌋₊) := by linarith [Nat.lt_floor_add_one r]
  have hweights (z : Nat → ℚ) :
      atRank z r = z ⌊r⌋₊ * (1 - (r - ⌊r⌋₊)) + z ⌈r⌉₊ * (r - ⌊r⌋₊) := by
    rw [atRank]
    ring
  rw [hweights, hweights]
  exact add_le_add (mul_le_mul_of_nonneg_right (hxy _) hhigh) (mul_le_mul_of_nonneg_right (hxy _) hlow)

end

/-! ## Order statistics -/

section

variable {qs qs' xs xs' : List ℚ}

/-- As many numbers are at most `t` as there are places in order up to which they are. -/
theorem getElem_le_iff_lt_countP (hsorted : xs.Pairwise (· ≤ ·)) {t : ℚ} {k : Nat} (hk : k < xs.length) :
    xs[k] ≤ t ↔ k < xs.countP (· ≤ t) := by
  induction xs generalizing k with
  | nil => exact absurd hk (Nat.not_lt_zero k)
  | cons x xs ih =>
    rw [List.pairwise_cons] at hsorted
    by_cases hx : x ≤ t
    · rw [List.countP_cons_of_pos (by simpa using hx)]
      cases k with
      | zero => simpa using hx
      | succ k => simpa using ih hsorted.2 (Nat.lt_of_succ_lt_succ hk)
    · have hnone : (x :: xs).countP (· ≤ t) = 0 := by
        rw [List.countP_eq_zero]
        rintro y (_ | ⟨_, hy⟩)
        · simpa using hx
        · simpa using (not_le.mp hx).trans_le (hsorted.1 y hy)
      have hle : x ≤ (x :: xs)[k] := by
        cases k with
        | zero => exact le_rfl
        | succ k => exact hsorted.1 _ (List.getElem_mem _)
      rw [hnone]
      exact iff_of_false (fun h => hx (hle.trans h)) (Nat.not_lt_zero k)

/-- Order statistics do not fall when numbers are raised. -/
theorem getElem_le_of_forall₂ (hraised : List.Forall₂ (· ≤ ·) qs qs') (hperm : xs.Perm qs)
    (hperm' : xs'.Perm qs') (hsorted : xs.Pairwise (· ≤ ·)) (hsorted' : xs'.Pairwise (· ≤ ·)) {k : Nat}
    (hk : k < xs.length) (hk' : k < xs'.length) : xs[k] ≤ xs'[k] := by
  have hfewer (t : ℚ) : qs'.countP (· ≤ t) ≤ qs.countP (· ≤ t) := by
    clear hperm hperm'
    induction hraised with
    | nil => exact le_rfl
    | @cons q q' qs qs' hq _ ih =>
      rw [List.countP_cons, List.countP_cons]
      refine Nat.add_le_add ih ?_
      split
      next hq' => rw [if_pos (by simpa using hq.trans (by simpa using hq'))]
      next => exact Nat.zero_le _
  rw [getElem_le_iff_lt_countP hsorted hk, hperm.countP_eq]
  refine lt_of_lt_of_le ?_ (hfewer _)
  rw [← hperm'.countP_eq]
  exact (getElem_le_iff_lt_countP hsorted' hk').mp le_rfl

/-- The entry at a place, that of the last place beyond it. -/
def orderStatistic (xs : List ℚ) (k : Nat) : ℚ := xs[min k (xs.length - 1)]?.getD 0

theorem orderStatistic_eq {k : Nat} (hk : k < xs.length) : orderStatistic xs k = xs[k] := by
  rw [orderStatistic, min_eq_left (by omega), List.getElem?_eq_getElem hk]
  rfl

theorem orderStatistic_mono (hsorted : xs.Pairwise (· ≤ ·)) : Monotone (orderStatistic xs) := by
  intro i j hij
  rcases xs with _ | ⟨x, xs⟩
  · simp [orderStatistic]
  have hle : min i ((x :: xs).length - 1) ≤ min j ((x :: xs).length - 1) := min_le_min_right _ hij
  have hlt (k : Nat) : min k ((x :: xs).length - 1) < (x :: xs).length := by
    rw [List.length_cons]
    omega
  rw [orderStatistic, orderStatistic, List.getElem?_eq_getElem (hlt i), List.getElem?_eq_getElem (hlt j)]
  rcases hle.eq_or_lt with heq | hless
  · exact le_of_eq (getElem_congr_idx heq)
  · exact List.pairwise_iff_getElem.mp hsorted _ _ (hlt i) (hlt j) hless

end

/-! ## Percentiles -/

section

open Exact

/-- Where the percentile of `p` is found among `n` numbers. -/
def rank (n : Nat) (p : ℚ) : ℚ := p / 100 * (n - 1 : Nat)

/-- A rank that is not outside the places of `n` numbers. -/
def clampedRank (n : Nat) (p : ℚ) : ℚ := max 0 (min (rank n p) (n - 1 : Nat))

section

variable {n : Nat} {p p' : ℚ}

theorem rank_mono (h : p ≤ p') : rank n p ≤ rank n p' :=
  mul_le_mul_of_nonneg_right (by linarith) (Nat.cast_nonneg _)

theorem clampedRank_mono (h : p ≤ p') : clampedRank n p ≤ clampedRank n p' :=
  max_le_max le_rfl (min_le_min (rank_mono h) le_rfl)

theorem rank_zero (n : Nat) : rank n 0 = 0 := by
  rw [rank, zero_div, zero_mul]

theorem rank_hundred (n : Nat) : rank n 100 = (n - 1 : Nat) := by
  rw [rank, div_self (by norm_num), one_mul]

/-- The percentage whose rank is a place. -/
theorem rank_knot (hn : 2 ≤ n) (k : Nat) : rank n (100 * k / (n - 1)) = k := by
  have hlast : (n - 1 : ℚ) ≠ 0 := by
    rw [sub_ne_zero]
    exact_mod_cast (show n ≠ 1 by omega)
  rw [rank, Nat.cast_sub (by omega), Nat.cast_one]
  field_simp

theorem clampedRank_of_nonpos (hp : p ≤ 0) : clampedRank n p = 0 :=
  max_eq_left ((min_le_left _ _).trans ((rank_mono hp).trans (rank_zero n).le))

theorem clampedRank_of_ge (hp : 100 ≤ p) : clampedRank n p = (n - 1 : Nat) := by
  rw [clampedRank, min_eq_right ((rank_hundred n).ge.trans (rank_mono hp)), max_eq_right (Nat.cast_nonneg _)]

/-- A rank between two places is not clamped. -/
theorem clampedRank_eq (hlow : 0 ≤ rank n p) (hhigh : rank n p ≤ (n - 1 : Nat)) :
    clampedRank n p = rank n p := by
  rw [clampedRank, min_eq_left hhigh, max_eq_right hlow]

end

variable {qs qs' xs xs' : List ℚ} {p : ℚ}

/-- All rational numbers count. -/
theorem finite_rational (qs : List ℚ) : finite (qs.map rational) = qs.map rational := by
  rw [finite, List.filter_eq_self]
  intro x hx
  obtain ⟨q, -, rfl⟩ := List.mem_map.mp hx
  rfl

theorem ascending_rational (hperm : xs.Perm qs) (hsorted : xs.Pairwise (· ≤ ·)) :
    ascending (finite (qs.map rational)) = xs.map rational := by
  have hmerge : qs.mergeSort (fun a b => decide (a ≤ b)) = xs :=
    List.Perm.eq_of_pairwise (fun a b _ _ => le_antisymm) (List.pairwise_mergeSort' (· ≤ ·) qs) hsorted
      ((List.mergeSort_perm _ _).trans hperm.symm)
  rw [finite_rational, ascending, ← hmerge]
  exact (List.map_mergeSort (f := rational) fun _ _ _ _ => rfl).symm

theorem item?_rational {k : Int} (hk : k.toNat < xs.length) :
    item? (xs.map rational).toArray k = .ok (rational (orderStatistic xs k.toNat)) := by
  rw [item?, List.getElem?_toArray, List.getElem?_map, List.getElem?_eq_getElem hk, orderStatistic_eq hk]
  rfl

/-- The places of a rank that is neither that of the least nor that of the greatest number. -/
theorem places_of_inside (hne : xs ≠ []) (hlow : 0 < p) (hhigh : p < 100) :
    0 ≤ ⌊rank xs.length p⌋ ∧ ⌊rank xs.length p⌋ ≤ ⌈rank xs.length p⌉ ∧
      ⌈rank xs.length p⌉ < xs.length := by
  have hpos := List.length_pos_of_ne_nil hne
  have hrank := rank_mono (n := xs.length) hlow.le
  rw [rank_zero] at hrank
  have hrankle := rank_mono (n := xs.length) hhigh.le
  rw [rank_hundred] at hrankle
  have hceil : ⌈rank xs.length p⌉ ≤ (xs.length - 1 : Nat) := Int.ceil_le.mpr (by exact_mod_cast hrankle)
  exact ⟨Int.floor_nonneg.mpr hrank, Int.floor_le_ceil _, by omega⟩

/-- The number at the rank of a percentage, among numbers in order. -/
def atPercentage (xs : List ℚ) (p : ℚ) : ℚ := atRank (orderStatistic xs) (clampedRank xs.length p)

/-- A percentile is the number at the rank of its percentage. -/
theorem percentile_rational (hne : qs ≠ []) (hperm : xs.Perm qs) (hsorted : xs.Pairwise (· ≤ ·)) (p : ℚ) :
    percentile (qs.map rational) (rational p) = .ok (rational (atPercentage xs p)) := by
  have hxs : xs ≠ [] := fun h => hne (List.nil_perm.mp (h ▸ hperm))
  have hpos := List.length_pos_of_ne_nil hxs
  have hsize : (xs.map rational).toArray.size = xs.length := by simp
  have hcases : ((xs.map rational).toArray.isEmpty || Scalar.isUndefined (rational p)) = false := by
    simpa using hxs
  rw [percentile, ascending_rational hperm hsorted, percentileOfSorted, hcases, hsize, if_neg Bool.false_ne_true]
  have hzero : (rational p ≤ zero) = (p ≤ 0) := by
    show (p ≤ ((0 : Int) : ℚ)) = (p ≤ 0)
    rw [Int.cast_zero]
  have hhundred : ((Scalar.ofInt 100 : Exact) ≤ rational p) = (100 ≤ p) := rfl
  have hrank : rational p / Scalar.ofInt 100 * ofCount (xs.length - 1) = rational (rank xs.length p) := rfl
  simp only [hzero, hhundred, hrank, atPercentage]
  split
  next hp =>
    rw [item?_rational (k := 0) hpos, clampedRank_of_nonpos hp, atRank_zero]
    rfl
  split
  next hp =>
    rw [item?_rational (by omega), clampedRank_of_ge hp, atRank_natCast]
    rfl
  next hlow hhigh =>
    rw [not_le] at hlow hhigh
    obtain ⟨hfloor, horder, hceil⟩ := places_of_inside hxs hlow hhigh
    have hinside := rank_mono (n := xs.length) hlow.le
    rw [rank_zero] at hinside
    have hinside' := rank_mono (n := xs.length) hhigh.le
    rw [rank_hundred] at hinside'
    have hplaceFloor : place? Scalar.floor (rational (rank xs.length p)) = .ok ⌊rank xs.length p⌋ := rfl
    have hplaceCeil : place? Scalar.ceil (rational (rank xs.length p)) = .ok ⌈rank xs.length p⌉ := rfl
    rw [bind_ok hplaceFloor, bind_ok hplaceCeil, bind_ok (item?_rational (by omega)),
      bind_ok (item?_rational (by omega)), clampedRank_eq hinside hinside', atRank]
    have hcast : ((⌊rank xs.length p⌋ : Int) : ℚ) = (⌊rank xs.length p⌋₊ : Nat) := by
      exact_mod_cast (Int.toNat_of_nonneg hfloor).symm
    have hfraction : rational (rank xs.length p) - Scalar.ofInt ⌊rank xs.length p⌋ =
        rational (rank xs.length p - ⌊rank xs.length p⌋₊) := by
      rw [← hcast]
      rfl
    rw [hfraction, Int.floor_toNat, Int.ceil_toNat]
    rfl

/-- What the percentiles of some numbers are, given in order: the line that leads through one of them after
the other, with the least below and the greatest above. -/
structure IsInterpolant (xs : List ℚ) (value : ℚ → ℚ) : Prop where
  least (p : ℚ) (hp : p ≤ 0) : xs.head? = some (value p)
  greatest (p : ℚ) (hp : 100 ≤ p) : xs.getLast? = some (value p)
  knot (h : 2 ≤ xs.length) (k : Nat) (hk : k < xs.length) : value (100 * k / (xs.length - 1)) = xs[k]
  line (k : Nat) (hk : k + 1 < xs.length) (p : ℚ) (hlow : 100 * k / (xs.length - 1) ≤ p)
    (hhigh : p ≤ 100 * (k + 1) / (xs.length - 1)) :
    value p = xs[k] + (xs[k + 1] - xs[k]) * (rank xs.length p - k)
  monotone : Monotone value
  mem_Icc (p : ℚ) : ∀ least ∈ xs.head?, ∀ greatest ∈ xs.getLast?, value p ∈ Set.Icc least greatest

section

variable (hne : xs ≠ []) (hsorted : xs.Pairwise (· ≤ ·))

include hsorted in
theorem atPercentage_mono : Monotone (atPercentage xs) :=
  fun _ _ h => atRank_mono (orderStatistic_mono hsorted) (le_max_left _ _) (clampedRank_mono h)

include hne in
theorem head?_eq_atPercentage (hp : p ≤ 0) : xs.head? = some (atPercentage xs p) := by
  have hpos := List.length_pos_of_ne_nil hne
  rw [atPercentage, clampedRank_of_nonpos hp, atRank_zero, orderStatistic_eq hpos, List.head?_eq_getElem?,
    List.getElem?_eq_getElem hpos]

include hne in
theorem getLast?_eq_atPercentage (hp : 100 ≤ p) : xs.getLast? = some (atPercentage xs p) := by
  have hpos := List.length_pos_of_ne_nil hne
  rw [atPercentage, clampedRank_of_ge hp, atRank_natCast, orderStatistic_eq (by omega),
    List.getLast?_eq_getElem?, List.getElem?_eq_getElem (by omega)]

theorem atPercentage_knot (h : 2 ≤ xs.length) {k : Nat} (hk : k < xs.length) :
    atPercentage xs (100 * k / (xs.length - 1)) = xs[k] := by
  have hrank := rank_knot h k
  have hle : (k : ℚ) ≤ (xs.length - 1 : Nat) := by exact_mod_cast (show k ≤ xs.length - 1 by omega)
  rw [atPercentage, clampedRank_eq ((Nat.cast_nonneg k).trans hrank.ge) (hrank.trans_le hle), hrank,
    atRank_natCast, orderStatistic_eq hk]

/-- Between the percentages of two places the line is straight. -/
theorem atPercentage_line {k : Nat} (hk : k + 1 < xs.length) (hlow : 100 * k / (xs.length - 1) ≤ p)
    (hhigh : p ≤ 100 * (k + 1) / (xs.length - 1)) :
    atPercentage xs p = xs[k] + (xs[k + 1] - xs[k]) * (rank xs.length p - k) := by
  have hrankLow : (k : ℚ) ≤ rank xs.length p := (rank_knot (by omega) k).ge.trans (rank_mono hlow)
  have hrankHigh : rank xs.length p ≤ k + 1 := by
    rw [← Nat.cast_succ] at hhigh ⊢
    exact (rank_mono hhigh).trans (rank_knot (by omega) (k + 1)).le
  have hle : (k + 1 : ℚ) ≤ (xs.length - 1 : Nat) := by
    exact_mod_cast (show k + 1 ≤ xs.length - 1 by omega)
  rw [atPercentage, clampedRank_eq ((Nat.cast_nonneg k).trans hrankLow) (hrankHigh.trans hle),
    atRank_eq hrankLow hrankHigh, orderStatistic_eq (by omega), orderStatistic_eq hk]

include hne hsorted in
theorem isInterpolant : IsInterpolant xs (atPercentage xs) where
  least _ := head?_eq_atPercentage hne
  greatest _ := getLast?_eq_atPercentage hne
  knot h _ := atPercentage_knot h
  line _ hk _ := atPercentage_line hk
  monotone := atPercentage_mono hsorted
  mem_Icc p least hl greatest hg := by
    constructor
    · rw [head?_eq_atPercentage hne (min_le_right p 0)] at hl
      obtain rfl := Option.some.inj hl
      exact atPercentage_mono hsorted (min_le_left _ _)
    · rw [getLast?_eq_atPercentage hne (le_max_right p 100)] at hg
      obtain rfl := Option.some.inj hg
      exact atPercentage_mono hsorted (le_max_left _ _)

end

/-- Where numbers are raised, the line is not below. -/
theorem atPercentage_le (hraised : List.Forall₂ (· ≤ ·) qs qs') (hperm : xs.Perm qs) (hperm' : xs'.Perm qs')
    (hsorted : xs.Pairwise (· ≤ ·)) (hsorted' : xs'.Pairwise (· ≤ ·)) (p : ℚ) :
    atPercentage xs p ≤ atPercentage xs' p := by
  have hlength : xs.length = xs'.length := by
    rw [hperm.length_eq, hraised.length_eq, hperm'.length_eq]
  rw [atPercentage, atPercentage, ← hlength]
  refine atRank_le_atRank (fun k => ?_) (le_max_left _ _)
  rcases Nat.eq_zero_or_pos xs.length with hnil | hpos
  · simp [orderStatistic, List.eq_nil_of_length_eq_zero hnil, List.eq_nil_of_length_eq_zero (hlength ▸ hnil)]
  · have hk : min k (xs.length - 1) < xs.length := by omega
    rw [orderStatistic, orderStatistic, ← hlength, List.getElem?_eq_getElem hk,
      List.getElem?_eq_getElem (hlength ▸ hk)]
    exact getElem_le_of_forall₂ hraised hperm hperm' hsorted hsorted' hk (hlength ▸ hk)

/-- Percentiles are the points of the line through the order statistics. The places that a rank is between
are those of numbers, and percentiles do not fall when numbers are raised. -/
theorem percentile_isInterpolant (hne : qs ≠ []) (hperm : xs.Perm qs) (hsorted : xs.Pairwise (· ≤ ·)) :
    ∃ value : ℚ → ℚ,
      (∀ p, percentile (qs.map rational) (rational p) = .ok (rational (value p))) ∧
      IsInterpolant xs value ∧
      (∀ p, 0 < p → p < 100 → ∃ lower upper : Int,
        place? Scalar.floor (rational p / Scalar.ofInt 100 * ofCount (xs.length - 1)) = .ok lower ∧
          place? Scalar.ceil (rational p / Scalar.ofInt 100 * ofCount (xs.length - 1)) = .ok upper ∧
          0 ≤ lower ∧ lower ≤ upper ∧ upper < xs.length) ∧
      ∀ qs', List.Forall₂ (· ≤ ·) qs qs' → ∀ p, ∃ y,
        percentile (qs'.map rational) (rational p) = .ok (rational y) ∧ value p ≤ y := by
  have hxs : xs ≠ [] := fun h => hne (List.nil_perm.mp (h ▸ hperm))
  refine ⟨_, percentile_rational hne hperm hsorted, isInterpolant hxs hsorted,
    fun p hlow hhigh => ⟨⌊rank xs.length p⌋, ⌈rank xs.length p⌉, rfl, rfl, places_of_inside hxs hlow hhigh⟩,
    fun qs' hraised p => ?_⟩
  have hne' : qs' ≠ [] := by
    rintro rfl
    exact hne (List.forall₂_nil_right_iff.mp hraised)
  have hperm' := List.mergeSort_perm qs' fun a b => decide (a ≤ b)
  have hsorted' := List.pairwise_mergeSort' (· ≤ ·) qs'
  exact ⟨_, percentile_rational hne' hperm' hsorted' p, atPercentage_le hraised hperm hperm' hsorted hsorted' p⟩

end

/-- Percentiles of four numbers, and of the same numbers with one of them raised. -/
theorem fourNumbers_percentile :
    [1, 2, 3, 4].Perm [4, 1, 3, (2 : ℚ)] ∧ [1, 2, 3, (4 : ℚ)].Pairwise (· ≤ ·) ∧
      percentile ([4, 1, 3, 2].map Exact.rational) (.rational 50) = .ok (.rational (5 / 2)) ∧
      ∃ y, percentile ([4, 5, 3, 2].map Exact.rational) (.rational 50) = .ok (.rational y) ∧ 5 / 2 ≤ y := by
  have hperm : [1, 2, 3, 4].Perm [4, 1, 3, (2 : ℚ)] := by decide
  have hsorted : [1, 2, 3, (4 : ℚ)].Pairwise (· ≤ ·) := by decide
  obtain ⟨value, hvalue, hline, -, hraised⟩ := percentile_isInterpolant (List.cons_ne_nil _ _) hperm hsorted
  have hmiddle : value 50 = 5 / 2 := by
    rw [hline.line 1 (by decide) 50 (by norm_num) (by norm_num)]
    norm_num [rank]
  obtain ⟨y, hy, hle⟩ := hraised [4, 5, 3, 2] (by norm_num) 50
  exact ⟨hperm, hsorted, by rw [hvalue, hmiddle], y, hy, hmiddle ▸ hle⟩

end RangeCalc.Statistics
