import RangeCalc.Proofs.Bounds.Monotone

/-!
# Bounds from the extreme corners

Above the limit of ranges only the corner of all least and the corner of all greatest bounds are tried. Both
are among all the corners, so the bounds found there lie within those found from all corners. Where no value
falls when one range goes over from its least to its greatest bound, the values of all corners lie between
those of these two (`RisesInEach.between`), and both ways give the same bounds.

* `RisesInEach`: values at numbered corners that rise with each range;
* `Bounds.ofText_approximate_within_exact`: the bounds from the extreme corners and from all corners.
-/

namespace RangeCalc

open Binary64

/-- Whether no value at the corners of `n` ranges falls when one range goes over from its least to its
greatest bound, which sets one bit in the number of the corner. -/
def RisesInEach (n : Nat) (F : Nat → Float) : Prop :=
  ∀ i < 2 ^ n, ∀ j < n, i.testBit j = false → F i ≤ F (i + 2 ^ j)

instance (n : Nat) (F : Nat → Float) : Decidable (RisesInEach n F) :=
  inferInstanceAs (Decidable (∀ i < 2 ^ n, ∀ j < n, i.testBit j = false → F i ≤ F (i + 2 ^ j)))

/-! ## Numbers of corners -/

/-- A number that is not zero has a highest bit, without which it is smaller. -/
theorem exists_unset_bit {n i : Nat} (hi : i < 2 ^ n) (hpos : i ≠ 0) :
    ∃ j k, j < n ∧ i.testBit j = true ∧ k.testBit j = false ∧ i = k + 2 ^ j := by
  have hle := Nat.log2_self_le hpos
  have hlt : i < 2 ^ i.log2 * 2 := Nat.lt_log2_self
  refine ⟨i.log2, i - 2 ^ i.log2, ?_, Nat.testBit_log2 hpos, Nat.testBit_lt_two_pow (by omega), by omega⟩
  exact (Nat.pow_lt_pow_iff_right (by decide)).mp (hle.trans_lt hi)

namespace RisesInEach

variable {n : Nat} {F : Nat → Float} (h : RisesInEach n F) (hself : ∀ i < 2 ^ n, (F i).isNaN = false)
include h hself

/-- From the first corner a corner is reached by setting its bits. -/
theorem first_le (i : Nat) (hi : i < 2 ^ n) : F 0 ≤ F i := by
  induction i using Nat.strongRecOn with
  | ind i ih =>
    by_cases hpos : i = 0
    · subst hpos
      exact le_self (hself 0 hi)
    · obtain ⟨j, k, hj, -, hbit, rfl⟩ := exists_unset_bit hi hpos
      have hk : k < k + 2 ^ j := Nat.lt_add_of_pos_right (Nat.two_pow_pos j)
      exact le_of_le_of_le (ih k hk (hk.trans hi)) (h k (hk.trans hi) j hj hbit)

/-- From a corner the last one is reached by setting the bits that are missing. -/
theorem le_last (m : Nat) (hm : m < 2 ^ n) : F (2 ^ n - (m + 1)) ≤ F (2 ^ n - 1) := by
  induction m using Nat.strongRecOn with
  | ind m ih =>
    by_cases hpos : m = 0
    · subst hpos
      exact le_self (hself _ (by omega))
    · obtain ⟨j, k, hj, hset, -, rfl⟩ := exists_unset_bit hm hpos
      have hk : k < k + 2 ^ j := Nat.lt_add_of_pos_right (Nat.two_pow_pos j)
      have hbit : (2 ^ n - (k + 2 ^ j + 1)).testBit j = false := by
        rw [Nat.testBit_two_pow_sub_succ hm, hset, Bool.not_true, Bool.and_false]
      have hstep := h _ (by omega) j hj hbit
      rw [show 2 ^ n - (k + 2 ^ j + 1) + 2 ^ j = 2 ^ n - (k + 1) by omega] at hstep
      exact le_of_le_of_le hstep (ih k hk (hk.trans hm))

/-- The values of all corners lie between those of the first and the last one. -/
theorem between (i : Nat) (hi : i < 2 ^ n) : F 0 ≤ F i ∧ F i ≤ F (2 ^ n - 1) := by
  have hlast := h.le_last hself (2 ^ n - (i + 1)) (by omega)
  rw [show 2 ^ n - (2 ^ n - (i + 1) + 1) = i by omega] at hlast
  exact ⟨h.first_le hself i hi, hlast⟩

end RisesInEach

theorem Binary64.beq_of_le_of_le {x y : Float} (hxy : x ≤ y) (hyx : y ≤ x) : (x == y) = true := by
  obtain ⟨hx, hy⟩ := not_isNaN_of_le hxy
  exact (beq_iff_key hx hy).mpr (le_antisymm ((le_iff_key hx hy).mp hxy) ((le_iff_key hy hx).mp hyx))

namespace Bounds

/-! ## What is tried -/

section

variable {α : Type} {ranges : List (RangeVar α)} {few many : Int}

/-- What is tried above the limit is also tried below it. -/
theorem IsTried.of_le (hmany : ranges.length ≤ many) {a : Assignment α} (h : IsTried ranges few a) :
    IsTried ranges many a := by
  obtain ⟨choose, ha, -⟩ := h
  exact ⟨choose, ha, fun hover => absurd hover (by omega)⟩

variable (hn : (ranges.map (·.name)).Nodup)
include hn

theorem IsTried.exists_corner (hmany : ranges.length ≤ many) {a : Assignment α}
    (h : IsTried ranges many a) : ∃ i < 2 ^ ranges.length, a = corner ranges i := by
  have hexact : decide (many < ranges.length) = false := decide_eq_false (by omega)
  rw [← mem_points_iff hn, hexact, if_neg Bool.false_ne_true, corners, Nat.one_shiftLeft, List.mem_map] at h
  obtain ⟨i, hi, rfl⟩ := h
  exact ⟨i, List.mem_range.mp hi, rfl⟩

/-- The first and the last corner are tried in any case. -/
theorem isTried_extremes (maxExact : Int) :
    IsTried ranges maxExact (corner ranges 0) ∧
      IsTried ranges maxExact (corner ranges (2 ^ ranges.length - 1)) := by
  constructor
  · refine ⟨fun _ => false, ?_, fun _ _ _ => rfl⟩
    rw [← boundsAt_eq_mapIdx _ hn]
    exact boundsAt_congr fun j _ => Nat.zero_testBit j
  · refine ⟨fun _ => true, ?_, fun _ _ _ => rfl⟩
    rw [← boundsAt_eq_mapIdx _ hn]
    exact boundsAt_congr fun j hj => by rw [Nat.testBit_two_pow_sub_one, decide_eq_true hj]

end

/-! ## The bounds -/

section

variable [MathLibrary] {f : Formula Float} {ranges : List (RangeVar Float)}

/-- Bounds of values among which there are those of other bounds: they are found as well, and are no
narrower. -/
theorem HoldsExtremes.within {approx exact : Bounds Float} {P Q : Float → Prop} (hP : approx.HoldsExtremes P)
    (hQ : exact.HoldsExtremes Q) (hPQ : ∀ x, P x → Q x) (hfound : approx.found = true) :
    exact.found = true ∧ exact.min ≤ approx.min ∧ approx.min ≤ approx.max ∧ approx.max ≤ exact.max := by
  obtain ⟨hmin, hmax, hall⟩ := hP.of_found hfound
  have hexact := hQ.found_iff.mpr ⟨_, hPQ _ hmin⟩
  have hbounds := (hQ.of_found hexact).2.2
  exact ⟨hexact, (hbounds _ (hPQ _ hmin)).1, (hall _ hmin).2, (hbounds _ (hPQ _ hmax)).2⟩

/-- The bounds of a text that makes no draw, found from the extreme corners and from all corners. If the
extreme corners give bounds, all corners do, and theirs enclose them. If all corners have values, which rise
with each range, both give bounds, and the same ones. -/
theorem ofText_approximate_within_exact {σ τ : Type} (source : Source Float σ) (source' : Source Float τ)
    {text : String} (hcompile : compile text = .ok f) (hf : f.isProbabilistic = false) (hne : ranges ≠ [])
    (hn : (ranges.map (·.name)).Nodup) {few many : Int} (hfew : few < ranges.length)
    (hmany : ranges.length ≤ many) (s : σ) (t : τ) :
    ∃ approx exact, ofText source text ranges few s = (approx, s) ∧
      ofText source' text ranges many t = (exact, t) ∧
      approx.approximate = true ∧ exact.approximate = false ∧
      (approx.found = true → exact.found = true ∧
        exact.min ≤ approx.min ∧ approx.min ≤ approx.max ∧ approx.max ≤ exact.max) ∧
      ∀ F : Nat → Float, (∀ i < 2 ^ ranges.length, HasFiniteValue f (corner ranges i) (F i)) →
        RisesInEach ranges.length F →
          approx.found = true ∧ (approx.min == exact.min) = true ∧ (approx.max == exact.max) = true := by
  obtain ⟨approx, happrox, hextremes, hflag, -⟩ :=
    ofFormula_of_not_isProbabilistic source text hf hne hn few s
  obtain ⟨exact, hexact, hextremes', hflag', -⟩ :=
    ofFormula_of_not_isProbabilistic source' text hf hne hn many t
  have hwithin := hextremes.within hextremes' fun x ⟨a, ha, hx⟩ => ⟨a, ha.of_le hmany, hx⟩
  refine ⟨approx, exact, by rw [ofText, hcompile, happrox], by rw [ofText, hcompile, hexact],
    hflag.trans (decide_eq_true hfew), hflag'.trans (decide_eq_false (by omega)), hwithin, ?_⟩
  intro F hF hrises
  obtain ⟨hfirst, hlast⟩ := isTried_extremes hn few
  have hpos := Nat.two_pow_pos ranges.length
  have hvalue₀ := hF 0 hpos
  have hvalue₁ := hF (2 ^ ranges.length - 1) (by omega)
  have hfound : approx.found = true := hextremes.found_iff.mpr ⟨F 0, _, hfirst, hvalue₀⟩
  obtain ⟨hfound', hmin, -, hmax⟩ := hwithin hfound
  have hbounds := (hextremes.of_found hfound).2.2
  obtain ⟨⟨a, ha, hva⟩, ⟨b, hb, hvb⟩, -⟩ := hextremes'.of_found hfound'
  have hbetween := hrises.between fun i hi => not_isNaN_of_isFinite (hF i hi).finite
  -- the exact bounds are values at corners, and so lie between the values at the extreme corners
  obtain ⟨i, hi, rfl⟩ := ha.exists_corner hn hmany
  obtain ⟨k, hk, rfl⟩ := hb.exists_corner hn hmany
  rw [hva.unique (hF i hi)] at hmin ⊢
  rw [hvb.unique (hF k hk)] at hmax ⊢
  exact ⟨hfound,
    beq_of_le_of_le (le_of_le_of_le (hbounds _ ⟨_, hfirst, hvalue₀⟩).1 (hbetween i hi).1) hmin,
    beq_of_le_of_le hmax (le_of_le_of_le (hbetween k hk).2 (hbounds _ ⟨_, hlast, hvalue₁⟩).2)⟩

end

/-- A product of positive ranges with an offset, which rises with all three. -/
theorem productAndOffset_same_bounds :
    let ranges : List (RangeVar Float) := [⟨"a", ⟨1, 2⟩⟩, ⟨"b", ⟨3, 4⟩⟩, ⟨"c", ⟨-1, 1⟩⟩]
    let f : Formula Float := .binary .add (.binary .mul (.var "a") (.var "b")) (.var "c")
    let F (i : Nat) : Float := [2, 5, 3, 7, 4, 7, 5, 9].getD i 0
    compile "a * b + c" = .ok f ∧ f.isProbabilistic = false ∧ ranges ≠ [] ∧ (ranges.map (·.name)).Nodup ∧
      (2 : Int) < ranges.length ∧ (ranges.length : Int) ≤ 8 ∧
      (∀ i < 2 ^ ranges.length, HasFiniteValue f (corner ranges i) (F i)) ∧ RisesInEach ranges.length F ∧
      ∃ approx exact, ofText Generator.source "a * b + c" ranges 2 (.ofSeed 0) = (approx, .ofSeed 0) ∧
        ofText Generator.source "a * b + c" ranges 8 (.ofSeed 0) = (exact, .ofSeed 0) ∧
        approx.found = true ∧ exact.found = true ∧
        (approx.min == exact.min) = true ∧ (approx.max == exact.max) = true := by
  intro ranges f F
  have hcompile : compile "a * b + c" = .ok f := by cbv
  have hn : (ranges.map (·.name)).Nodup := by decide
  have hF : ∀ i < 2 ^ ranges.length, HasFiniteValue f (corner ranges i) (F i) := by
    have hvalues : ∀ i < 2 ^ ranges.length, finiteValue? f (corner ranges i) = some (F i) := by
      decide +kernel
    exact fun i hi => (finiteValue?_eq_some_iff rfl).mp (hvalues i hi)
  have hrises : RisesInEach ranges.length F := by decide +kernel
  obtain ⟨approx, exact, happrox, hexact, -, -, hwithin, hsame⟩ :=
    ofText_approximate_within_exact Generator.source Generator.source hcompile rfl (by simp [ranges]) hn
      (by decide : (2 : Int) < ranges.length) (by decide : (ranges.length : Int) ≤ 8) (.ofSeed 0) (.ofSeed 0)
  obtain ⟨hfound, hmin, hmax⟩ := hsame F hF hrises
  exact ⟨hcompile, rfl, by simp [ranges], hn, by decide, by decide, hF, hrises, approx, exact, happrox, hexact,
    hfound, (hwithin hfound).1, hmin, hmax⟩

end Bounds

end RangeCalc
