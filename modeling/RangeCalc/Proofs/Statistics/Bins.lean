import RangeCalc.Proofs.Statistics.Tiling

/-!
# Bins with finite bounds

The bound of a bin is the least number and a multiple of the width, in units of the scale. Rounding makes the
multiple larger by less than what the last bin leaves, as long as there are not too many bins. So each bound
is below the greatest number or above it by less than half a step of the largest numbers, and is finite.

* `Grid.Divides.finite_bound`: bounds of bins;
* `finite_histogramOfFinite`: all numbers of a histogram.
-/

namespace RangeCalc.Statistics

open Binary64

variable [MathLibrary] {x y : Float} {n : Nat}

/-- A bin whose bounds, middle and share are finite. -/
structure Bin.Finite (b : Bin Float) : Prop where
  lower : b.lower.isFinite = true
  upper : b.upper.isFinite = true
  center : b.center.isFinite = true
  probability : b.probability.isFinite = true

theorem Bin.finite_middle (hx : x.isFinite = true) (hy : y.isFinite = true) :
    (Bin.middle x y).isFinite = true := by
  refine (rounds_add (Grid.finite_div_scale hx (.inr rfl)).1
    (Grid.finite_div_scale hy (.inr rfl)).1).isFinite_of_le_largest ?_
  have hxle := Grid.natAbs_half_le hx
  have hyle := Grid.natAbs_half_le hy
  rw [← Int.cast_add, ← Int.cast_abs, ← Nat.cast_natAbs, Nat.cast_le]
  omega

theorem Bin.finite {b : Bin Float} (hlower : b.lower.isFinite = true) (hupper : b.upper.isFinite = true)
    (hcount : b.count ≤ 2 ^ 53) (htotal : 0 < b.total ∧ b.total ≤ 2 ^ 53) : b.Finite where
  lower := hlower
  upper := hupper
  center := Bin.finite_middle hlower hupper
  probability := (finite_div_ofCount (units_ofCount hcount).1 htotal.2 htotal.1).1

namespace Grid

/-! ## Bounds -/

omit [MathLibrary] in
/-- What three roundings make of a multiple of the width: of the span, of the width and of the multiple. -/
theorem multiple_le {span delta width multiple : ℚ} {i : Nat} (hspan : 0 ≤ span) (hdelta : 0 ≤ delta)
    (hi : i < n) (hn : n ≤ 2 ^ 50) (hdeltale : delta ≤ span + span / 2 ^ 53 + 1 / 2)
    (hwidth : width ≤ delta / n + delta / n / 2 ^ 53 + 1 / 2)
    (hmultiple : multiple ≤ width * i + width * i / 2 ^ 53 + 1 / 2) :
    width * i ≤ delta + 2 ^ 49 ∧ multiple ≤ span + 2 ^ 51 := by
  have hpos : (0 : ℚ) < n := by exact_mod_cast (Nat.zero_le i).trans_lt hi
  have hin : (i : ℚ) + 1 ≤ n := by exact_mod_cast hi
  have hn' : (n : ℚ) ≤ 2 ^ 50 := by exact_mod_cast hn
  -- the last bin is at least one part in `2 ^ 50`
  have hshare : (i : ℚ) / n ≤ 1 - 1 / 2 ^ 50 := by
    rw [div_le_iff₀ hpos]
    linarith
  have hpart := mul_le_mul_of_nonneg_left hshare hdelta
  have hproduct : width * i ≤ delta * (i / n) + delta * (i / n) / 2 ^ 53 + i / 2 := by
    calc width * i ≤ (delta / n + delta / n / 2 ^ 53 + 1 / 2) * i :=
          mul_le_mul_of_nonneg_right hwidth i.cast_nonneg
      _ = delta * (i / n) + delta * (i / n) / 2 ^ 53 + i / 2 := by ring
  constructor <;> linarith

variable {g : Grid Float} (hg : g.Divides) (hle : units g.low ≤ units g.high) (hsize : g.size ≤ 2 ^ 50)

include hg hle hsize

/-- The multiple of the width is at most the span, up to what is lost in the largest numbers. -/
theorem Divides.finite_multiple {i : Nat} (hi : i < g.size) :
    (g.width * ofCount i).isFinite = true ∧ 0 ≤ units (g.width * ofCount i) ∧
      units (g.width * ofCount i) ≤
        units (g.high / g.scale) - units (g.low / g.scale) + (2 ^ 51 : Nat) := by
  obtain ⟨m, hm, hscale⟩ := hg.scale
  have hlow := (finite_div_scale hg.low hm).1
  have hhigh := (finite_div_scale hg.high hm).1
  have hspanle := units_div_mono hg.low hg.high hm hle
  rw [← hscale] at hlow hhigh hspanle
  have hpos : 0 < g.size := by omega
  have hspan : (0 : ℚ) ≤ units (g.high / g.scale) - units (g.low / g.scale) :=
    sub_nonneg.mpr (by exact_mod_cast hspanle)
  have hdelta := rounds_sub hhigh hlow
  have hdelta0 : (0 : ℚ) ≤ units (g.high / g.scale - g.low / g.scale) := by
    exact_mod_cast hdelta.units_nonneg hg.span hspan
  have hwidthFinite := hg.rounds_width.2
  have hwidth := rounds_div_ofCount hg.span (n := g.size) (by omega) hpos
  rw [← hg.width] at hwidth
  have hshare0 : (0 : ℚ) ≤ units (g.high / g.scale - g.low / g.scale) / g.size :=
    div_nonneg hdelta0 g.size.cast_nonneg
  have hwidth0 : (0 : ℚ) ≤ units g.width := by
    exact_mod_cast hwidth.units_nonneg hwidthFinite hshare0
  have hmultiple := rounds_mul_ofCount hwidthFinite (n := i) (by omega)
  have hmultiple0 : (0 : ℚ) ≤ units g.width * i := mul_nonneg hwidth0 i.cast_nonneg
  have hdeltale := hdelta.units_le_add hg.span hspan
  have hwidthle := hwidth.units_le_add hwidthFinite hshare0
  have hbelow := (multiple_le hspan hdelta0 hi hsize hdeltale hwidthle le_rfl).1
  have hfinite : (g.width * ofCount i).isFinite = true := by
    refine hmultiple.isFinite_of_lt ?_
    obtain ⟨l, hl, hhalf⟩ := exists_halfStep_eq
    have hlarge := (natAbs_units_le hg.span).2
    have hstep : 2 ^ 49 < halfStep := by
      rw [hhalf]
      exact Nat.pow_lt_pow_right (by decide) (by omega)
    rw [abs_of_nonneg hmultiple0]
    refine hbelow.trans_lt ?_
    have hsum : units (g.high / g.scale - g.low / g.scale) + (2 ^ 49 : Nat) <
        ((2 ^ 54 - 1) * halfStep : Nat) := by
      rw [largestUnits] at hlarge
      omega
    exact_mod_cast hsum
  refine ⟨hfinite, hmultiple.units_nonneg hfinite hmultiple0, ?_⟩
  have h := (multiple_le hspan hdelta0 hi hsize hdeltale hwidthle
    (hmultiple.units_le_add hfinite hmultiple0)).2
  exact_mod_cast h

/-- The bound of a bin in units of the scale is finite, and not beyond the largest number divided by the
scale. -/
theorem Divides.finite_scaled_bound {i m k : Nat} (hi : i < g.size) (hm : m = 1 ∨ m = 2)
    (hscale : g.scale = ofCount m) (hstep : m * 2 ^ k = 2 * halfStep) (hk : 53 ≤ k) :
    (g.low / g.scale + g.width * ofCount i).isFinite = true ∧
      (units (g.low / g.scale + g.width * ofCount i)).natAbs ≤ (2 ^ 53 - 1) * 2 ^ k := by
  obtain ⟨hmultiple, hmultiple0, hmultiplele⟩ := hg.finite_multiple hle hsize hi
  have hlow := (finite_div_scale hg.low hm).1
  have hlowle := natAbs_div_scale_le hg.low hm hstep
  have hhighle := natAbs_div_scale_le hg.high hm hstep
  rw [hscale] at hmultiplele ⊢
  have hsum : |(units (g.low / ofCount m) + units (g.width * ofCount i) : ℚ)| <
      ((2 ^ 53 - 1 : Nat) + 1 / 2) * 2 ^ k := by
    have hpow := Nat.pow_le_pow_right (show 0 < 2 by decide) hk
    have hdouble : 2 * (units (g.low / ofCount m) + units (g.width * ofCount i)).natAbs <
        (2 * (2 ^ 53 - 1) + 1) * 2 ^ k := by omega
    have hdouble' : 2 * |(units (g.low / ofCount m) + units (g.width * ofCount i) : ℚ)| <
        ((2 * (2 ^ 53 - 1) + 1) * 2 ^ k : Nat) := by
      rw [← Int.cast_add, ← Int.cast_abs, ← Nat.cast_natAbs]
      exact_mod_cast hdouble
    push_cast at hdouble' ⊢
    linarith
  exact (rounds_add hlow hmultiple).finite_of_lt_half (by decide) (by decide) (largest_of_step hm hstep).2 hsum

/-- The bound of a bin is finite. -/
theorem Divides.finite_bound {i : Nat} (hi : i < g.size) : (g.bound i).isFinite = true := by
  obtain ⟨m, hm, hscale⟩ := hg.scale
  obtain ⟨k, hk, hstep⟩ := exists_step hm
  obtain ⟨hplace, hplacele⟩ := hg.finite_scaled_bound hle hsize hi hm hscale hstep hk
  rw [bound, hscale]
  rw [hscale] at hplace hplacele
  refine (rounds_mul_ofCount hplace (by omega)).isFinite_of_le_largest ?_
  rw [abs_mul, Nat.abs_cast, ← Int.cast_abs, ← Nat.cast_natAbs, (largest_of_step hm hstep).1]
  exact_mod_cast Nat.mul_le_mul_right m hplacele

end Grid

/-- The bins of finite numbers are finite, unless there are too many of them. -/
theorem finite_histogramOfFinite {xs : List Float} {size : Nat} {bins : List (Bin Float)}
    (hfinite : ∀ x ∈ xs, x.isFinite = true) (hlength : xs.length ≤ 2 ^ 53)
    (hsize : 1 ≤ size ∧ size ≤ 2 ^ 50) (h : histogramOfFinite xs size = .ok bins) :
    ∀ b ∈ bins, b.Finite := by
  cases xs with
  | nil =>
    obtain rfl := Except.ok.inj h
    exact fun b hb => absurd hb List.not_mem_nil
  | cons first rest =>
    have htotal : 0 < (first :: rest).length := Nat.succ_pos _
    intro b hb
    obtain ⟨b', rfl, hlower, hupper, hcount, htotal'⟩ | ⟨g, rfl, hfills⟩ :=
      histogramOfFinite_cases hfinite hsize.1 h
    · obtain rfl := List.mem_singleton.mp hb
      obtain ⟨hleast, -⟩ := isLeast_least hfinite
      obtain ⟨hgreatest, -⟩ := isGreatest_greatest hfinite
      exact Bin.finite (hlower ▸ hfinite _ hleast) (hupper ▸ hfinite _ hgreatest) (hcount ▸ hlength)
        (htotal' ▸ ⟨htotal, hlength⟩)
    · obtain ⟨i, hi, rfl⟩ := List.mem_iff_getElem.mp hb
      obtain ⟨hlower, hupper, hcount, htotal'⟩ := hfills.bin i hi
      have horder := (hfills.inside _ hfills.low_mem).2.2
      have hbound {j : Nat} (hj : j < g.size) : (g.bound j).isFinite = true :=
        hfills.divides.finite_bound horder hsize.2 hj
      rw [hfills.length] at hi
      refine Bin.finite (hlower ▸ hbound hi) ?_ ?_ (htotal' ▸ ⟨htotal, hlength⟩)
      · rw [hupper, Grid.upperBound]
        split
        · exact hfills.divides.high
        · exact hbound (by omega)
      · rw [hcount]
        exact List.count_le_length.trans (by rwa [List.length_map])

end RangeCalc.Statistics
