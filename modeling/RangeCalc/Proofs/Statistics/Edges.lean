import RangeCalc.Proofs.Number.Error
import RangeCalc.Proofs.Statistics.Bins

/-!
# Numbers near the bounds of bins

The place of a number comes from a difference and a quotient, the bound of a bin from a product and a sum. All
of them are rounded, so a number that is next to a bound may be counted on the other side of it.

* `slack`: how far a number may be beyond the bounds of its bin;
* `Grid.Fills.bound_le_add`, `Grid.Fills.le_bound_add`, `Grid.Fills.exists_bin`: it is not farther beyond
  them;
* `Grid.Fills.bound_mono`, `Grid.Fills.units_first`: the bounds are in order, and the first one is the least
  number;
* `holds`: whether a number is between the bounds of a bin;
* `Grid.Fills.holds_of_clear`: away from the bounds a number is between those of its own bin;
* `Grid.Fills.count_eq`: if all numbers are, each bin counts the numbers between its bounds.
-/

namespace RangeCalc.Statistics

open Binary64

variable [MathLibrary] {x y : Float} {i j n : Nat}

/-! ## Errors -/

section

omit [MathLibrary]

/-- A number is what another one is rounded to, up to half a unit and one part in `2 ^ 53`. -/
def Near (a b : ℚ) : Prop := |b - a| ≤ |a| / 2 ^ 53 + 1 / 2

theorem near_of_rounds {a : ℚ} (hx : Rounds a x) (hfinite : x.isFinite = true) : Near a (units x) :=
  hx.abs_sub_le hfinite

theorem Near.abs_le {a b c : ℚ} (h : Near a b) (ha : |a| ≤ c) : |b| ≤ c + c / 2 ^ 53 + 1 / 2 := by
  have hsplit : |b| ≤ |b - a| + |a| := by simpa using abs_add_le (b - a) a
  rw [Near] at h
  linarith

theorem Near.scaled {A y Y s : ℚ} (hs : 0 < s) (hy : |y| ≤ A) (hY : Near (y / s) Y) :
    |Y| ≤ A / s + A / s / 2 ^ 53 + 1 / 2 := by
  refine hY.abs_le ?_
  rw [abs_div, abs_of_pos hs]
  exact div_le_div_of_nonneg_right hy hs.le

section

variable {A low high x L H X D Δ W M P s n : ℚ} (hs : s = 1 ∨ s = 2) (hlow : |low| ≤ A) (hx : |x| ≤ A)
  (hL : Near (low / s) L) (hX : Near (x / s) X) (hD : Near (X - L) D)

include hs hlow hx hL hX hD

/-- The difference of two numbers is at most twice the larger one, up to rounding. -/
theorem offset_le : s * |D| ≤ 2 * A + A / 2 ^ 50 + 4 := by
  have hs0 : 0 < s := by rcases hs with rfl | rfl <;> norm_num
  have hD := hD.abs_le ((abs_sub X L).trans (add_le_add (hX.scaled hs0 hx) (hL.scaled hs0 hlow)))
  have hA : 0 ≤ A := (abs_nonneg x).trans hx
  rcases hs with rfl | rfl <;> linarith

/-- How far a bound is from a number, compared with how far the multiple of the width is from the difference
between the number and the least one. All of these are rounded. -/
theorem abs_bound_sub_le (hn : 0 ≤ n ∧ n ≤ 2 ^ 50) (hhigh : |high| ≤ A) (hH : Near (high / s) H)
    (hΔ : Near (H - L) Δ) (hW0 : 0 ≤ W) (hW : W ≤ Δ + n / 2) (hM : Near W M) (hP : Near (L + M) P) :
    |s * P - (x + s * (W - D))| ≤ 9 * A / 2 ^ 53 + 6 := by
  have hs0 : 0 < s := by rcases hs with rfl | rfl <;> norm_num
  have hLle := hL.scaled hs0 hlow
  have hXle := hX.scaled hs0 hx
  have hΔle := hΔ.abs_le ((abs_sub H L).trans (add_le_add (hH.scaled hs0 hhigh) hLle))
  have hWle : |W| ≤ |Δ| + n / 2 := by
    rw [abs_of_nonneg hW0]
    linarith [le_abs_self Δ]
  have hMle := hM.abs_le hWle
  have hDerror : |D - (X - L)| ≤ (|X| + |L|) / 2 ^ 53 + 1 / 2 := by
    rw [Near] at hD
    linarith [abs_sub X L]
  have hPerror : |P - (L + M)| ≤ (|L| + |M|) / 2 ^ 53 + 1 / 2 := by
    rw [Near] at hP
    linarith [abs_add_le L M]
  have hMerror : |M - W| ≤ |W| / 2 ^ 53 + 1 / 2 := hM
  have hXerror : |X - x / s| ≤ A / s / 2 ^ 53 + 1 / 2 := by
    have hscaled : |x / s| ≤ A / s := by
      rw [abs_div, abs_of_pos hs0]
      exact div_le_div_of_nonneg_right hx hs0.le
    rw [Near] at hX
    linarith
  rw [abs_le] at hDerror hPerror hMerror hXerror ⊢
  rcases hs with rfl | rfl <;> constructor <;> linarith

end

/-- How far numbers of at most `A` units may be beyond the bounds of their bins: one part in `2 ^ 49`, and a unit
for each bin. -/
def slack (A size : Nat) : ℚ := A / 2 ^ 49 + size + 8

theorem slack_nonneg (A size : Nat) : 0 ≤ slack A size := by
  rw [slack]
  positivity

/-- One has many units. -/
theorem two_pow_le_one : 2 ^ 60 ≤ Binary64.one := by
  obtain ⟨k, hk, hone⟩ := exists_one_eq
  rw [hone]
  exact Nat.pow_le_pow_right (by decide) (hk ▸ by decide)

/-- The quotient of an integer and a step, where the integer is less than a multiple of the step. -/
theorem quotient_le_of_lt {difference step one p : ℚ} (hstep : 0 < step) (hone : 0 ≤ one)
    (hp : p * step ≤ 2 ^ 53) (hlt : difference ≤ p * step - 1) :
    difference / step * one ≤ p * one - p * one / 2 ^ 53 := by
  have hle : difference / step ≤ p - p / 2 ^ 53 := by
    rw [div_le_iff₀ hstep]
    linarith
  calc difference / step * one ≤ (p - p / 2 ^ 53) * one := mul_le_mul_of_nonneg_right hle hone
    _ = p * one - p * one / 2 ^ 53 := by ring

/-- A multiple of the width that the rounded quotient is not below is at most the offset, up to one part in
`2 ^ 52`. -/
theorem mul_le_of_quotient {offset width one : ℚ} (hwidth : 0 < width) (hoffset : 0 ≤ offset)
    (hone : 2 ^ 60 ≤ one)
    (hi : i * one ≤ offset / width * one + offset / width * one / 2 ^ 53 + 1 / 2) :
    width * i ≤ offset + offset / 2 ^ 52 := by
  rcases Nat.eq_zero_or_pos i with rfl | hpos
  · rw [Nat.cast_zero, mul_zero]
    positivity
  have hone0 : 0 < one := lt_of_lt_of_le (by norm_num) hone
  have hscaled : width * i * one ≤ (offset + offset / 2 ^ 53) * one + width / 2 := by
    calc width * i * one = width * (i * one) := by ring
      _ ≤ width * (offset / width * one + offset / width * one / 2 ^ 53 + 1 / 2) :=
          mul_le_mul_of_nonneg_left hi hwidth.le
      _ = (offset + offset / 2 ^ 53) * one + width / 2 := by field_simp
  -- the rounding of the quotient is less than a part of the multiple
  have hfirst : width ≤ width * i := le_mul_of_one_le_right hwidth.le (by exact_mod_cast hpos)
  have hpart : width / 2 ≤ width * i / 2 ^ 61 * one := by
    calc width / 2 ≤ width * i / 2 ^ 61 * 2 ^ 60 := by linarith
      _ ≤ width * i / 2 ^ 61 * one := mul_le_mul_of_nonneg_left hone (by positivity)
  have hrest : width * i ≤ offset + offset / 2 ^ 53 + width * i / 2 ^ 61 := by
    refine le_of_mul_le_mul_right ?_ hone0
    linarith
  linarith

end

namespace Grid

variable {g : Grid Float}

/-- The multiples of the width up to the last bin are at most the span, up to half a unit for each. -/
theorem Divides.width_mul_le (hg : g.Divides) (hspan : 0 ≤ units (g.offset g.high)) (hsize : g.size ≤ 2 ^ 50)
    (hi : i < g.size) : (units g.width * i : ℚ) ≤ units (g.offset g.high) + g.size / 2 := by
  have hpos : (0 : ℚ) < g.size := by exact_mod_cast (Nat.zero_le i).trans_lt hi
  have hspan' : (0 : ℚ) ≤ units (g.offset g.high) := by exact_mod_cast hspan
  have hwidth := rounds_div_ofCount hg.span (n := g.size) (by omega) (by omega)
  rw [← hg.width] at hwidth
  have hshare : (0 : ℚ) ≤ units (g.offset g.high) / g.size := div_nonneg hspan' hpos.le
  have hle := hwidth.units_le_add hg.rounds_width.2 hshare
  have hin : (i : ℚ) + 1 ≤ g.size := by exact_mod_cast hi
  have hin' : (i : ℚ) ≤ 2 ^ 53 := by
    exact_mod_cast (show i ≤ 2 ^ 53 by omega)
  calc (units g.width * i : ℚ)
      ≤ (units (g.offset g.high) / g.size + units (g.offset g.high) / g.size / 2 ^ 53 + 1 / 2) * i :=
        mul_le_mul_of_nonneg_right hle i.cast_nonneg
    _ = units (g.offset g.high) / g.size * (i + i / 2 ^ 53) + i / 2 := by ring
    _ ≤ units (g.offset g.high) / g.size * g.size + g.size / 2 :=
        add_le_add (mul_le_mul_of_nonneg_left (by linarith) hshare) (by linarith)
    _ = units (g.offset g.high) + g.size / 2 := by rw [div_mul_cancel₀ _ hpos.ne']

variable {xs : List Float} {bins : List (Bin Float)} (h : g.Fills xs bins) (hsize : g.size ≤ 2 ^ 50)

include h in
theorem Fills.finite_offset (hx : x ∈ xs) : (g.offset x).isFinite = true ∧ 0 ≤ units (g.offset x) := by
  obtain ⟨hfinite, hlow, hhigh⟩ := h.inside x hx
  obtain ⟨hoffset, hnonneg, -⟩ := h.divides.finite_sub hfinite hlow hhigh
  exact ⟨hoffset, hnonneg⟩

include h in
/-- The quotient of the offset and the width. -/
theorem Fills.rounds_quotient (hx : x ∈ xs) :
    Rounds (units (g.offset x) / units g.width * Binary64.one) (g.quotient x) :=
  rounds_div (h.finite_offset hx).1 h.divides.rounds_width.2 h.width_pos.ne'

include h hsize in
/-- Below the place of a number, multiples of the width are at most the offset, up to rounding. -/
theorem Fills.width_mul_le_offset (hx : x ∈ xs) (hi : i ≤ g.place x) :
    (units g.width * i : ℚ) ≤ units (g.offset x) + units (g.offset x) / 2 ^ 52 + g.size / 2 := by
  have hsize0 : (0 : ℚ) ≤ g.size := Nat.cast_nonneg _
  have hnonneg : (0 : ℚ) ≤ units (g.offset x) := by exact_mod_cast (h.finite_offset hx).2
  have hwidth : (0 : ℚ) < units g.width := by exact_mod_cast h.width_pos
  obtain ⟨-, hfinite, hplace⟩ | ⟨hge, hplace⟩ := index?_cases (h.index?_eq hx)
  · have hquotient : (i * Binary64.one : ℚ) ≤ units (g.quotient x) := by
      rw [floorInt] at hplace
      have hquotient0 : 0 ≤ units (g.quotient x) := by
        refine (h.rounds_quotient hx).units_nonneg hfinite ?_
        exact mul_nonneg (div_nonneg hnonneg hwidth.le) one_cast_pos.le
      have hfloor0 := Int.ediv_nonneg hquotient0 (Int.natCast_nonneg Binary64.one)
      have hfloor : (i : Int) ≤ units (g.quotient x) / Binary64.one := by omega
      have hle := (Int.le_ediv_iff_mul_le (by exact_mod_cast one_pos)).mp hfloor
      exact_mod_cast hle
    have hlarge : (2 ^ 60 : ℚ) ≤ Binary64.one := by exact_mod_cast two_pow_le_one
    have hle := (h.rounds_quotient hx).units_le_add hfinite
      (mul_nonneg (div_nonneg hnonneg hwidth.le) one_cast_pos.le)
    linarith [mul_le_of_quotient hwidth hnonneg hlarge (hquotient.trans hle)]
  · -- the greatest number has the offset of the span
    have hpos := h.divides.size.1
    obtain ⟨hfinite, hlow, hhigh⟩ := h.inside x hx
    have hspan := (h.finite_offset h.high_mem).2
    have hle := h.divides.width_mul_le hspan hsize (i := i) (by omega)
    rw [lt_iff_units hfinite h.divides.high, not_lt] at hge
    have hoffset := h.divides.offset_mono h.divides.high hfinite (hlow.trans hhigh) hge hhigh
    have hoffset' : (units (g.offset g.high) : ℚ) ≤ units (g.offset x) := by exact_mod_cast hoffset
    linarith

include h hsize in
/-- Above the place of a number, multiples of the width are greater than the offset. -/
theorem Fills.offset_lt_width_mul (hx : x ∈ xs) (hj : g.place x < j) (hjsize : j < g.size) :
    (units (g.offset x) : ℚ) < units g.width * j := by
  have hwidth : (0 : ℚ) < units g.width := by exact_mod_cast h.width_pos
  obtain ⟨-, hfinite, hplace⟩ | ⟨-, hplace⟩ := index?_cases (h.index?_eq hx)
  · by_contra hge
    rw [not_lt, ← le_div_iff₀' hwidth] at hge
    obtain ⟨hcount, hunits⟩ := units_ofCount (n := j) (by omega)
    have hkey : key (ofCount j : Float) ≤ key (g.quotient x) := by
      refine (Rounds.self hcount).key_mono (h.rounds_quotient hx) ?_
      rw [hunits]
      push_cast
      exact mul_le_mul_of_nonneg_right hge one_cast_pos.le
    rw [key_of_isFinite hcount, key_of_isFinite hfinite, hunits] at hkey
    have hfloor : (j : Int) ≤ floorInt (g.quotient x) :=
      (Int.le_ediv_iff_mul_le (by exact_mod_cast one_pos)).mpr hkey
    omega
  · omega

include h hsize in
/-- A bound is a number in units of the scale, times the scale. -/
theorem Fills.units_bound {m : Nat} (hi : i < g.size) (hm : m = 1 ∨ m = 2) (hscale : g.scale = ofCount m) :
    (g.low / g.scale + g.width * ofCount i).isFinite = true ∧
      units (g.bound i) = m * units (g.low / g.scale + g.width * ofCount i) := by
  have horder := (h.inside _ h.low_mem).2.2
  obtain ⟨k, hk, hstep⟩ := exists_step hm
  obtain ⟨hfinite, -⟩ := h.divides.finite_scaled_bound horder hsize hi hm hscale hstep hk
  have hbound := h.divides.finite_bound horder hsize hi
  have hrounds : Rounds (units (g.low / g.scale + g.width * ofCount i) * m) (g.bound i) := by
    have hproduct := rounds_mul_ofCount hfinite (n := m) (by omega)
    rwa [← hscale] at hproduct
  have hcast : (units (g.low / g.scale + g.width * ofCount i) * m : ℚ) =
      ((m * units (g.low / g.scale + g.width * ofCount i) : Int) : ℚ) := by
    push_cast
    ring
  rw [hcast] at hrounds
  obtain ⟨q, e, hq, -, hgrid⟩ := exists_grid hfinite
  refine ⟨hfinite, ?_⟩
  rcases hm with rfl | rfl
  · exact hrounds.exact_of_isFinite hbound hq (k := e) (by rw [Int.natAbs_mul, hgrid]; simp)
  · exact hrounds.exact_of_isFinite hbound hq (k := e + 1) (by
      rw [Int.natAbs_mul, hgrid, Nat.pow_succ]
      simp
      ring)

section

variable {A : Nat} (hA : ∀ y ∈ xs, (units y).natAbs ≤ A)

include h hsize hA

theorem Fills.abs_bound_sub_le {m : Nat} (hx : x ∈ xs) (hi : i < g.size) (hm : m = 1 ∨ m = 2)
    (hscale : g.scale = ofCount m) :
    |units (g.bound i) - (units x + m * (units g.width * i - units (g.offset x)) : ℚ)| ≤
        9 * A / 2 ^ 53 + 6 ∧
      m * (units (g.offset x) : ℚ) ≤ 2 * A + A / 2 ^ 50 + 4 := by
  have hlarge {y : Float} (hy : y ∈ xs) : |(units y : ℚ)| ≤ A := by
    rw [← Int.cast_abs, ← Nat.cast_natAbs]
    exact_mod_cast hA y hy
  have hnear {y : Float} (hy : y ∈ xs) : Near (units y / m) (units (y / g.scale)) := by
    obtain ⟨hfinite, hrounds⟩ := finite_div_scale (h.inside y hy).1 hm
    exact hscale ▸ near_of_rounds hrounds hfinite
  have hoffset {y : Float} (hy : y ∈ xs) :
      Near (units (y / g.scale) - units (g.low / g.scale)) (units (g.offset y)) := by
    have hfinite {z : Float} (hz : z ∈ xs) : (z / g.scale).isFinite = true :=
      hscale ▸ (finite_div_scale (h.inside z hz).1 hm).1
    exact near_of_rounds (rounds_sub (hfinite hy) (hfinite h.low_mem)) (h.finite_offset hy).1
  have hm' : (m : ℚ) = 1 ∨ (m : ℚ) = 2 := by exact_mod_cast hm
  have horder := (h.inside _ h.low_mem).2.2
  obtain ⟨hfinite, hunits⟩ := h.units_bound hsize hi hm hscale
  obtain ⟨hmultiple, -, -⟩ := h.divides.finite_multiple horder hsize hi
  have hlowFinite : (g.low / g.scale).isFinite = true := hscale ▸ (finite_div_scale h.divides.low hm).1
  have hwidth0 : (0 : ℚ) ≤ units g.width := by exact_mod_cast h.width_pos.le
  have hbound := RangeCalc.Statistics.abs_bound_sub_le hm' (hlarge h.low_mem) (hlarge hx) (hnear h.low_mem)
    (hnear hx) (hoffset hx) (n := g.size) ⟨Nat.cast_nonneg _, by exact_mod_cast hsize⟩ (hlarge h.high_mem)
    (hnear h.high_mem) (hoffset h.high_mem) (mul_nonneg hwidth0 i.cast_nonneg)
    (h.divides.width_mul_le (h.finite_offset h.high_mem).2 hsize hi)
    (near_of_rounds (rounds_mul_ofCount h.divides.rounds_width.2 (by omega)) hmultiple)
    (near_of_rounds (rounds_add hlowFinite hmultiple) hfinite)
  have hle := offset_le hm' (hlarge h.low_mem) (hlarge hx) (hnear h.low_mem) (hnear hx) (hoffset hx)
  rw [abs_of_nonneg (by exact_mod_cast (h.finite_offset hx).2)] at hle
  refine ⟨?_, hle⟩
  rw [hunits]
  exact_mod_cast hbound

/-- A number is not far below the lower bound of its bin, nor of one before. -/
theorem Fills.bound_le_add (hx : x ∈ xs) (hi : i ≤ g.place x) :
    (units (g.bound i) : ℚ) ≤ units x + slack A g.size := by
  obtain ⟨m, hm, hscale⟩ := h.divides.scale
  have hplace := h.place_lt hx
  have hlength := h.length
  obtain ⟨hbound, hoffset⟩ := h.abs_bound_sub_le hsize hA hx (i := i) (by omega) hm hscale
  have hmultiple := h.width_mul_le_offset hsize hx hi
  have hm' : (m : ℚ) = 1 ∨ (m : ℚ) = 2 := by exact_mod_cast hm
  have hA0 : (0 : ℚ) ≤ A := Nat.cast_nonneg _
  have hsize0 : (0 : ℚ) ≤ g.size := Nat.cast_nonneg _
  rw [abs_le] at hbound
  rw [slack]
  rcases hm' with hm' | hm' <;> rw [hm'] at hbound hoffset <;> linarith

/-- A number is not far above the upper bound of its bin, nor of one after. -/
theorem Fills.le_bound_add (hx : x ∈ xs) (hj : g.place x < j) (hjsize : j < g.size) :
    (units x : ℚ) ≤ units (g.bound j) + slack A g.size := by
  obtain ⟨m, hm, hscale⟩ := h.divides.scale
  obtain ⟨hbound, -⟩ := h.abs_bound_sub_le hsize hA hx hjsize hm hscale
  have hmultiple := h.offset_lt_width_mul hsize hx hj hjsize
  have hm' : (m : ℚ) = 1 ∨ (m : ℚ) = 2 := by exact_mod_cast hm
  have hA0 : (0 : ℚ) ≤ A := Nat.cast_nonneg _
  have hsize0 : (0 : ℚ) ≤ g.size := Nat.cast_nonneg _
  rw [abs_le] at hbound
  rw [slack]
  rcases hm' with hm' | hm' <;> rw [hm'] at hbound <;> linarith

end

/-! ## Order of the bounds -/

include h hsize in
theorem Fills.bound_mono (hij : i ≤ j) (hj : j < g.size) : units (g.bound i) ≤ units (g.bound j) := by
  obtain ⟨m, hm, hscale⟩ := h.divides.scale
  have horder := (h.inside _ h.low_mem).2.2
  have hwidth0 : (0 : ℚ) ≤ units g.width := by exact_mod_cast h.width_pos.le
  have hwidth := h.divides.rounds_width.2
  have hlow : (g.low / g.scale).isFinite = true := hscale ▸ (finite_div_scale h.divides.low hm).1
  obtain ⟨hifinite, hiunits⟩ := h.units_bound hsize (i := i) (by omega) hm hscale
  obtain ⟨hjfinite, hjunits⟩ := h.units_bound hsize hj hm hscale
  obtain ⟨himultiple, -, -⟩ := h.divides.finite_multiple horder hsize (i := i) (by omega)
  obtain ⟨hjmultiple, -, -⟩ := h.divides.finite_multiple horder hsize hj
  have hmultiple : units (g.width * ofCount i) ≤ units (g.width * ofCount j) := by
    rw [← key_of_isFinite himultiple, ← key_of_isFinite hjmultiple]
    refine (rounds_mul_ofCount hwidth (by omega)).key_mono (rounds_mul_ofCount hwidth (by omega)) ?_
    exact mul_le_mul_of_nonneg_left (by exact_mod_cast hij) hwidth0
  rw [hiunits, hjunits]
  refine mul_le_mul_of_nonneg_left ?_ (Int.natCast_nonneg m)
  rw [← key_of_isFinite hifinite, ← key_of_isFinite hjfinite]
  exact (rounds_add hlow himultiple).key_mono (rounds_add hlow hjmultiple)
    (add_le_add_right (by exact_mod_cast hmultiple) _)

/-- A number that makes a difference overflow has a half on the grid. -/
theorem units_half (hx : x.isFinite = true) (hy : y.isFinite = true) (hoverflow : (y - x).isFinite = false) :
    2 * units (x / ofCount 2) = units x := by
  obtain ⟨l, hl, hhalf⟩ := exists_halfStep_eq
  obtain ⟨q, k, hq, -, hgrid⟩ := exists_grid hx
  have hlarge : halfStep ≤ (units x).natAbs := by
    by_contra hsmall
    have hle := (natAbs_units_le hy).2
    have hfinite : (y - x).isFinite = true := by
      refine (rounds_sub hy hx).isFinite_of_lt ?_
      rw [← Int.cast_sub, ← Int.cast_abs, ← Nat.cast_natAbs, Nat.cast_lt]
      rw [largestUnits] at hle
      omega
    rw [hfinite] at hoverflow
    cases hoverflow
  have hk : k ≠ 0 := by
    rintro rfl
    have hpow : 2 ^ 54 ≤ 2 ^ l := Nat.pow_le_pow_right (by decide) (hl ▸ by decide)
    omega
  obtain ⟨e, rfl⟩ := Nat.exists_eq_succ_of_ne_zero hk
  obtain ⟨half, hhalf⟩ : ∃ half, units x = 2 * half := by
    have hdvd : 2 ∣ (units x).natAbs := hgrid ▸ (Dvd.intro_left _ rfl : 2 ∣ 2 ^ e * 2).mul_left q
    exact Int.natCast_dvd.mpr hdvd
  obtain ⟨hfinite, hrounds⟩ := finite_div_scale hx (.inr rfl)
  have hvalue : (units x / (2 : Nat) : ℚ) = (half : Int) := by
    rw [hhalf]
    push_cast
    ring
  rw [hvalue] at hrounds
  rw [hhalf, hrounds.exact_of_isFinite hfinite hq (k := e) ?_]
  rw [hhalf, Int.natAbs_mul, Nat.pow_succ] at hgrid
  have hdouble : 2 * half.natAbs = 2 * (q * 2 ^ e) := by
    rw [show 2 * half.natAbs = Int.natAbs 2 * half.natAbs from rfl, hgrid]
    ring
  omega

include h in
/-- Numbers are halved only if their difference overflows. -/
theorem Fills.scale_cases :
    g.scale = ofCount 1 ∨ g.scale = ofCount 2 ∧ (g.high - g.low).isFinite = false := by
  obtain ⟨count, -, hbetween⟩ := bind_eq_ok.mp h.between
  obtain ⟨width, -, hbetween⟩ := bind_eq_ok.mp hbetween
  rw [← congrArg Grid.scale (Except.ok.inj hbetween)]
  rcases hspan : (g.high - g.low).isFinite with _ | _
  · refine .inr ⟨?_, rfl⟩
    rw [show Scalar.isFinite (g.high - g.low) = false from hspan]
    rfl
  · refine .inl ?_
    rw [show Scalar.isFinite (g.high - g.low) = true from hspan]
    rfl

include h hsize in
/-- The first bound is the least number. -/
theorem Fills.units_first : units (g.bound 0) = units g.low := by
  obtain ⟨m, hm, hscale, hunits⟩ : ∃ m, (m = 1 ∨ m = 2) ∧ g.scale = ofCount m ∧
      m * units (g.low / ofCount m) = units g.low := by
    rcases h.scale_cases with hscale | ⟨hscale, hoverflow⟩
    · exact ⟨1, .inl rfl, hscale, by rw [units_div_one h.divides.low, Nat.cast_one, one_mul]⟩
    · exact ⟨2, .inr rfl, hscale, units_half h.divides.low h.divides.high hoverflow⟩
  have hlow : (g.low / g.scale).isFinite = true := hscale ▸ (finite_div_scale h.divides.low hm).1
  obtain ⟨hfinite, hbound⟩ := h.units_bound hsize h.divides.size.1 hm hscale
  have hmultiple := rounds_mul_ofCount h.divides.rounds_width.2 (n := 0) (Nat.zero_le _)
  rw [Nat.cast_zero, mul_zero] at hmultiple
  obtain ⟨hzero, hzeroUnits⟩ := hmultiple.of_zero
  have hsum := rounds_add hlow hzero
  rw [hzeroUnits, Int.cast_zero, add_zero] at hsum
  have hkey := hsum.key_unique (.self hlow)
  rw [key_of_isFinite hfinite, key_of_isFinite hlow] at hkey
  rw [hbound, hkey, hscale, hunits]

end Grid

/-! ## Numbers between the bounds of a bin -/

/-- Whether a number is between the bounds of a bin: not below the lower one, and below the upper one or, in the
last bin, not above it. -/
def holds (bins : List (Bin Float)) (i : Nat) (x : Float) : Bool :=
  bins[i]?.any fun b =>
    decide (b.lower ≤ x) && (decide (x < b.upper) || decide (i + 1 = bins.length) && decide (x ≤ b.upper))

namespace Grid.Fills

variable {g : Grid Float} {xs : List Float} {bins : List (Bin Float)} (h : g.Fills xs bins)
  (hsize : g.size ≤ 2 ^ 50)

include h hsize

/-- The numbers of a bin lie between bounds, of which the last is the greatest number. -/
theorem holds_iff (hi : i < g.size) (hx : x ∈ xs) :
    holds bins i x = true ↔
      units (g.bound i) ≤ units x ∧ (i + 1 < g.size → units x < units (g.bound (i + 1))) := by
  have hlength := h.length
  obtain ⟨hfinite, -, hhigh⟩ := h.inside x hx
  have horder := (h.inside _ h.low_mem).2.2
  have hbound {k : Nat} (hk : k < g.size) : (g.bound k).isFinite = true :=
    h.divides.finite_bound horder hsize hk
  obtain ⟨hlower, hupper, -, -⟩ := h.bin i (by omega)
  rw [holds, List.getElem?_eq_getElem (by omega)]
  simp only [Option.any_some, hlower, hupper, Bool.and_eq_true, Bool.or_eq_true, decide_eq_true_eq, hlength,
    le_iff_units (hbound hi) hfinite, upperBound]
  refine and_congr_right fun _ => ?_
  by_cases hlast : i = g.size - 1
  · rw [if_pos hlast, le_iff_units hfinite h.divides.high]
    exact iff_of_true (.inr ⟨by omega, hhigh⟩) fun hnext => absurd hnext (by omega)
  · rw [if_neg hlast, lt_iff_units hfinite (hbound (by omega))]
    constructor
    · rintro (hlt | ⟨hend, -⟩) _
      · exact hlt
      · omega
    · exact fun hlt => .inl (hlt (by omega))

/-- If all numbers are between the bounds of their bins, each bin counts the numbers between its bounds. -/
theorem count_eq (hholds : ∀ x ∈ xs, holds bins (g.place x) x = true) (hi : i < bins.length) :
    bins[i].count = xs.countP (holds bins i) := by
  have hlength := h.length
  rw [(h.bin i hi).2.2.1, List.count_eq_countP, List.countP_map]
  refine List.countP_congr fun x hx => ?_
  have hplace := h.place_lt hx
  rw [Function.comp_apply, beq_iff_eq]
  refine ⟨fun heq => heq ▸ hholds x hx, fun hother => ?_⟩
  -- a number is between the bounds of one bin only, as the bounds are in order
  obtain ⟨hlow, hhigh⟩ := (h.holds_iff hsize (by omega) hx).mp (hholds x hx)
  obtain ⟨hlow', hhigh'⟩ := (h.holds_iff hsize (by omega) hx).mp hother
  rcases Nat.lt_trichotomy (g.place x) i with hlt | heq | hgt
  · have hmono := h.bound_mono hsize (show g.place x + 1 ≤ i from hlt) (by omega)
    have := hhigh (by omega)
    omega
  · exact heq
  · have hmono := h.bound_mono hsize (show i + 1 ≤ g.place x from hgt) (by omega)
    have := hhigh' (by omega)
    omega

/-- A number that is far enough from the bounds between bins is between those of its own bin. -/
theorem holds_of_clear {A : Nat} (hA : ∀ y ∈ xs, (units y).natAbs ≤ A) (hx : x ∈ xs)
    (hclear : ∀ j, 0 < j → j < g.size → slack A g.size < |(units x : ℚ) - units (g.bound j)|) :
    holds bins (g.place x) x = true := by
  have hlength := h.length
  have hplace := h.place_lt hx
  rw [h.holds_iff hsize (by omega) hx]
  constructor
  · rcases Nat.eq_zero_or_pos (g.place x) with hzero | hpos
    · rw [hzero, h.units_first hsize]
      exact (h.inside x hx).2.1
    · have hnear := h.bound_le_add hsize hA hx le_rfl
      rcases lt_abs.mp (hclear _ hpos (by omega)) with hfar | hfar
      · have hle : (units (g.bound (g.place x)) : ℚ) ≤ units x := by linarith [slack_nonneg A g.size]
        exact_mod_cast hle
      · linarith
  · intro hnext
    have hnear := h.le_bound_add hsize hA hx (Nat.lt_succ_self _) hnext
    rcases lt_abs.mp (hclear _ (Nat.succ_pos _) hnext) with hfar | hfar
    · linarith
    · have hlt : (units x : ℚ) < units (g.bound (g.place x + 1)) := by linarith [slack_nonneg A g.size]
      exact_mod_cast hlt

/-- A number is between the bounds of its bin, or beyond them by no more than the slack. -/
theorem exists_bin {A : Nat} (hA : ∀ y ∈ xs, (units y).natAbs ≤ A) (hx : x ∈ xs) :
    ∃ b ∈ bins[g.place x]?, (units b.lower : ℚ) ≤ units x + slack A g.size ∧
      (units x : ℚ) ≤ units b.upper + slack A g.size := by
  have hlength := h.length
  have hplace := h.place_lt hx
  obtain ⟨hlower, hupper, -, -⟩ := h.bin _ hplace
  refine ⟨_, List.getElem?_eq_getElem hplace, hlower ▸ h.bound_le_add hsize hA hx le_rfl, ?_⟩
  rw [hupper, upperBound]
  split
  · have hle : (units x : ℚ) ≤ units g.high := by exact_mod_cast (h.inside x hx).2.2
    linarith [slack_nonneg A g.size]
  · exact h.le_bound_add hsize hA hx (Nat.lt_succ_self _) (by omega)

end Grid.Fills

end RangeCalc.Statistics
