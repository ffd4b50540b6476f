import RangeCalc.Proofs.Statistics.Deviation
import RangeCalc.Statistics.Histogram

/-!
# Histograms that have values

The place of a number in a grid is not infinite, as the width of a bin is not much less than its share of
the span.

* `Grid.Divides`: grids of finite numbers;
* `Grid.Divides.index?_isOk`: bins of numbers;
* `histogramOfFinite_isOk`: histograms of numbers that have a mean.
-/

namespace RangeCalc.Statistics

open Binary64

variable [MathLibrary] {x y : Float} {n : Nat}

namespace Grid

/-- The scale of a grid is one or two. -/
theorem finite_div_scale (hx : x.isFinite = true) (hn : n = 1 ∨ n = 2) :
    (x / ofCount n).isFinite = true ∧ Rounds (units x / n) (x / ofCount n) := by
  have hle : n ≤ 2 ^ 53 := by omega
  exact ⟨(finite_div_ofCount hx hle (by omega)).1, rounds_div_ofCount hx hle (by omega)⟩

theorem units_div_one (hx : x.isFinite = true) : units (x / ofCount 1) = units x := by
  obtain ⟨hfinite, hrounds⟩ := finite_div_scale hx (n := 1) (.inl rfl)
  rw [Nat.cast_one, div_one] at hrounds
  rw [← key_of_isFinite hfinite, ← key_of_isFinite hx]
  exact hrounds.key_unique (.self hx)

theorem units_div_mono (hx : x.isFinite = true) (hy : y.isFinite = true) (hn : n = 1 ∨ n = 2)
    (hxy : units x ≤ units y) : units (x / ofCount n) ≤ units (y / ofCount n) := by
  obtain ⟨hxfinite, hxrounds⟩ := finite_div_scale hx hn
  obtain ⟨hyfinite, hyrounds⟩ := finite_div_scale hy hn
  rw [← key_of_isFinite hxfinite, ← key_of_isFinite hyfinite]
  exact hxrounds.key_mono hyrounds (div_le_div_of_nonneg_right (by exact_mod_cast hxy) n.cast_nonneg)

omit [MathLibrary] in
/-- The step of the largest numbers, divided by the scale. -/
theorem exists_step (hn : n = 1 ∨ n = 2) : ∃ k, 53 ≤ k ∧ n * 2 ^ k = 2 * halfStep := by
  obtain ⟨l, hl, hhalf⟩ := exists_halfStep_eq
  rcases hn with rfl | rfl
  · exact ⟨l + 1, by omega, by rw [hhalf, Nat.pow_succ]; omega⟩
  · exact ⟨l, by omega, by rw [hhalf]⟩

omit [MathLibrary] in
/-- The largest number divided by the scale. -/
theorem largest_of_step (hn : n = 1 ∨ n = 2) {k : Nat} (hk : n * 2 ^ k = 2 * halfStep) :
    largestUnits = (2 ^ 53 - 1) * 2 ^ k * n ∧ (2 ^ 53 - 1) * 2 ^ k < overflowKey := by
  have hlargest : largestUnits = (2 ^ 53 - 1) * 2 ^ k * n := by
    rw [Nat.mul_assoc, Nat.mul_comm _ n, hk, largestUnits]
    omega
  have hpos : 0 < n := by omega
  exact ⟨hlargest, (Nat.le_mul_of_pos_right _ hpos).trans_lt (hlargest ▸ largestUnits_lt_overflowKey)⟩

/-- What is divided by the scale is not beyond the largest number divided by the scale. -/
theorem natAbs_div_scale_le (hx : x.isFinite = true) (hn : n = 1 ∨ n = 2) {k : Nat}
    (hk : n * 2 ^ k = 2 * halfStep) : (units (x / ofCount n)).natAbs ≤ (2 ^ 53 - 1) * 2 ^ k := by
  have hpos : 0 < n := by omega
  have hlarge := (natAbs_units_le hx).2
  obtain ⟨hlargest, hlt⟩ := largest_of_step hn hk
  refine ((finite_div_scale hx hn).2.finite (by decide) hlt ?_).2
  rw [abs_div, Nat.abs_cast, ← Int.cast_abs, ← Nat.cast_natAbs, div_le_iff₀ (by exact_mod_cast hpos)]
  rw [hlargest] at hlarge
  exact_mod_cast hlarge

/-- The sum of two halves is not beyond the largest number. -/
theorem natAbs_half_le (hx : x.isFinite = true) : 2 * (units (x / ofCount 2)).natAbs ≤ largestUnits := by
  obtain ⟨k, -, hk⟩ := exists_step (n := 2) (.inr rfl)
  have hle := natAbs_div_scale_le hx (.inr rfl) hk
  rw [(largest_of_step (.inr rfl) hk).1]
  omega

/-- Halves of finite numbers have a finite difference. -/
theorem isFinite_sub_halves (hx : x.isFinite = true) (hy : y.isFinite = true) :
    (x / ofCount 2 - y / ofCount 2).isFinite = true := by
  refine (rounds_sub (finite_div_scale hx (.inr rfl)).1
    (finite_div_scale hy (.inr rfl)).1).isFinite_of_le_largest ?_
  have hxle := natAbs_half_le hx
  have hyle := natAbs_half_le hy
  rw [← Int.cast_sub, ← Int.cast_abs, ← Nat.cast_natAbs, Nat.cast_le]
  omega

/-- The span of a grid is finite. -/
theorem exists_scale {low high : Float} (hlow : low.isFinite = true) (hhigh : high.isFinite = true) :
    ∃ n, (n = 1 ∨ n = 2) ∧
      Scalar.ofInt (if Scalar.isFinite (high - low) then 1 else 2) = (ofCount n : Float) ∧
      (high / ofCount n - low / ofCount n : Float).isFinite = true := by
  rcases hspan : (high - low : Float).isFinite with _ | _
  · refine ⟨2, .inr rfl, ?_, isFinite_sub_halves hhigh hlow⟩
    rw [show Scalar.isFinite (high - low) = false from hspan]
    rfl
  · refine ⟨1, .inl rfl, ?_, ?_⟩
    · rw [show Scalar.isFinite (high - low) = true from hspan]
      rfl
    · have hdifference := rounds_sub (finite_div_scale hhigh (.inl rfl)).1
        (finite_div_scale hlow (.inl rfl)).1
      rw [units_div_one hhigh, units_div_one hlow] at hdifference
      have hkey := hdifference.key_unique (rounds_sub hhigh hlow)
      rw [isFinite_iff_key hdifference.defined, hkey]
      exact (isFinite_iff_key (rounds_sub hhigh hlow).defined).mp hspan

/-- What a grid of finite numbers is: the span and the size are finite, and the width is the span divided
by the size. -/
structure Divides (g : Grid Float) : Prop where
  low : g.low.isFinite = true
  high : g.high.isFinite = true
  size : 1 ≤ g.size ∧ g.size ≤ sizeLimit
  scale : ∃ n, (n = 1 ∨ n = 2) ∧ g.scale = ofCount n
  span : (g.high / g.scale - g.low / g.scale).isFinite = true
  width : g.width = (g.high / g.scale - g.low / g.scale) / ofCount g.size

/-- A number of bins is a number. -/
theorem units_ofSize (hsize : 1 ≤ n ∧ n ≤ sizeLimit) :
    (ofCount n : Float).isFinite = true ∧ Binary64.one ≤ units (ofCount n : Float) ∧
      units (ofCount n : Float) ≤ 2 ^ 63 * Binary64.one := by
  obtain ⟨k, hk, hone⟩ := exists_one_eq
  obtain ⟨honeFinite, honeUnits⟩ := @units_ofInt 1 (by decide)
  have hrounds : Rounds ((n * Binary64.one : Int) : ℚ) (ofCount n) := rounds_ofUnits (n * Binary64.one)
  have hlimit : n ≤ 2 ^ 63 := hsize.2.trans (by decide)
  have hlt : 1 * 2 ^ (63 + k) < overflowKey := by
    rw [Nat.one_mul]
    exact two_pow_lt_overflowKey (by omega)
  obtain ⟨hfinite, hle⟩ := hrounds.finite (by decide) hlt (by
    rw [← Int.cast_abs, ← Nat.cast_natAbs, Int.natAbs_mul, Nat.one_mul, Nat.pow_add, ← hone]
    exact_mod_cast Nat.mul_le_mul_right _ hlimit)
  rw [Nat.one_mul, Nat.pow_add, ← hone] at hle
  have hlow : units (Binary64.ofInt 1) ≤ units (ofCount n : Float) := by
    rw [← key_of_isFinite honeFinite, ← key_of_isFinite hfinite]
    refine (Rounds.self honeFinite).key_mono hrounds ?_
    rw [honeUnits]
    exact_mod_cast Nat.mul_le_mul_right _ hsize.1
  rw [honeUnits] at hlow
  exact ⟨hfinite, by omega, by omega⟩

theorem between?_isOk {low high : Float} (hlow : low.isFinite = true) (hhigh : high.isFinite = true)
    (hsize : 1 ≤ n ∧ n ≤ sizeLimit) :
    ∃ g : Grid Float, between? low high n = .ok g ∧ g.Divides ∧ g.low = low ∧ g.high = high ∧
      g.size = n := by
  obtain ⟨m, hm, hscale, hspan⟩ := exists_scale hlow hhigh
  obtain ⟨hfinite, hone, -⟩ := units_ofSize hsize
  have hne : units (ofCount n : Float) ≠ 0 := by
    have := one_pos
    omega
  have hofInt : ofInt? (n : Int) = .ok (ofCount n : Float) := if_pos hfinite
  refine ⟨⟨low, high, ofCount m, (high / ofCount m - low / ofCount m) / ofCount n, n⟩, ?_,
    ⟨hlow, hhigh, hsize, ⟨m, hm, rfl⟩, hspan, rfl⟩, rfl, rfl, rfl⟩
  rw [between?, hscale]
  rw [bind_ok hofInt, bind_ok (quotient?_eq hfinite hne)]
  rfl

variable {g : Grid Float} (hg : g.Divides)

include hg

/-- The difference between a number in a grid and the least one is not more than the span. -/
theorem Divides.finite_sub (hx : x.isFinite = true) (hlow : units g.low ≤ units x)
    (hhigh : units x ≤ units g.high) :
    (x / g.scale - g.low / g.scale).isFinite = true ∧ 0 ≤ units (x / g.scale - g.low / g.scale) ∧
      units (x / g.scale - g.low / g.scale) ≤ units (g.high / g.scale - g.low / g.scale) := by
  obtain ⟨m, hm, hscale⟩ := hg.scale
  have hspan := hg.span
  rw [hscale] at hspan ⊢
  have hxfinite := (finite_div_scale hx hm).1
  have hlowFinite := (finite_div_scale hg.low hm).1
  have hhighFinite := (finite_div_scale hg.high hm).1
  have hlow' : ((units (g.low / ofCount m) : Int) : ℚ) ≤ units (x / ofCount m) := by
    exact_mod_cast units_div_mono hg.low hx hm hlow
  have hhigh' : ((units (x / ofCount m) : Int) : ℚ) ≤ units (g.high / ofCount m) := by
    exact_mod_cast units_div_mono hx hg.high hm hhigh
  have hrounds := rounds_sub hxfinite hlowFinite
  have hnonneg := hrounds.key_nonneg (by linarith)
  have hle := hrounds.key_mono (rounds_sub hhighFinite hlowFinite) (by linarith)
  have hbound := (isFinite_iff_key (not_isNaN_of_isFinite hspan)).mp hspan
  have hfinite : (x / ofCount m - g.low / ofCount m).isFinite = true :=
    (isFinite_iff_key hrounds.defined).mpr ⟨by omega, by omega⟩
  rw [key_of_isFinite hfinite] at hnonneg hle
  rw [key_of_isFinite hspan] at hle
  exact ⟨hfinite, hnonneg, hle⟩

/-- The width is the span divided by the size, rounded. -/
theorem Divides.rounds_width :
    Rounds (units (g.high / g.scale - g.low / g.scale) / units (ofCount g.size : Float) * Binary64.one)
        g.width ∧ g.width.isFinite = true := by
  obtain ⟨hsize, hsizeOne, -⟩ := units_ofSize hg.size
  have hone := one_pos
  have hrounds := rounds_div hg.span hsize (by omega)
  rw [← hg.width] at hrounds
  refine ⟨hrounds, (hrounds.finite_of_le hg.span ?_).1⟩
  have hcount : (Binary64.one : ℚ) ≤ units (ofCount g.size : Float) := by exact_mod_cast hsizeOne
  have hpos := one_cast_pos
  rw [abs_mul, abs_div, abs_of_pos (hpos.trans_le hcount), abs_of_pos hpos, div_mul_eq_mul_div,
    div_le_iff₀ (hpos.trans_le hcount), Nat.cast_natAbs, Int.cast_abs]
  exact mul_le_mul_of_nonneg_left hcount (abs_nonneg _)

/-- A width that is not zero is at least half of its share of the span. -/
theorem Divides.span_le (hpos : 0 < units g.width) :
    units (g.high / g.scale - g.low / g.scale) ≤ 2 ^ 64 * units g.width := by
  obtain ⟨hrounds, hwidth⟩ := hg.rounds_width
  obtain ⟨-, hsizeOne, hsizele⟩ := units_ofSize hg.size
  have hkey := (isFinite_iff_key hrounds.defined).mp hwidth
  obtain ⟨n, hn, hn'⟩ := hrounds.key_eq
  rw [key_of_isFinite hwidth] at hkey hn'
  obtain rfl : n = (units g.width).toNat := by omega
  have hle := (le_abs_self _).trans (hn.le_two_mul_of_pos (by omega))
  have hunits : (((units g.width).toNat : Nat) : ℚ) = units g.width := by
    exact_mod_cast Int.toNat_of_nonneg hpos.le
  rw [hunits] at hle
  have hone := one_cast_pos
  have hcount : (0 : ℚ) < units (ofCount g.size : Float) :=
    hone.trans_le (by exact_mod_cast hsizeOne)
  have hcountle : (units (ofCount g.size : Float) : ℚ) ≤ 2 ^ 63 * Binary64.one := by
    exact_mod_cast hsizele
  have hwidth0 : (0 : ℚ) ≤ units g.width := by exact_mod_cast hpos.le
  rw [div_mul_eq_mul_div, div_le_iff₀ hcount] at hle
  have hspan : (units (g.high / g.scale - g.low / g.scale) : ℚ) * Binary64.one ≤
      2 ^ 64 * units g.width * Binary64.one := by
    calc (units (g.high / g.scale - g.low / g.scale) : ℚ) * Binary64.one
        ≤ 2 * units g.width * units (ofCount g.size : Float) := hle
      _ ≤ 2 * units g.width * (2 ^ 63 * Binary64.one) :=
        mul_le_mul_of_nonneg_left hcountle (by positivity)
      _ = 2 ^ 64 * units g.width * Binary64.one := by ring
  exact_mod_cast le_of_mul_le_mul_right hspan hone

/-- A number has a bin in a grid of more than one bin. -/
theorem Divides.index?_isOk (hpos : 0 < units g.width) (hx : x.isFinite = true)
    (hlow : units g.low ≤ units x) (hhigh : units x ≤ units g.high) : ∃ i, g.index? x = .ok i := by
  rw [index?]
  split
  · obtain ⟨hfinite, hnonneg, hle⟩ := hg.finite_sub hx hlow hhigh
    have hspan := hg.span_le hpos
    obtain ⟨hplace, -⟩ := finite_div hfinite hg.rounds_width.2 hpos.ne' (j := 64) le_rfl (by omega)
    have hfloor : place? Scalar.floor ((x / g.scale - g.low / g.scale) / g.width) =
        .ok (floorInt ((x / g.scale - g.low / g.scale) / g.width)) := if_pos hplace
    refine ⟨min (floorInt ((x / g.scale - g.low / g.scale) / g.width)).toNat (g.size - 1), ?_⟩
    rw [bind_ok (quotient?_eq hg.rounds_width.2 hpos.ne'), bind_ok hfloor]
    rfl
  · exact ⟨_, rfl⟩

/-- The width of a grid of more than one bin. -/
theorem Divides.width_pos (hsingle : g.isSingle = false) : 0 < units g.width := by
  obtain ⟨hzero, hunits⟩ := @units_ofInt 0 (by decide)
  have hwidth : ¬ g.width ≤ Binary64.ofInt 0 := by
    intro h
    have hle : decide (g.width ≤ (zero : Float)) = true := decide_eq_true h
    rw [isSingle, hle, Bool.or_true] at hsingle
    cases hsingle
  rw [le_iff_units hg.rounds_width.2 hzero, hunits] at hwidth
  omega

theorem Divides.counts_isOk (hpos : 0 < units g.width) {xs : List Float}
    (hxs : ∀ x ∈ xs, x.isFinite = true ∧ units g.low ≤ units x ∧ units x ≤ units g.high) :
    ∃ counts, g.counts xs = .ok counts := by
  rw [counts, if_neg (not_lt.mpr hg.size.2)]
  refine foldlM_ok _ fun counts x hx => ?_
  obtain ⟨hfinite, hlow, hhigh⟩ := hxs x hx
  obtain ⟨i, hi⟩ := hg.index?_isOk hpos hfinite hlow hhigh
  exact ⟨counts.modify i (· + 1), by rw [count?, bind_ok hi]; rfl⟩

end Grid

theorem size_of_counts {g : Grid Float} {xs : List Float} {counts : Array Nat}
    (h : g.counts xs = .ok counts) : counts.size = g.size := by
  rw [Grid.counts] at h
  split at h
  · cases h
  · refine foldlM_invariant (fun counts => counts.size = g.size) Array.size_replicate ?_ h
    intro counts x _ counts' hsize hstep
    simp only [Grid.count?, bind_eq_ok] at hstep
    obtain ⟨i, -, hcounts⟩ := hstep
    obtain rfl : counts.modify i (· + 1) = counts' := Except.ok.inj hcounts
    rw [Array.size_modify, hsize]

/-- Finite numbers have a bin. -/
theorem histogramOfFinite_ne_nil {first : Float} {rest : List Float} {size : Nat}
    {bins : List (Bin Float)} (hsize : 0 < size) (h : histogramOfFinite (first :: rest) size = .ok bins) :
    bins ≠ [] := by
  simp only [histogramOfFinite, bind_eq_ok] at h
  obtain ⟨center, -, deviation, -, grid, hgrid, h⟩ := h
  split at h
  · obtain rfl := Except.ok.inj h
    exact List.cons_ne_nil _ _
  · rw [bind_eq_ok] at h
    obtain ⟨counts, hcounts, h⟩ := h
    obtain rfl := Except.ok.inj h
    have hcount := size_of_counts hcounts
    simp only [Grid.between?, bind_eq_ok] at hgrid
    obtain ⟨n, -, width, -, hgrid⟩ := hgrid
    obtain rfl := Except.ok.inj hgrid
    intro hnil
    have hlength := congrArg List.length hnil
    simp at hlength
    simp [hlength] at hcount
    omega

/-- Finite numbers that have a mean have a histogram of any number of bins that a list may have. -/
theorem histogramOfFinite_isOk (hsquares : MathLibrary.SquaresBounded) {xs : List Float} {size : Nat}
    (hfinite : ∀ x ∈ xs, x.isFinite = true) (hlength : xs.length ≤ 2 ^ 53)
    (hmean : ∃ center, meanOfFinite xs = .ok center) (hsize : 1 ≤ size ∧ size ≤ Grid.sizeLimit) :
    ∃ bins, histogramOfFinite xs size = .ok bins := by
  obtain ⟨deviation, hdeviation⟩ := deviationOfFinite_isOk hsquares hfinite hlength hmean
  obtain ⟨center, hmean⟩ := hmean
  match xs with
  | [] => exact ⟨_, rfl⟩
  | first :: rest =>
    obtain ⟨hleast, hle⟩ := isLeast_least hfinite
    obtain ⟨hgreatest, hge⟩ := isGreatest_greatest hfinite
    have hlow := hfinite _ hleast
    have hhigh := hfinite _ hgreatest
    obtain ⟨g, hg, hdivides, hglow, hghigh, -⟩ := Grid.between?_isOk hlow hhigh hsize
    dsimp only [histogramOfFinite]
    rw [bind_ok hmean, bind_ok hdeviation, bind_ok hg]
    split
    · exact ⟨_, rfl⟩
    next hsingle =>
      have hpos := hdivides.width_pos (Bool.of_not_eq_true hsingle)
      obtain ⟨counts, hcounts⟩ := hdivides.counts_isOk hpos fun x hx => by
        have hx' := hfinite x hx
        rw [hglow, hghigh]
        exact ⟨hx', (le_iff_units hlow hx').mp (hle x hx), (le_iff_units hx' hhigh).mp (hge x hx)⟩
      rw [bind_ok hcounts]
      exact ⟨_, rfl⟩

end RangeCalc.Statistics
