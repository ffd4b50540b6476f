import RangeCalc.Proofs.Statistics.Edges

/-!
# Histograms and the bounds of their bins

Where nothing is rounded, each number is between the bounds of its bin. It is so for numbers on a lattice, such
as integers, whose range is a whole number of steps for each bin. The quotient is rounded all the same, but
not across an integer.

* `OnLattice`: such numbers;
* `Grid.Fills.holds_of_lattice`: they are between the bounds of their bins;
* `histogram_bounds`: where the numbers of a histogram are;
* `threeDecimals_bounds`: numbers of which one is not between the bounds of its bin.
-/

namespace RangeCalc.Statistics

open Binary64

variable [MathLibrary] {x : Float} {i : Nat}

/-! ## Numbers on a lattice -/

/-- Numbers that are multiples of a power of two, with factors of at most 52 binary digits, whose range is a
whole number of such multiples for each of `size` bins. -/
structure OnLattice (xs : List Float) (size exponent step : Nat) : Prop where
  exponent_le : exponent ≤ 2044
  multiple : ∀ x ∈ xs, ∃ m : Int, m.natAbs ≤ 2 ^ 52 ∧ units x = m * 2 ^ exponent
  span : ∀ low ∈ xs, ∀ high ∈ xs, (∀ x ∈ xs, low ≤ x ∧ x ≤ high) →
    units high - units low = size * step * 2 ^ exponent

section

variable {k w : Nat}

omit [MathLibrary] in
/-- Multiples of a power of two are kept by rounding. -/
theorem units_of_multiple {m : Int} (hk : k ≤ 2044) (hm : m.natAbs ≤ 2 ^ 53)
    (hx : Rounds ((m * 2 ^ k : Int) : ℚ) x) : x.isFinite = true ∧ units x = m * 2 ^ k := by
  refine hx.exact hm (k := k) ?_ ?_
  · calc m.natAbs * 2 ^ k ≤ 2 ^ 53 * 2 ^ k := Nat.mul_le_mul_right _ hm
      _ = 2 ^ (53 + k) := (Nat.pow_add 2 53 k).symm
      _ < overflowKey := two_pow_lt_overflowKey (by omega)
  · rw [Int.natAbs_mul, Int.natAbs_pow]
    rfl

namespace Grid.Fills

variable {g : Grid Float} {xs : List Float} {bins : List (Bin Float)} (h : g.Fills xs bins)
  (hsize : g.size ≤ 2 ^ 50) (hlattice : OnLattice xs g.size k w)

include h hlattice

theorem span_eq : units g.high - units g.low = g.size * w * 2 ^ k := by
  refine hlattice.span _ h.low_mem _ h.high_mem fun x hx => ?_
  obtain ⟨hfinite, hlow, hhigh⟩ := h.inside x hx
  exact ⟨(le_iff_units h.divides.low hfinite).mpr hlow, (le_iff_units hfinite h.divides.high).mpr hhigh⟩

/-- The least number, and how far the greatest one is above it. -/
theorem exists_low : ∃ a : Int, units g.low = a * 2 ^ k ∧ a.natAbs ≤ 2 ^ 52 ∧
    (a + g.size * w).natAbs ≤ 2 ^ 52 := by
  obtain ⟨a, ha, hlow⟩ := hlattice.multiple _ h.low_mem
  obtain ⟨b, hb, hhigh⟩ := hlattice.multiple _ h.high_mem
  have hspan := h.span_eq hlattice
  rw [hlow, hhigh, ← sub_mul] at hspan
  have hdifference := mul_right_cancel₀ (pow_ne_zero k (by decide : (2 : Int) ≠ 0)) hspan
  exact ⟨a, hlow, ha, by rw [← hdifference]; simpa using hb⟩

theorem scale_eq : g.scale = ofCount 1 := by
  rcases h.scale_cases with hscale | ⟨-, hoverflow⟩
  · exact hscale
  · obtain ⟨a, -, ha, hb⟩ := h.exists_low hlattice
    have hspan := rounds_sub h.divides.high h.divides.low
    rw [← Int.cast_sub, h.span_eq hlattice] at hspan
    rw [(units_of_multiple hlattice.exponent_le (by omega) hspan).1] at hoverflow
    cases hoverflow

theorem units_offset (hx : x ∈ xs) : units (g.offset x) = units x - units g.low := by
  obtain ⟨a, hlow, ha, -⟩ := h.exists_low hlattice
  obtain ⟨m, hm, hunits⟩ := hlattice.multiple x hx
  have hscale := h.scale_eq hlattice
  have hfinite {y : Float} (hy : y ∈ xs) : (y / ofCount 1).isFinite = true :=
    (finite_div_scale (h.inside y hy).1 (.inl rfl)).1
  have hrounds := rounds_sub (hfinite hx) (hfinite h.low_mem)
  rw [units_div_one (h.inside x hx).1, units_div_one h.divides.low, hunits, hlow, ← Int.cast_sub,
    ← sub_mul] at hrounds
  rw [offset, hscale, (units_of_multiple hlattice.exponent_le (by omega) hrounds).2, hunits, hlow, sub_mul]

include hsize

theorem units_width : units g.width = w * 2 ^ k := by
  obtain ⟨a, -, ha, hb⟩ := h.exists_low hlattice
  have hpos := h.divides.size.1
  have hspan := h.units_offset hlattice h.high_mem
  rw [h.span_eq hlattice] at hspan
  have hrounds := rounds_div_ofCount h.divides.span (n := g.size) (by omega) hpos
  rw [← h.divides.width] at hrounds
  have hvalue : (units (g.high / g.scale - g.low / g.scale) / g.size : ℚ) = ((w : Int) * 2 ^ k : Int) := by
    rw [show units (g.high / g.scale - g.low / g.scale) = g.size * w * 2 ^ k from hspan]
    have hne : (g.size : ℚ) ≠ 0 := by exact_mod_cast Nat.ne_of_gt hpos
    push_cast
    field_simp
  rw [hvalue] at hrounds
  have hw : (w : Int) ≤ g.size * w := le_mul_of_one_le_left (Int.natCast_nonneg w) (by exact_mod_cast hpos)
  exact (units_of_multiple hlattice.exponent_le (by omega) hrounds).2

theorem step_pos : 0 < w := by
  have hwidth := h.width_pos
  rw [h.units_width hsize hlattice] at hwidth
  exact_mod_cast pos_of_mul_pos_left hwidth (by positivity)

theorem units_bound_eq (hi : i < g.size) : units (g.bound i) = units g.low + i * w * 2 ^ k := by
  obtain ⟨a, hlow, ha, hb⟩ := h.exists_low hlattice
  have hscale := h.scale_eq hlattice
  have hle : (i : Int) * w ≤ g.size * w :=
    mul_le_mul_of_nonneg_right (by exact_mod_cast hi.le) (Int.natCast_nonneg w)
  have hnonneg : 0 ≤ (i : Int) * w := by positivity
  obtain ⟨-, hbound⟩ := h.units_bound hsize hi (.inl rfl) hscale
  have hmultiple := rounds_mul_ofCount h.divides.rounds_width.2 (n := i) (by omega)
  have hproduct : (units g.width * i : ℚ) = ((i * w * 2 ^ k : Int) : ℚ) := by
    rw [h.units_width hsize hlattice]
    push_cast
    ring
  rw [hproduct] at hmultiple
  obtain ⟨hfinite, hunits⟩ := units_of_multiple hlattice.exponent_le (by omega) hmultiple
  have hlowFinite := (finite_div_scale h.divides.low (n := 1) (.inl rfl)).1
  have hsum := rounds_add hlowFinite hfinite
  rw [units_div_one h.divides.low, hunits, hlow, ← Int.cast_add, ← add_mul] at hsum
  rw [hbound, hscale, (units_of_multiple hlattice.exponent_le (by omega) hsum).2, hlow, add_mul, Nat.cast_one,
    one_mul]

theorem rounds_factor_quotient {a m : Int} (hx : x ∈ xs) (hlow : units g.low = a * 2 ^ k)
    (hunits : units x = m * 2 ^ k) : Rounds ((m - a : Int) / w * Binary64.one) (g.quotient x) := by
  have hrounds := h.rounds_quotient hx
  have hvalue : (((m - a) * 2 ^ k : Int) / (w * 2 ^ k : Int) : ℚ) = (m - a : Int) / w := by
    have hne : (2 ^ k : ℚ) ≠ 0 := by positivity
    push_cast
    rw [mul_div_mul_right _ _ hne]
  rwa [h.units_offset hlattice hx, h.units_width hsize hlattice, hunits, hlow, ← sub_mul, hvalue] at hrounds

/-- The place of a number is not beyond it: a quotient that is less than an integer by as much as numbers on a
lattice are apart is not rounded up to it. -/
theorem place_mul_le (hx : x ∈ xs) : (g.place x : Int) * w * 2 ^ k ≤ units x - units g.low := by
  obtain ⟨hfinite, hlow, hhigh⟩ := h.inside x hx
  have hspan := h.span_eq hlattice
  have hpow : (0 : Int) < 2 ^ k := by positivity
  have hplaceSize : g.place x ≤ g.size := by
    have := h.place_lt hx
    have := h.length
    omega
  have hplaceStep : (g.place x : Int) * w ≤ g.size * w :=
    mul_le_mul_of_nonneg_right (by exact_mod_cast hplaceSize) (Int.natCast_nonneg w)
  obtain ⟨-, hquotient, hplace⟩ | ⟨hge, -⟩ := index?_cases (h.index?_eq hx)
  · by_contra hlt
    obtain ⟨a, hlowUnits, ha, hb⟩ := h.exists_low hlattice
    obtain ⟨m, hm, hunits⟩ := hlattice.multiple x hx
    rw [not_le, hunits, hlowUnits, ← sub_mul] at hlt
    have hfactor : m - a ≤ g.place x * w - 1 := Int.le_sub_one_of_lt (lt_of_mul_lt_mul_right hlt hpow.le)
    have hpos : 0 < g.place x := by
      rw [hunits, hlowUnits] at hlow
      have hle := le_of_mul_le_mul_right hlow hpow
      exact Nat.pos_of_ne_zero fun hzero => by
        rw [hzero, Nat.cast_zero, zero_mul] at hfactor
        omega
    have hlarge : 2 ^ 52 < g.place x * Binary64.one :=
      (show 2 ^ 52 < 2 ^ 60 by decide).trans_le (two_pow_le_one.trans (Nat.le_mul_of_pos_left _ hpos))
    have hsmaller := (h.rounds_factor_quotient hsize hlattice hx hlowUnits hunits).units_lt hquotient hlarge (by
      push_cast
      exact quotient_le_of_lt (by exact_mod_cast h.step_pos hsize hlattice) one_cast_pos.le
        (by exact_mod_cast hplaceStep.trans (show (g.size * w : Int) ≤ 2 ^ 53 by omega))
        (by exact_mod_cast hfactor))
    rw [floorInt] at hplace
    have hfloor : (g.place x : Int) ≤ units (g.quotient x) / Binary64.one := by omega
    have hle := (Int.le_ediv_iff_mul_le (by exact_mod_cast Binary64.one_pos)).mp hfloor
    push_cast at hsmaller
    omega
  · -- the greatest number is beyond all places
    rw [lt_iff_units hfinite h.divides.high, not_lt] at hge
    have hle := mul_le_mul_of_nonneg_right hplaceStep hpow.le
    omega

/-- Numbers on a lattice are between the bounds of their bins. -/
theorem holds_of_lattice (hx : x ∈ xs) : holds bins (g.place x) x = true := by
  have hlength := h.length
  have hplace := h.place_lt hx
  rw [h.holds_iff hsize (by omega) hx]
  constructor
  · have hle := h.place_mul_le hsize hlattice hx
    rw [h.units_bound_eq hsize hlattice (by omega)]
    omega
  · intro hnext
    have hlt := h.offset_lt_width_mul hsize hx (Nat.lt_succ_self _) hnext
    rw [h.units_offset hlattice hx, h.units_width hsize hlattice] at hlt
    have hlt' : units x - units g.low < w * 2 ^ k * (g.place x + 1 : Nat) := by exact_mod_cast hlt
    have hcomm : (w : Int) * 2 ^ k * (g.place x + 1 : Nat) = (g.place x + 1 : Nat) * w * 2 ^ k := by ring
    rw [h.units_bound_eq hsize hlattice hnext]
    omega

end Grid.Fills

end

/-! ## Histograms -/

/-- The numbers of a bin lie between its bounds, up to the rounding of these. If no number is that near to a bound
between two bins, or all numbers are on a lattice, they lie between them, and each bin counts the numbers
between its bounds. -/
theorem histogram_bounds {data : List Float} {size : Int} {bins : List (Bin Float)} {A : Nat}
    (h : histogram data size = .ok bins) (hmany : 1 < bins.length) (hsize : bins.length ≤ 2 ^ 50)
    (hA : ∀ x ∈ finite data, (units x).natAbs ≤ A) :
    ∃ place, Tiles bins (finite data) place ∧
      (∀ x ∈ finite data, ∃ b ∈ bins[place x]?,
        (units b.lower : ℚ) ≤ units x + slack A bins.length ∧
          (units x : ℚ) ≤ units b.upper + slack A bins.length) ∧
      ((∀ x ∈ finite data, ∀ b ∈ bins.tail, slack A bins.length < |(units x : ℚ) - units b.lower|) ∨
          (∃ k w, OnLattice (finite data) bins.length k w) →
        (∀ x ∈ finite data, holds bins (place x) x = true) ∧
          ∀ i (hi : i < bins.length), bins[i].count = (finite data).countP (holds bins i)) := by
  have hfinite : ∀ x ∈ finite data, x.isFinite = true := isFinite_of_mem_finite
  rw [histogram] at h
  split at h
  · cases h
  rw [mapError_eq_ok] at h
  generalize finite data = xs at h hfinite hA ⊢
  rcases xs with _ | ⟨first, rest⟩
  · obtain rfl := Except.ok.inj h
    cases hmany
  obtain ⟨b, rfl, -⟩ | ⟨g, -, hfills⟩ := histogramOfFinite_cases hfinite (by omega) h
  · exact absurd hmany (lt_irrefl 1)
  have hlength := hfills.length
  rw [hlength] at hsize
  refine ⟨g.place, hfills.tiles, fun x hx => hlength ▸ hfills.exists_bin hsize hA hx, fun hcase => ?_⟩
  have hholds : ∀ x ∈ first :: rest, holds bins (g.place x) x = true := by
    intro x hx
    rw [hlength] at hcase
    rcases hcase with hclear | ⟨k, w, hlattice⟩
    · refine hfills.holds_of_clear hsize hA hx fun j hj hjsize => ?_
      obtain ⟨i, rfl⟩ := Nat.exists_eq_succ_of_ne_zero hj.ne'
      have htail : i < bins.tail.length := by
        rw [List.length_tail]
        omega
      have hfar := hclear x hx _ (List.getElem_mem htail)
      rwa [List.getElem_tail, (hfills.bin (i + 1) (by omega)).1] at hfar
    · exact hfills.holds_of_lattice hsize hlattice hx
  exact ⟨hholds, fun i hi => hfills.count_eq hsize hholds hi⟩

omit [MathLibrary] in
/-- Five integers in four bins that are one apart. -/
theorem fiveIntegers_bounds :
    let _ := squaringLibrary
    ∃ bins, histogram [1, 2, 3, 4, (5 : Float)] 4 = .ok bins ∧ bins.length = 4 ∧ bins.length ≤ 2 ^ 50 ∧
      (∀ x ∈ finite [1, 2, 3, 4, (5 : Float)], (units x).natAbs ≤ 5 * Binary64.one) ∧
      ∀ i (hi : i < bins.length), bins[i].count = (finite [1, 2, 3, 4, (5 : Float)]).countP (holds bins i) := by
  let _ := squaringLibrary
  have hlength : (histogram [1, 2, 3, 4, (5 : Float)] 4).toOption.map List.length = some 4 := by decide +kernel
  have hlarge : ∀ x ∈ finite [1, 2, 3, 4, (5 : Float)], (units x).natAbs ≤ 5 * Binary64.one := by decide +kernel
  have hmultiple : ∀ x ∈ finite [1, 2, 3, 4, (5 : Float)],
      ∃ m ∈ [1, 2, 3, 4, (5 : Int)], units x = m * 2 ^ 1074 := by decide +kernel
  have hspan : ∀ low ∈ finite [1, 2, 3, 4, (5 : Float)], ∀ high ∈ finite [1, 2, 3, 4, (5 : Float)],
      (∀ x ∈ finite [1, 2, 3, 4, (5 : Float)], low ≤ x ∧ x ≤ high) →
        units high - units low = (4 : Nat) * (1 : Nat) * 2 ^ 1074 := by decide +kernel
  rcases hbins : histogram [1, 2, 3, 4, (5 : Float)] 4 with error | bins
  · rw [hbins] at hlength
    cases hlength
  rw [hbins] at hlength
  have hfour : bins.length = 4 := Option.some.inj hlength
  have hmany : bins.length ≤ 2 ^ 50 := hfour ▸ by decide
  have hlattice : OnLattice (finite [1, 2, 3, 4, (5 : Float)]) bins.length 1074 1 := by
    refine ⟨by decide, fun x hx => ?_, hfour ▸ hspan⟩
    obtain ⟨m, hm, hunits⟩ := hmultiple x hx
    have hsmall : ∀ m ∈ [1, 2, 3, 4, (5 : Int)], m.natAbs ≤ 2 ^ 52 := by decide
    exact ⟨m, hsmall m hm, hunits⟩
  obtain ⟨place, -, -, hexact⟩ := histogram_bounds hbins (hfour ▸ by decide) hmany hlarge
  exact ⟨bins, hbins, hfour, hmany, hlarge, (hexact (.inr ⟨1074, 1, hlattice⟩)).2⟩

omit [MathLibrary] in
/-- Three numbers of which the second is the bound between two bins, but is counted below it. -/
theorem threeDecimals_bounds :
    let _ := squaringLibrary
    (histogram [0.2, 0.5, (0.8 : Float)] 2).toOption.map (fun bins =>
        (bins.map Bin.count,
          (List.range bins.length).map fun i => (finite [0.2, 0.5, (0.8 : Float)]).countP (holds bins i))) =
      some ([2, 1], [1, 2]) := by
  decide +kernel

end RangeCalc.Statistics
