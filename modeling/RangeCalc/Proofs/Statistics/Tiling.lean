import RangeCalc.Proofs.Statistics.Multiset

/-!
# Bins side by side

Every number of a histogram has one place among the bins, and a bin counts the numbers that have its place.
Places keep the order of the numbers, and the greatest number has the last one. The upper bound of a bin is
the lower bound of the next one.

* `Grid.place`: the place of a number;
* `Grid.getElem?_foldlM_count`: what a run over the numbers counts;
* `Grid.Fills`: the bins of some numbers;
* `histogram_tiles`: what the bins of a histogram are together.
-/

namespace RangeCalc.Statistics

open Binary64

variable [MathLibrary] {x y : Float} {i j n : Nat}

theorem quotient?_eq_ok {z : Float} (h : quotient? x y = .ok z) : x / y = z := by
  rw [quotient?] at h
  split at h
  · cases h
  · exact Except.ok.inj h

theorem place?_eq_ok {round : Float → Int} {k : Int} (h : place? round x = .ok k) :
    x.isFinite = true ∧ round x = k := by
  rw [place?] at h
  split at h
  next hfinite => exact ⟨hfinite, Except.ok.inj h⟩
  next => split at h <;> cases h

namespace Grid

/-- The place of a number among the bins of a grid. -/
def place (g : Grid Float) (x : Float) : Nat := (g.index? x).toOption.getD 0

variable {g : Grid Float}

theorem place_eq (h : g.index? x = .ok i) : g.place x = i := by
  rw [place, h]
  rfl

/-- How far a number is above the least one, in units of the scale. -/
def offset (g : Grid Float) (x : Float) : Float := x / g.scale - g.low / g.scale

/-- How far a number is above the least one, in widths of a bin. -/
def quotient (g : Grid Float) (x : Float) : Float := g.offset x / g.width

/-- The place of a number is the whole part of where it is, and that of the greatest number is the last. -/
theorem index?_cases (h : g.index? x = .ok i) :
    (x < g.high ∧ (g.quotient x).isFinite = true ∧ i = min (floorInt (g.quotient x)).toNat (g.size - 1)) ∨
      (¬ x < g.high ∧ i = g.size - 1) := by
  rw [index?] at h
  split at h
  next hlt =>
    obtain ⟨z, hz, h⟩ := bind_eq_ok.mp h
    obtain ⟨k, hk, h⟩ := bind_eq_ok.mp h
    obtain rfl : g.quotient x = z := quotient?_eq_ok hz
    obtain ⟨hfinite, rfl⟩ := place?_eq_ok hk
    exact .inl ⟨hlt, hfinite, (Except.ok.inj h).symm⟩
  next hge => exact .inr ⟨hge, (Except.ok.inj h).symm⟩

theorem index?_lt (hsize : 0 < g.size) (h : g.index? x = .ok i) : i < g.size := by
  obtain ⟨-, -, rfl⟩ | ⟨-, rfl⟩ := index?_cases h <;> omega

/-! ## Order -/

section

variable (hg : g.Divides) (hx : x.isFinite = true) (hy : y.isFinite = true)
  (hlow : units g.low ≤ units x) (hxy : units x ≤ units y) (hhigh : units y ≤ units g.high)

include hg hx hy hlow hxy hhigh

theorem Divides.offset_mono : units (g.offset x) ≤ units (g.offset y) := by
  obtain ⟨m, hm, hscale⟩ := hg.scale
  obtain ⟨hxfinite, -, -⟩ := hg.finite_sub hx hlow (hxy.trans hhigh)
  obtain ⟨hyfinite, -, -⟩ := hg.finite_sub hy (hlow.trans hxy) hhigh
  rw [hscale] at hxfinite hyfinite
  rw [offset, offset, hscale]
  have hlowFinite := (finite_div_scale hg.low hm).1
  have hle := units_div_mono hx hy hm hxy
  rw [← key_of_isFinite hxfinite, ← key_of_isFinite hyfinite]
  refine (rounds_sub (finite_div_scale hx hm).1 hlowFinite).key_mono
    (rounds_sub (finite_div_scale hy hm).1 hlowFinite) ?_
  exact sub_le_sub_right (by exact_mod_cast hle) _

theorem Divides.quotient_mono (hpos : 0 < units g.width) : key (g.quotient x) ≤ key (g.quotient y) := by
  have hwidth := hg.rounds_width.2
  obtain ⟨hxfinite, -, -⟩ := hg.finite_sub hx hlow (hxy.trans hhigh)
  obtain ⟨hyfinite, -, -⟩ := hg.finite_sub hy (hlow.trans hxy) hhigh
  have hoffset := hg.offset_mono hx hy hlow hxy hhigh
  refine (rounds_div hxfinite hwidth hpos.ne').key_mono (rounds_div hyfinite hwidth hpos.ne') ?_
  refine mul_le_mul_of_nonneg_right ?_ one_cast_pos.le
  exact div_le_div_of_nonneg_right (by exact_mod_cast hoffset) (by exact_mod_cast hpos.le)

/-- Places keep the order. -/
theorem Divides.index?_mono (hpos : 0 < units g.width) (hi : g.index? x = .ok i) (hj : g.index? y = .ok j) :
    i ≤ j := by
  obtain ⟨-, hxfinite, rfl⟩ | ⟨hge, rfl⟩ := index?_cases hi
  · obtain ⟨-, hyfinite, rfl⟩ | ⟨-, rfl⟩ := index?_cases hj
    · have hkey := hg.quotient_mono hx hy hlow hxy hhigh hpos
      rw [key_of_isFinite hxfinite, key_of_isFinite hyfinite] at hkey
      have hfloor : floorInt (g.quotient x) ≤ floorInt (g.quotient y) :=
        Int.ediv_le_ediv (by exact_mod_cast one_pos) hkey
      exact min_le_min_right _ (Int.toNat_le_toNat hfloor)
    · exact min_le_right _ _
  · obtain ⟨hlt, -⟩ | ⟨-, rfl⟩ := index?_cases hj
    · rw [lt_iff_units hx hg.high] at hge
      rw [lt_iff_units hy hg.high] at hlt
      omega
    · exact le_rfl

end

/-! ## Counts -/

omit [MathLibrary] in
theorem count_map_cons (place : Float → Nat) (x : Float) (xs : List Float) (i : Nat) :
    ((x :: xs).map place).count i = (if place x = i then 1 else 0) + (xs.map place).count i := by
  rw [List.map_cons, List.count_cons, Nat.add_comm]
  simp only [beq_iff_eq]

/-- A run adds to each count how many numbers have its place. -/
theorem getElem?_foldlM_count {xs : List Float} {counts counts' : Array Nat}
    (h : xs.foldlM g.count? counts = .ok counts') (i : Nat) :
    counts'[i]? = counts[i]?.map fun c => c + (xs.map g.place).count i := by
  induction xs generalizing counts with
  | nil =>
    obtain rfl : counts = counts' := Except.ok.inj h
    simp
  | cons x xs ih =>
    rw [List.foldlM_cons] at h
    obtain ⟨next, hnext, h⟩ := bind_eq_ok.mp h
    obtain ⟨k, hk, hmodify⟩ := bind_eq_ok.mp hnext
    obtain rfl : counts.modify k (· + 1) = next := Except.ok.inj hmodify
    rw [ih h, count_map_cons, place_eq hk, Array.getElem?_modify]
    split
    · rw [Option.map_map]
      congr 1
      funext c
      show c + 1 + _ = c + (1 + _)
      omega
    · rw [Nat.zero_add]

/-- The count of a bin is the number of those who have its place. -/
theorem getElem_counts {xs : List Float} {counts : Array Nat} (h : g.counts xs = .ok counts)
    (hi : i < counts.size) : counts[i] = (xs.map g.place).count i := by
  have hsize := size_of_counts h
  rw [Grid.counts] at h
  split at h
  · cases h
  · have hcount := getElem?_foldlM_count h i
    have hi' : i < (Array.replicate g.size 0).size := by simpa [hsize] using hi
    rw [Array.getElem?_eq_getElem hi, Array.getElem?_eq_getElem hi', Array.getElem_replicate] at hcount
    simpa using hcount

/-- The bins of a grid between the least and the greatest of some numbers. -/
structure Fills (g : Grid Float) (xs : List Float) (bins : List (Bin Float)) : Prop where
  divides : g.Divides
  between : between? g.low g.high g.size = .ok g
  not_single : g.isSingle = false
  low_mem : g.low ∈ xs
  high_mem : g.high ∈ xs
  inside : ∀ x ∈ xs, x.isFinite = true ∧ units g.low ≤ units x ∧ units x ≤ units g.high
  length : bins.length = g.size
  bin (i : Nat) (hi : i < bins.length) : bins[i].lower = g.bound i ∧ bins[i].upper = g.upperBound i ∧
    bins[i].count = (xs.map g.place).count i ∧ bins[i].total = xs.length

variable {xs : List Float} {bins : List (Bin Float)} (h : g.Fills xs bins)

include h

theorem Fills.width_pos : 0 < units g.width := h.divides.width_pos h.not_single

theorem Fills.index?_eq (hx : x ∈ xs) : g.index? x = .ok (g.place x) := by
  obtain ⟨hfinite, hlow, hhigh⟩ := h.inside x hx
  obtain ⟨i, hi⟩ := h.divides.index?_isOk h.width_pos hfinite hlow hhigh
  rw [hi, place_eq hi]

theorem Fills.place_lt (hx : x ∈ xs) : g.place x < bins.length :=
  h.length ▸ index?_lt h.divides.size.1 (h.index?_eq hx)

end Grid

/-- The bins of a histogram: one from the least to the greatest number, or those of a grid. -/
theorem histogramOfFinite_cases {first : Float} {rest : List Float} {size : Nat} {bins : List (Bin Float)}
    (hfinite : ∀ x ∈ first :: rest, x.isFinite = true) (hsize : 0 < size)
    (h : histogramOfFinite (first :: rest) size = .ok bins) :
    (∃ b, bins = [b] ∧ b.lower = Scalar.least first rest ∧ b.upper = Scalar.greatest first rest ∧
        b.count = (first :: rest).length ∧ b.total = (first :: rest).length) ∨
      ∃ g : Grid Float, g.size = size ∧ g.Fills (first :: rest) bins := by
  obtain ⟨hleast, hle⟩ := isLeast_least hfinite
  obtain ⟨hgreatest, hge⟩ := isGreatest_greatest hfinite
  have hlow := hfinite _ hleast
  have hhigh := hfinite _ hgreatest
  dsimp only [histogramOfFinite] at h
  obtain ⟨center, -, h⟩ := bind_eq_ok.mp h
  obtain ⟨deviation, -, h⟩ := bind_eq_ok.mp h
  obtain ⟨g, hbetween, h⟩ := bind_eq_ok.mp h
  split at h
  · exact .inl ⟨_, (Except.ok.inj h).symm, rfl, rfl, rfl, rfl⟩
  next hsingle =>
    obtain ⟨counts, hcounts, h⟩ := bind_eq_ok.mp h
    obtain rfl := Except.ok.inj h
    -- a grid that counts does not have too many bins
    have hlimit : size ≤ Grid.sizeLimit := by
      rw [Grid.counts, Grid.size_of_between? hbetween] at hcounts
      split at hcounts
      · cases hcounts
      · omega
    obtain ⟨g', hbetween', hdivides, hglow, hghigh, hgsize⟩ := Grid.between?_isOk hlow hhigh ⟨hsize, hlimit⟩
    obtain rfl : g = g' := by
      rw [hbetween] at hbetween'
      exact Except.ok.inj hbetween'
    have hcount := size_of_counts hcounts
    refine .inr ⟨g, hgsize, hdivides, ?_, by simpa using hsingle, hglow ▸ hleast, hghigh ▸ hgreatest, ?_, ?_, ?_⟩
    · rw [hglow, hghigh, hgsize]
      exact hbetween
    · intro x hx
      rw [hglow, hghigh]
      exact ⟨hfinite x hx, (le_iff_units hlow (hfinite x hx)).mp (hle x hx),
        (le_iff_units (hfinite x hx) hhigh).mp (hge x hx)⟩
    · rw [List.length_mapIdx, Array.length_toList, hcount]
    · intro i hi
      rw [List.getElem_mapIdx]
      refine ⟨rfl, rfl, ?_, rfl⟩
      rw [List.length_mapIdx, Array.length_toList] at hi
      exact Grid.getElem_counts hcounts hi

/-! ## Histograms -/

/-- How bins lie side by side and hold some numbers, each of which has one place among them. -/
structure Tiles (bins : List (Bin Float)) (xs : List Float) (place : Float → Nat) : Prop where
  place_lt : ∀ x ∈ xs, place x < bins.length
  place_mono : ∀ x ∈ xs, ∀ y ∈ xs, x ≤ y → place x ≤ place y
  place_greatest : ∀ x ∈ xs, (∀ y ∈ xs, y ≤ x) → place x + 1 = bins.length
  /-- Where there is more than one bin, the place is what the grid of the bins computes. -/
  index : 1 < bins.length → ∃ g : Grid Float, g.low ∈ xs ∧ g.high ∈ xs ∧
    Grid.between? g.low g.high bins.length = .ok g ∧ ∀ x ∈ xs, g.index? x = .ok (place x)
  count (i : Nat) (hi : i < bins.length) : bins[i].count = (xs.map place).count i
  total : ∀ b ∈ bins, b.total = xs.length
  adjoin (i : Nat) (hi : i + 1 < bins.length) : bins[i].upper = bins[i + 1].lower
  last : ∃ b ∈ bins.getLast?, b.upper ∈ xs ∧ ∀ x ∈ xs, x ≤ b.upper

/-- No number is counted twice, and none is lost. -/
theorem Tiles.sum_counts {bins : List (Bin Float)} {xs : List Float} {place : Float → Nat}
    (h : Tiles bins xs place) : (bins.map Bin.count).sum = xs.length := by
  have hplaces : ∀ i ∈ (xs.map place : Multiset Nat), i ∈ Finset.range bins.length := by
    intro i hi
    obtain ⟨x, hx, rfl⟩ := List.mem_map.mp (Multiset.mem_coe.mp hi)
    exact Finset.mem_range.mpr (h.place_lt x hx)
  calc (bins.map Bin.count).sum = ∑ i : Fin bins.length, bins[i.val].count :=
        (Fin.sum_univ_fun_getElem bins Bin.count).symm
    _ = ∑ i : Fin bins.length, (xs.map place).count i.val :=
        Finset.sum_congr rfl fun i _ => h.count i i.isLt
    _ = ∑ i ∈ Finset.range bins.length, (xs.map place).count i :=
        Fin.sum_univ_eq_sum_range (fun i => (xs.map place).count i) _
    _ = xs.length := by simpa using Multiset.sum_count_eq_card hplaces

/-- One bin holds all numbers. -/
theorem Tiles.single {b : Bin Float} {xs : List Float} (hupper : b.upper ∈ xs) (hle : ∀ x ∈ xs, x ≤ b.upper)
    (hcount : b.count = xs.length) (htotal : b.total = xs.length) : Tiles [b] xs fun _ => 0 where
  place_lt _ _ := Nat.one_pos
  place_mono _ _ _ _ _ := le_rfl
  place_greatest _ _ _ := rfl
  index h := absurd h (lt_irrefl 1)
  count i hi := by
    obtain rfl : i = 0 := Nat.lt_one_iff.mp hi
    simp [hcount]
  total c hc := List.mem_singleton.mp hc ▸ htotal
  adjoin i hi := absurd hi (by simp)
  last := ⟨b, rfl, hupper, hle⟩

/-- The bins of a grid lie side by side. -/
theorem Grid.Fills.tiles {g : Grid Float} {xs : List Float} {bins : List (Bin Float)}
    (h : g.Fills xs bins) : Tiles bins xs g.place := by
  have hsize := h.divides.size.1
  have hpos := h.width_pos
  have hlength := h.length
  have hbelow : ∀ x ∈ xs, x ≤ g.high := fun x hx =>
    (le_iff_units (h.inside x hx).1 h.divides.high).mpr (h.inside x hx).2.2
  refine ⟨fun x => h.place_lt, ?_, ?_, fun _ => ?_, fun i hi => (h.bin i hi).2.2.1, ?_, ?_, ?_⟩
  · intro x hx y hy hxy
    obtain ⟨hxfinite, hlow, -⟩ := h.inside x hx
    obtain ⟨hyfinite, -, hhigh⟩ := h.inside y hy
    exact h.divides.index?_mono hxfinite hyfinite hlow ((le_iff_units hxfinite hyfinite).mp hxy) hhigh hpos
      (h.index?_eq hx) (h.index?_eq hy)
  · intro x hx hgreatest
    obtain ⟨hlt, -⟩ | ⟨-, hplace⟩ := index?_cases (h.index?_eq hx)
    · have hle := hgreatest _ h.high_mem
      rw [lt_iff_units (h.inside x hx).1 h.divides.high] at hlt
      rw [le_iff_units h.divides.high (h.inside x hx).1] at hle
      omega
    · omega
  · exact ⟨g, h.low_mem, h.high_mem, hlength ▸ h.between, fun x => h.index?_eq⟩
  · intro b hb
    obtain ⟨i, hi, rfl⟩ := List.mem_iff_getElem.mp hb
    exact (h.bin i hi).2.2.2
  · intro i hi
    rw [(h.bin i (by omega)).2.1, (h.bin (i + 1) hi).1, upperBound, if_neg (by omega)]
  · have hlast : bins.length - 1 < bins.length := by omega
    have hupper := (h.bin _ hlast).2.1
    rw [upperBound, if_pos (by omega)] at hupper
    refine ⟨bins[bins.length - 1], ?_, hupper ▸ h.high_mem, hupper ▸ hbelow⟩
    rw [List.getLast?_eq_getElem?, List.getElem?_eq_getElem hlast]
    rfl

/-- A histogram has no bins without finite numbers, and else one bin or as many as it is asked for: one if all
numbers are equal. The bins lie side by side, each number is counted once, and the greatest in the last. -/
theorem histogram_tiles {data : List Float} {size : Int} {bins : List (Bin Float)}
    (h : histogram data size = .ok bins) :
    (bins = [] ↔ finite data = []) ∧
      (finite data ≠ [] →
        (bins.length = 1 ∨ bins.length = size) ∧
        ((∀ x ∈ finite data, ∀ y ∈ finite data, x ≤ y) → bins.length = 1) ∧
        (bins.map Bin.count).sum = (finite data).length ∧
        ∃ place, Tiles bins (finite data) place) := by
  have hfinite : ∀ x ∈ finite data, x.isFinite = true := isFinite_of_mem_finite
  rw [histogram] at h
  split at h
  · cases h
  rw [mapError_eq_ok] at h
  generalize finite data = xs at h hfinite ⊢
  rcases xs with _ | ⟨first, rest⟩
  · obtain rfl := Except.ok.inj h
    exact ⟨iff_of_true rfl rfl, fun hne => absurd rfl hne⟩
  have hsize : 0 < size.toNat := by omega
  refine ⟨iff_of_false (histogramOfFinite_ne_nil hsize h) (List.cons_ne_nil _ _), fun _ => ?_⟩
  obtain ⟨b, rfl, -, hupper, hcount, htotal⟩ | ⟨g, hgsize, hfills⟩ :=
    histogramOfFinite_cases hfinite hsize h
  · obtain ⟨hgreatest, hge⟩ := isGreatest_greatest hfinite
    have htiles := Tiles.single (hupper ▸ hgreatest) (hupper ▸ hge) hcount htotal
    exact ⟨.inl rfl, fun _ => rfl, htiles.sum_counts, _, htiles⟩
  · have htiles := hfills.tiles
    refine ⟨.inr ?_, fun hequal => ?_, htiles.sum_counts, _, htiles⟩
    · rw [hfills.length]
      omega
    · -- a grid is not single only if its ends differ
      have hle : g.high ≤ g.low := hequal _ hfills.high_mem _ hfills.low_mem
      have hnot : ¬ g.low < g.high := by
        rw [le_iff_units hfills.divides.high hfills.divides.low] at hle
        rw [lt_iff_units hfills.divides.low hfills.divides.high]
        omega
      have hsingle := hfills.not_single
      simp [Grid.isSingle, hnot] at hsingle

omit [MathLibrary] in
/-- Four numbers, with something undefined among them, in two bins. -/
theorem fourMeasurements_tile :
    let _ := squaringLibrary
    ∃ bins, histogram [1, nan, 2, 4, 3] 2 = .ok bins ∧ bins.length = 2 ∧ (bins.map Bin.count).sum = 4 := by
  let _ := squaringLibrary
  have hdata : (finite [1, nan, 2, 4, 3]).length = 4 := by decide +kernel
  have hlength : (histogram [1, nan, 2, 4, 3] 2).toOption.map List.length = some 2 := by decide +kernel
  rcases hbins : histogram [1, nan, 2, 4, 3] 2 with error | bins
  · rw [hbins] at hlength
    cases hlength
  · rw [hbins] at hlength
    have hne : finite [1, nan, 2, 4, 3] ≠ [] := fun h => by simp [h] at hdata
    obtain ⟨-, -, hsum, -⟩ := (histogram_tiles hbins).2 hne
    exact ⟨bins, hbins, Option.some.inj hlength, hsum.trans hdata⟩

end RangeCalc.Statistics
