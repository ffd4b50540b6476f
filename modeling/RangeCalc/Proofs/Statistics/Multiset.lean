import RangeCalc.Proofs.Statistics.Histogram
import RangeCalc.Proofs.Statistics.Permutation

/-!
# Statistics as functions of a multiset

The statistics of some data are those of the finite numbers among them, in any order. Two things may tell
orders apart: a sum that overflows on the way in one of them only, and zeros of both signs.

* `Grid.between?_agree`, `Grid.counts_perm`, `histogramOfFinite_agree`: histograms;
* `SumsAlike.of_small`: numbers whose sums do not overflow in any order;
* `statistics_perm`: all statistics.
-/

namespace RangeCalc

open Binary64

namespace Statistics

variable [MathLibrary] {xs ys : List Float}

/-! ## Histograms -/

omit [MathLibrary] in
/-- Numbers that are alike are beside the same integers. -/
theorem floorInt_eq {x y : Float} (h : Alike x y) : floorInt x = floorInt y := by
  rw [floorInt, floorInt, h.units_eq]

theorem place?_eq {x y : Float} (h : Alike x y) : place? Scalar.floor x = place? Scalar.floor y := by
  have hfinite : Scalar.isFinite x = Scalar.isFinite y := h.isFinite_eq
  have hundefined : Scalar.isUndefined x = Scalar.isUndefined y := h.isNaN_eq
  have hfloor : Scalar.floor x = Scalar.floor y := floorInt_eq h
  rw [place?, place?, hfinite, hundefined, hfloor]

/-- Bins that hold as many numbers, in the same zone, and whose bounds are related. -/
structure Bin.Related (R : Float → Float → Prop) (b b' : Bin Float) : Prop where
  lower : R b.lower b'.lower
  upper : R b.upper b'.upper
  count : b.count = b'.count
  total : b.total = b'.total
  zone : b.zone = b'.zone

/-- Grids with related bounds and width. -/
structure Grid.Related (R : Float → Float → Prop) (g g' : Grid Float) : Prop where
  low : R g.low g'.low
  high : R g.high g'.high
  scale : g.scale = g'.scale
  width : R g.width g'.width
  size : g.size = g'.size

section

variable {R : Float → Float → Prop} (hR : IsCongruence R)

include hR

theorem quotient?_agree {x x' : Float} (h : R x x') (y : Float) :
    Agree R (quotient? x y) (quotient? x' y) := by
  rw [quotient?, quotient?]
  split
  · exact .error _
  · exact .ok (hR.div h y)

theorem Grid.between?_agree {low low' high high' : Float} (hlow : R low low') (hhigh : R high high')
    (size : Nat) :
    Agree (Grid.Related R) (Grid.between? low high size) (Grid.between? low' high' size) := by
  have hfinite : Scalar.isFinite (high - low) = Scalar.isFinite (high' - low') :=
    (hR.alike (hR.sub hhigh hlow)).isFinite_eq
  rw [between?, between?, hfinite]
  generalize (Scalar.ofInt (if Scalar.isFinite (high' - low') = true then 1 else 2) : Float) = scale
  refine Agree.bind_same fun count _ => ?_
  have hspan := hR.sub (hR.div hhigh scale) (hR.div hlow scale)
  exact (quotient?_agree hR hspan count).bind fun width width' _ _ hwidth =>
    .ok ⟨hlow, hhigh, rfl, hwidth, rfl⟩

theorem sigmaZone_eq {x y : Float} (h : R x y) (center deviation : Float) :
    sigmaZone x center deviation = sigmaZone y center deviation := by
  have hdistance : Scalar.abs (x - center) = Scalar.abs (y - center) :=
    (hR.alike (hR.sub h (hR.refl center))).abs_eq
  rw [sigmaZone, sigmaZone, hdistance]

/-- Bins with related bounds. -/
theorem Bin.related {lower lower' upper upper' : Float} (hlower : R lower lower') (hupper : R upper upper')
    (count total : Nat) (center deviation : Float) :
    Bin.Related R ⟨lower, upper, count, total, sigmaZone (Bin.middle lower upper) center deviation⟩
      ⟨lower', upper', count, total, sigmaZone (Bin.middle lower' upper') center deviation⟩ := by
  have hmiddle : R (Bin.middle lower upper) (Bin.middle lower' upper') :=
    hR.add (hR.div hlower _) (hR.div hupper _)
  exact ⟨hlower, hupper, rfl, rfl, sigmaZone_eq hR hmiddle center deviation⟩

namespace Grid.Related

variable {g g' : Grid Float} (h : Grid.Related R g g')

include h

theorem isSingle_eq : g.isSingle = g'.isSingle := by
  have hlt := (hR.alike h.low).lt_iff (hR.alike h.high)
  have hle := (hR.alike h.width).le_iff (.refl (zero : Float))
  rw [isSingle, isSingle, decide_eq_decide.mpr hlt, decide_eq_decide.mpr hle]

theorem bound (i : Nat) : R (g.bound i) (g'.bound i) := by
  rw [Grid.bound, Grid.bound, h.scale]
  exact hR.mul (hR.add (hR.div h.low _) (hR.mul h.width (hR.refl _))) (hR.refl _)

theorem upperBound (i : Nat) : R (g.upperBound i) (g'.upperBound i) := by
  rw [Grid.upperBound, Grid.upperBound, h.size]
  split
  · exact h.high
  · exact h.bound hR _

/-- A width that makes more than one bin is no zero. -/
theorem width_eq (hsingle : g.isSingle = false) : g.width = g'.width := by
  rcases hR.alike h.width with heq | ⟨hzero, -⟩
  · exact heq
  · obtain ⟨hfinite, hunits⟩ := units_of_beq_zero hzero
    obtain ⟨hzeroFinite, hzeroUnits⟩ := @units_ofInt 0 (by decide)
    have hle : g.width ≤ (zero : Float) :=
      (le_iff_units hfinite hzeroFinite).mpr (by rw [hunits, hzeroUnits]; rfl)
    rw [isSingle, decide_eq_true hle, Bool.or_true] at hsingle
    cases hsingle

/-- A number has the same bin in both grids. -/
theorem index?_eq (hsingle : g.isSingle = false) (x : Float) : g.index? x = g'.index? x := by
  have hlt := (Alike.refl x).lt_iff (hR.alike h.high)
  have hnumerator : R (x / g.scale - g.low / g.scale) (x / g.scale - g'.low / g.scale) :=
    hR.sub (hR.refl _) (hR.div h.low _)
  have hagree : Agree Eq (g.index? x) (g'.index? x) := by
    rw [index?, index?, ← h.scale, ← h.width_eq hR hsingle, ← h.size]
    by_cases hx : x < g.high
    · rw [if_pos hx, if_pos (hlt.mp hx)]
      refine (quotient?_agree hR hnumerator _).bind fun place place' _ _ hplace => ?_
      have heq : place? Scalar.floor place = place? Scalar.floor place' := place?_eq (hR.alike hplace)
      exact .of_eq (by rw [heq])
    · rw [if_neg hx, if_neg (mt hlt.mpr hx)]
      exact .ok rfl
  exact hagree.eq

theorem counts_eq (hsingle : g.isSingle = false) (xs : List Float) : g.counts xs = g'.counts xs := by
  have hcount : g.count? = g'.count? := by
    funext counts x
    rw [count?, count?, h.index?_eq hR hsingle]
  rw [counts, counts, h.size, hcount]

end Grid.Related

end

/-- A grid has as many bins as it is asked for. -/
theorem Grid.size_of_between? {low high : Float} {size : Nat} {g : Grid Float}
    (h : Grid.between? low high size = .ok g) : g.size = size := by
  obtain ⟨count, -, h⟩ := bind_eq_ok.mp h
  obtain ⟨width, -, h⟩ := bind_eq_ok.mp h
  obtain rfl := Except.ok.inj h
  rfl

/-- Bins hold as many of some numbers in any order. -/
theorem Grid.counts_perm {g : Grid Float} (hperm : xs.Perm ys) (hindex : ∀ x ∈ xs, ∃ i, g.index? x = .ok i) :
    g.counts xs = g.counts ys := by
  obtain ⟨index, hindex⟩ : ∃ index : Float → Nat, ∀ x ∈ xs, g.index? x = .ok (index x) := by
    refine ⟨fun x => (g.index? x).toOption.getD 0, fun x hx => ?_⟩
    obtain ⟨i, hi⟩ := hindex x hx
    simp only [hi]
    rfl
  have hstep {zs : List Float} (hzs : ∀ z ∈ zs, z ∈ xs) (counts : Array Nat) :
      zs.foldlM g.count? counts = .ok (zs.foldl (fun c z => c.modify (index z) (· + 1)) counts) :=
    foldlM_eq (fun c z hz => by rw [count?, bind_ok (hindex z (hzs z hz))]; rfl) counts
  have hcomm (c : Array Nat) (i j : Nat) :
      (c.modify i (· + 1)).modify j (· + 1) = (c.modify j (· + 1)).modify i (· + 1) := by
    ext k hk hk'
    · simp
    · simp only [Array.getElem_modify]
      grind
  rw [counts, counts]
  split
  · rfl
  · rw [hstep fun z hz => hz, hstep fun z hz => hperm.mem_iff.mpr hz,
      hperm.foldl_eq' fun x _ y _ c => hcomm c (index x) (index y)]

omit [MathLibrary] in
theorem forall₂_mapIdx {α β γ : Type} {S : β → γ → Prop} {f : Nat → α → β} {g : Nat → α → γ}
    (h : ∀ i a, S (f i a) (g i a)) (as : List α) : List.Forall₂ S (as.mapIdx f) (as.mapIdx g) := by
  induction as generalizing f g with
  | nil => exact .nil
  | cons a as ih =>
    rw [List.mapIdx_cons, List.mapIdx_cons]
    exact .cons (h 0 a) (ih fun i => h (i + 1))

/-- The histogram of the same numbers in another order has the same bins, up to what zeros among the
numbers are related by. -/
theorem histogramOfFinite_agree {R : Float → Float → Prop} (hR : IsCongruence R)
    (hsquares : MathLibrary.SquaresBounded) (hperm : xs.Perm ys) (hfinite : ∀ x ∈ xs, x.isFinite = true)
    (hlength : xs.length ≤ 2 ^ 53) (hmean : meanOfFinite xs = meanOfFinite ys)
    (hzeros : ∀ x ∈ xs, ∀ y ∈ xs, Alike x y → R x y) {size : Nat} (hsize : 1 ≤ size) :
    Agree (List.Forall₂ (Bin.Related R)) (histogramOfFinite xs size) (histogramOfFinite ys size) := by
  have hdeviation := deviationOfFinite_perm hsquares hperm hfinite hlength hmean
  match xs, ys, hperm.length_eq with
  | [], [], _ => exact .ok .nil
  | first :: rest, first' :: rest', hcount =>
    have hfinite' : ∀ y ∈ first' :: rest', y.isFinite = true := fun y hy =>
      hfinite y (hperm.mem_iff.mpr hy)
    obtain ⟨hleast, hle⟩ := isLeast_least hfinite
    obtain ⟨hgreatest, hge⟩ := isGreatest_greatest hfinite
    have hlow := hzeros _ hleast _ (hperm.mem_iff.mpr (isLeast_least hfinite').1)
      (least_perm hperm hfinite)
    have hhigh := hzeros _ hgreatest _ (hperm.mem_iff.mpr (isGreatest_greatest hfinite').1)
      (greatest_perm hperm hfinite)
    dsimp only [histogramOfFinite]
    rw [← hmean, ← hdeviation, ← hcount]
    refine Agree.bind_same fun center _ => Agree.bind_same fun deviation _ => ?_
    refine (Grid.between?_agree hR hlow hhigh size).bind fun grid grid' hgrid _ hrelated => ?_
    rw [← hrelated.isSingle_eq hR]
    split
    · exact .ok (.cons (Bin.related hR hlow hhigh _ _ _ _) .nil)
    next hsingle =>
      have hsingle := Bool.of_not_eq_true hsingle
      have hcounts : grid.counts (first :: rest) = grid'.counts (first' :: rest') := by
        by_cases hlimit : Grid.sizeLimit < size
        · rw [Grid.counts, Grid.counts, ← hrelated.size, Grid.size_of_between? hgrid, if_pos hlimit,
            if_pos hlimit]
        · obtain ⟨g, hg, hdivides, hglow, hghigh, -⟩ :=
            Grid.between?_isOk (hfinite _ hleast) (hfinite _ hgreatest) ⟨hsize, not_lt.mp hlimit⟩
          obtain rfl := Except.ok.inj (hgrid.symm.trans hg)
          rw [← hrelated.counts_eq hR hsingle]
          refine Grid.counts_perm hperm fun x hx => ?_
          refine hdivides.index?_isOk (hdivides.width_pos hsingle) (hfinite x hx) ?_ ?_
          · rw [hglow]
            exact (le_iff_units (hfinite _ hleast) (hfinite x hx)).mp (hle x hx)
          · rw [hghigh]
            exact (le_iff_units (hfinite x hx) (hfinite _ hgreatest)).mp (hge x hx)
      rw [← hcounts]
      refine Agree.bind_same fun counts _ => .ok ?_
      exact forall₂_mapIdx (fun i count =>
        Bin.related hR (hrelated.bound hR i) (hrelated.upperBound hR i) count _ _ _) _

/-! ## All statistics -/

/-- Zeros among some numbers have one sign. -/
def OneZero (xs : List Float) : Prop :=
  ∀ x ∈ xs, ∀ y ∈ xs, Alike x y → x = y

omit [MathLibrary] in
theorem Bin.Related.eq {b b' : Bin Float} (h : Bin.Related Eq b b') : b = b' := by
  rcases b with ⟨lower, upper, count, total, zone⟩
  rcases b' with ⟨lower', upper', count', total', zone'⟩
  obtain ⟨rfl, rfl, rfl, rfl, rfl⟩ := h
  rfl

/-- Numbers whose sizes add up to something below the largest numbers. -/
theorem SumsAlike.of_small (hperm : xs.Perm ys) (hfinite : ∀ x ∈ xs, x.isFinite = true)
    (hsmall : (xs.map fun x => (units x).natAbs).sum ≤ (2 ^ 54 - 5) * halfStep) : SumsAlike xs ys := by
  obtain ⟨z, hz⟩ := exactSum?_isSome hfinite hsmall
  rw [(hperm.map _).sum_eq] at hsmall
  obtain ⟨z', hz'⟩ := exactSum?_isSome (fun y hy => hfinite y (hperm.mem_iff.mpr hy)) hsmall
  exact ⟨by rw [hz, hz']; rfl, fun h => by rw [hz] at h; cases h⟩

theorem isFinite_of_mem_finite {data : List Float} : ∀ x ∈ finite data, x.isFinite = true :=
  fun _ hx => List.of_mem_filter hx

section

variable {data data' : List Float} (hperm : (finite data).Perm (finite data'))

include hperm

theorem percentile_agree {R : Float → Float → Prop} (hR : IsCongruence R)
    (hzeros : ∀ x ∈ finite data, ∀ y ∈ finite data, Alike x y → R x y) (p : Float) :
    Agree R (percentile data p) (percentile data' p) :=
  percentileOfSorted_agree hR (ascending_perm hperm isFinite_of_mem_finite hzeros) p

theorem histogram_agree {R : Float → Float → Prop} (hR : IsCongruence R)
    (hsquares : MathLibrary.SquaresBounded) (hlength : (finite data).length ≤ 2 ^ 53)
    (hmean : mean data = mean data') (hzeros : ∀ x ∈ finite data, ∀ y ∈ finite data, Alike x y → R x y)
    (size : Int) :
    Agree (List.Forall₂ (Bin.Related R)) (histogram data size) (histogram data' size) := by
  rw [histogram, histogram]
  split
  · exact .error _
  next hsize =>
    exact (histogramOfFinite_agree hR hsquares hperm isFinite_of_mem_finite hlength hmean hzeros
      (by omega)).mapError _

/-- The statistics of data with the same finite numbers in any order. Percentiles are always equal up to the
signs of zeros; so are mean, deviation and histograms if the sums overflow in both orders or in none, and
the first two of them are the same numbers. If all zeros have one sign, everything is the same. -/
theorem statistics_perm (hsquares : MathLibrary.SquaresBounded) (hlength : (finite data).length ≤ 2 ^ 53) :
    (∀ p, Agree Alike (percentile data p) (percentile data' p)) ∧
      (OneZero (finite data) → ∀ p, percentile data p = percentile data' p) ∧
      (SumsAlike (finite data) (finite data') →
        mean data = mean data' ∧ standardDeviation data = standardDeviation data' ∧
          (∀ size, Agree (List.Forall₂ (Bin.Related Alike)) (histogram data size) (histogram data' size)) ∧
          (OneZero (finite data) → ∀ size, histogram data size = histogram data' size)) ∧
      (((finite data).map fun x => (units x).natAbs).sum ≤ (2 ^ 54 - 5) * halfStep →
        SumsAlike (finite data) (finite data')) := by
  refine ⟨percentile_agree hperm isCongruence_alike fun _ _ _ _ => id, fun hzeros p => ?_, fun hsums => ?_,
    .of_small hperm isFinite_of_mem_finite⟩
  · exact (percentile_agree hperm isCongruence_eq hzeros p).eq
  · have hmean : mean data = mean data' := meanOfFinite_perm hperm isFinite_of_mem_finite hlength hsums
    refine ⟨hmean, deviationOfFinite_perm hsquares hperm isFinite_of_mem_finite hlength hmean,
      histogram_agree hperm isCongruence_alike hsquares hlength hmean fun _ _ _ _ => id, ?_⟩
    intro hzeros size
    refine Agree.eq ((histogram_agree hperm isCongruence_eq hsquares hlength hmean hzeros size).imp ?_)
    intro bins bins' hbins
    rw [← List.forall₂_eq_eq_eq]
    exact hbins.imp fun _ _ => Bin.Related.eq

end

end Statistics

open Statistics

/-- Two numbers in both orders, with something undefined and something infinite among them. -/
theorem twoMeasurements_multiset :
    let _ := squaringLibrary
    (finite [2, nan, 0.5]).Perm (finite [0.5, 2, infinity]) ∧
      mean [2, nan, 0.5] = mean [0.5, 2, infinity] ∧
      standardDeviation [2, nan, 0.5] = standardDeviation [0.5, 2, infinity] ∧
      percentile [2, nan, 0.5] 90 = percentile [0.5, 2, infinity] 90 ∧
      histogram [2, nan, 0.5] 3 = histogram [0.5, 2, infinity] 3 := by
  let _ := squaringLibrary
  have hfinite : (2 : Float).isFinite = true ∧ (0.5 : Float).isFinite = true ∧ nan.isFinite = false ∧
      infinity.isFinite = false := by decide +kernel
  obtain ⟨htwo, hhalf, hnan, hinfinity⟩ := hfinite
  have hfirst : finite [2, nan, 0.5] = [2, 0.5] := by
    simp [finite, Scalar.isFinite, htwo, hhalf, hnan]
  have hsecond : finite [0.5, 2, infinity] = [0.5, 2] := by
    simp [finite, Scalar.isFinite, htwo, hhalf, hinfinity]
  have hperm : (finite [2, nan, 0.5]).Perm (finite [0.5, 2, infinity]) := by
    rw [hfirst, hsecond]
    exact .swap _ _ _
  have hlength : (finite [2, nan, 0.5]).length ≤ 2 ^ 53 := by
    rw [hfirst]
    decide
  obtain ⟨-, hpercentile, hstatistics, hsmall⟩ := statistics_perm hperm squaringLibrary_squaresBounded hlength
  rw [hfirst] at hpercentile hstatistics hsmall
  have hzeros : OneZero [2, 0.5] := by
    intro x hx y _ h
    rcases h with heq | ⟨hzero, -⟩
    · exact heq
    · have hne : ((2 : Float) == 0) = false ∧ ((0.5 : Float) == 0) = false := by decide +kernel
      simp only [List.mem_cons, List.not_mem_nil, or_false] at hx
      rcases hx with rfl | rfl <;> simp [hne] at hzero
  obtain ⟨hmean, hdeviation, -, hhistogram⟩ := hstatistics (hsmall (by decide +kernel))
  exact ⟨hperm, hmean, hdeviation, hpercentile hzeros 90, hhistogram hzeros 3⟩

/-- Three numbers whose sum overflows on the way in one order only, and zeros of both signs. -/
theorem threeLarge_order :
    let _ := squaringLibrary
    [1.5e308, 1e308, -1.3e308].Perm [1.5e308, -1.3e308, (1e308 : Float)] ∧
      (mean [1.5e308, 1e308, -1.3e308]).toOption.map Float.toBits =
        some (3.9999999999999994e307 : Float).toBits ∧
      (mean [1.5e308, -1.3e308, 1e308]).toOption.map Float.toBits = some (4e307 : Float).toBits ∧
      (histogram [0.0, -0.0] 1).toOption.map (·.map fun b => b.lower.toBits) ≠
        (histogram [-0.0, 0.0] 1).toOption.map (·.map fun b => b.lower.toBits) := by
  refine ⟨.cons _ (.swap _ _ _), ?_⟩
  decide +kernel

end RangeCalc
