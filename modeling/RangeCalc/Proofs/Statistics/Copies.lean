import RangeCalc.Proofs.Number.SquareRoot
import RangeCalc.Proofs.Statistics.Histogram
import RangeCalc.Proofs.Statistics.Percentile

/-!
# Copies of one number

Least and greatest number, percentiles and histogram of some copies of a number are what they should be.
The mean is rounded twice, when the copies are added and when the sum is divided, and need not be that
number; if it is, the deviation is zero.

* `percentileOfSorted_copies`, `histogramOfFinite_copies`;
* `meanOfFinite_copies`, `meanOfFinite_exact`: the mean, and when it is the number;
* `deviationOfFinite_copies`: the deviation.
-/

namespace RangeCalc

open Binary64

namespace Binary64

variable {a : ℚ} {x y : Float}

theorem beq_iff_units (hx : x.isFinite = true) (hy : y.isFinite = true) :
    (x == y) = true ↔ units x = units y := by
  rw [beq_iff_key (not_isNaN_of_isFinite hx) (not_isNaN_of_isFinite hy), key_of_isFinite hx,
    key_of_isFinite hy]

/-- Numbers are equal to what an exact number is rounded to if it is rounded to them. -/
theorem Rounds.beq_iff (hx : Rounds a x) (hy : y.isFinite = true) : (x == y) = true ↔ Rounds a y := by
  have hdefined := not_isNaN_of_isFinite hy
  rw [beq_iff_key hx.defined hdefined]
  constructor
  · intro hkey
    obtain ⟨n, hn, hvalue⟩ := hx.key_eq
    rw [hkey] at hvalue
    exact ⟨hdefined, n, hn, hvalue⟩
  · exact hx.key_unique

end Binary64

namespace Statistics

variable {v center : Float} {n size : Nat}

/-- A choice between copies. -/
theorem foldl_copies {α : Type} {choose : α → α → α} {v : α} (h : choose v v = v) (n : Nat) :
    (List.replicate n v).foldl choose v = v := by
  induction n with
  | zero => rfl
  | succ n ih => rw [List.replicate_succ, List.foldl_cons, h, ih]

theorem mem_copies {x : Float} (h : x ∈ v :: List.replicate n v) : x = v :=
  List.eq_of_mem_replicate (n := n + 1) h

variable [MathLibrary]

theorem least_copies (v : Float) (n : Nat) : Scalar.least v (List.replicate n v) = v := by
  have hself : Scalar.lesser v v = v := ite_self v
  exact foldl_copies hself n

theorem greatest_copies (v : Float) (n : Nat) : Scalar.greatest v (List.replicate n v) = v := by
  have hself : Scalar.greater v v = v := ite_self v
  exact foldl_copies hself n

theorem ascending_copies (v : Float) (n : Nat) :
    ascending (v :: List.replicate n v) = v :: List.replicate n v :=
  List.perm_replicate.mp (List.mergeSort_perm (List.replicate (n + 1) v) _)

section

variable (hv : v.isFinite = true)

include hv

/-- The straight line through two copies. -/
theorem interpolate_copies {fraction : Float} (hfraction : fraction.isFinite = true) :
    (interpolate v v fraction == v) = true := by
  have hdelta : Rounds 0 (v - v) := by
    have := rounds_sub hv hv
    rwa [sub_self] at this
  obtain ⟨hfinite, hzero⟩ := hdelta.of_zero
  have hproduct : Rounds 0 ((v - v) * fraction) := by
    have := rounds_mul hfinite hfraction
    rwa [hzero, Int.cast_zero, zero_mul, zero_div] at this
  obtain ⟨hproductFinite, hproductZero⟩ := hproduct.of_zero
  have hsum := rounds_add hv hproductFinite
  rw [hproductZero, Int.cast_zero, add_zero] at hsum
  have heq : interpolate v v fraction = v + (v - v) * fraction := if_pos hfinite
  rw [heq]
  exact (hsum.beq_iff hv).mpr (Rounds.self hv)

/-- All percentiles of copies are equal to the number. -/
theorem percentileOfSorted_copies (hn : n + 1 ≤ 2 ^ 53) {p : Float} (hp : p.isNaN = false) :
    ∃ x, percentileOfSorted (ascending (v :: List.replicate n v)).toArray p = .ok x ∧ (x == v) = true := by
  rw [ascending_copies]
  have hself : (v == v) = true := (beq_iff_units hv hv).mpr rfl
  have hmem : ∀ x ∈ (v :: List.replicate n v).toArray, x = v := fun x hx =>
    mem_copies (List.mem_toArray.mp hx)
  have hsize : (v :: List.replicate n v).toArray.size = n + 1 := by simp
  obtain ⟨x, hx, heq⟩ | ⟨i, j, hij, hj, fraction, hfraction, heq⟩ :=
    percentileOfSorted_cases (hsize.trans_le hn) (by omega) hp
  · obtain rfl := hmem x hx
    exact ⟨x, heq, hself⟩
  · rw [hmem _ (Array.getElem_mem (hij.trans_lt hj)), hmem _ (Array.getElem_mem hj)] at heq
    exact ⟨_, heq, interpolate_copies hv hfraction.finite⟩

/-- The histogram of copies is one bin, however many are asked for. -/
theorem histogramOfFinite_copies {bins : List (Bin Float)}
    (h : histogramOfFinite (v :: List.replicate n v) size = .ok bins) :
    ∃ b, bins = [b] ∧ b.lower = v ∧ b.upper = v ∧ b.count = n + 1 ∧ b.total = n + 1 := by
  dsimp only [histogramOfFinite] at h
  rw [least_copies, greatest_copies] at h
  obtain ⟨center, -, h⟩ := bind_eq_ok.mp h
  obtain ⟨deviation, -, h⟩ := bind_eq_ok.mp h
  obtain ⟨grid, hgrid, h⟩ := bind_eq_ok.mp h
  have hbounds : grid.low = v ∧ grid.high = v := by
    obtain ⟨count, -, hgrid⟩ := bind_eq_ok.mp hgrid
    obtain ⟨width, -, hgrid⟩ := bind_eq_ok.mp hgrid
    obtain rfl := Except.ok.inj hgrid
    exact ⟨rfl, rfl⟩
  have hsingle : grid.isSingle = true := by
    have hnot : ¬ v < v := by
      rw [lt_iff_units hv hv]
      exact lt_irrefl _
    rw [Grid.isSingle, hbounds.1, hbounds.2, decide_eq_false hnot, Bool.not_false, Bool.true_or]
  rw [if_pos hsingle] at h
  obtain rfl := Except.ok.inj h
  exact ⟨_, rfl, rfl, rfl, by simp, by simp⟩

/-- The copies are added, and their sum is divided by their count; both results are rounded. -/
theorem meanOfFinite_copies (hn : n + 1 ≤ 2 ^ 53) {total : Float}
    (h : exactSum? (v :: List.replicate n v) = some total) :
    meanOfFinite (v :: List.replicate n v) = .ok (total / ofCount (n + 1)) ∧
      total.isFinite = true ∧ Rounds (((n + 1) * units v : Int) : ℚ) total ∧
      Rounds (units total / (n + 1 : Nat)) (total / ofCount (n + 1)) := by
  have hmean := meanOfFinite_eq (List.cons_ne_nil v (List.replicate n v)) (by simpa using hn)
  rw [h, List.length_cons, List.length_replicate] at hmean
  obtain ⟨htotal, hrounds⟩ := rounds_exactSum? (fun x hx => mem_copies hx ▸ hv) h
  have hsum : ((v :: List.replicate n v).map units).sum = (n + 1) * units v := by
    rw [← List.replicate_succ, List.map_replicate, List.sum_replicate, nsmul_eq_mul]
    push_cast
    rfl
  rw [hsum] at hrounds
  exact ⟨hmean, htotal, hrounds, rounds_div_ofCount htotal hn (Nat.succ_pos n)⟩

/-- The mean of copies is the number if their sum is a number itself, below the largest ones. -/
theorem meanOfFinite_exact (hn : n + 1 ≤ 2 ^ 53) {m k : Nat} (hm : m ≤ 2 ^ 53)
    (hsum : (n + 1) * (units v).natAbs = m * 2 ^ k) (hle : m * 2 ^ k ≤ (2 ^ 54 - 5) * halfStep) :
    ∃ center, meanOfFinite (v :: List.replicate n v) = .ok center ∧ (center == v) = true := by
  obtain ⟨total, htotal⟩ : ∃ total, exactSum? (v :: List.replicate n v) = some total := by
    refine exactSum?_isSome (fun x hx => mem_copies hx ▸ hv) ?_
    rw [← List.replicate_succ, List.map_replicate, List.sum_replicate, nsmul_eq_mul]
    exact_mod_cast hsum.trans_le hle
  obtain ⟨hmean, -, hrounds, hquotient⟩ := meanOfFinite_copies hv hn htotal
  have hlt : m * 2 ^ k < overflowKey := by
    rw [overflowKey_eq]
    have := halfStep_pos
    omega
  have hunits : units total = (n + 1) * units v :=
    (hrounds.exact hm hlt (by rw [Int.natAbs_mul, ← hsum]; rfl)).2
  refine ⟨_, hmean, (hquotient.beq_iff hv).mpr ?_⟩
  have hvalue : (units total : ℚ) / (n + 1 : Nat) = units v := by
    rw [hunits]
    push_cast
    field_simp
  rw [hvalue]
  exact Rounds.self hv

omit hv in
/-- The square of a zero. -/
theorem square?_of_zero {x : Float} (hx : x.isFinite = true) (hzero : units x = 0) :
    square? x = .ok 0 := by
  have htwo : Binary64.ofInt 2 = 2 ∧ ((2 : Float) == 0) = false ∧ (2 : Float).isNaN = false ∧
      (2 : Float).isInf = false ∧ ¬ (2 : Float) < 0 ∧ isOddInteger 2 = false := by decide +kernel
  obtain ⟨htwo, hne, hnan, hinf, hneg, hodd⟩ := htwo
  obtain ⟨hzeroFinite, hzeroUnits⟩ : (0 : Float).isFinite = true ∧ units 0 = 0 := by decide +kernel
  have hbase : (x == 0) = true := (beq_iff_units hx hzeroFinite).mpr (hzero.trans hzeroUnits.symm)
  have hpower : power? x 2 = .ok 0 := by
    rw [power?, hne, not_isNaN_of_isFinite hx, hnan, hinf, not_isInf_of_isFinite hx, hbase,
      powerOfZero?, if_neg hneg, hodd]
    rfl
  rw [← htwo] at hpower
  rw [square?, show Scalar.power? x (Scalar.ofInt 2) = .ok 0 from hpower]

/-- The deviation of copies from a number that is equal to them. -/
theorem scaledSquares_copies (n : Nat) {scale : Float} (hscale : scale.isFinite = true)
    (hne : units scale ≠ 0) (hle : (units v).natAbs ≤ (units scale).natAbs)
    (hcenter : center.isFinite = true) (hequal : units center = units v) :
    ∃ squares, scaledSquares (v :: List.replicate n v) center scale = .ok squares ∧
      squares.isFinite = true ∧ units squares = 0 := by
  have hdifference : Rounds 0 (v / scale - center / scale) := by
    obtain ⟨hplace, -⟩ := finite_div (j := 0) hv hscale hne (by decide) (by omega)
    obtain ⟨hmiddle, -⟩ := finite_div (j := 0) hcenter hscale hne (by decide) (by omega)
    have hplaceRounds := rounds_div hv hscale hne
    rw [← hequal] at hplaceRounds
    have hkey := hplaceRounds.key_unique (rounds_div hcenter hscale hne)
    rw [key_of_isFinite hplace, key_of_isFinite hmiddle] at hkey
    have := rounds_sub hplace hmiddle
    rwa [hkey, sub_self] at this
  obtain ⟨hfinite, hzero⟩ := hdifference.of_zero
  have hsquare : ∀ x ∈ v :: List.replicate n v, scaledSquare? center scale x = .ok ((fun _ => 0) x) := by
    intro x hx
    obtain rfl := mem_copies hx
    rw [scaledSquare?, bind_ok (quotient?_eq hscale hne), bind_ok (quotient?_eq hscale hne)]
    exact square?_of_zero hfinite hzero
  have hsquares := mapM_ok hsquare
  rw [← List.replicate_succ, List.map_replicate] at hsquares
  obtain ⟨hzeroFinite, hzeroUnits⟩ : (0 : Float).isFinite = true ∧ units 0 = 0 := by decide +kernel
  have hterms : ∀ x ∈ List.replicate (n + 1) (0 : Float), x.isFinite = true := fun x hx =>
    List.eq_of_mem_replicate hx ▸ hzeroFinite
  obtain ⟨total, htotal⟩ := exactSum?_isSome hterms (by simp [hzeroUnits])
  obtain ⟨htotalFinite, hrounds⟩ := rounds_exactSum? hterms htotal
  rw [List.map_replicate, hzeroUnits, List.sum_replicate, nsmul_zero, Int.cast_zero] at hrounds
  refine ⟨total, ?_, hrounds.of_zero⟩
  rw [scaledSquares, ← List.replicate_succ, bind_ok hsquares]
  exact sum_eq_ok_iff.mpr htotal

/-- Copies do not deviate from a mean that is equal to them. -/
theorem deviationOfFinite_copies (hn : n + 1 ≤ 2 ^ 53)
    (hmean : meanOfFinite (v :: List.replicate n v) = .ok center) (hcenter : center.isFinite = true)
    (hequal : (center == v) = true) :
    ∃ deviation, deviationOfFinite (v :: List.replicate n v) = .ok deviation ∧
      (deviation == 0) = true := by
  have hzero : (Binary64.ofInt 0 == 0) = true := by decide +kernel
  rw [beq_iff_units hcenter hv] at hequal
  cases n with
  | zero => exact ⟨_, rfl, hzero⟩
  | succ n =>
    have hscale : Statistics.magnitude v (v :: List.replicate n v) = v.abs := by
      rw [Statistics.magnitude, ← List.replicate_succ, List.map_replicate]
      exact greatest_copies v.abs (n + 1)
    obtain ⟨hfinite, hunits⟩ := units_abs hv
    dsimp only [deviationOfFinite, List.replicate_succ]
    rw [bind_ok (by simpa only [List.replicate_succ] using hmean), hscale]
    split
    next hpos =>
      obtain ⟨hzeroFinite, hzeroUnits⟩ := @units_ofInt 0 (by decide)
      have hne : units v.abs ≠ 0 := by
        have hlt : Binary64.ofInt 0 < v.abs := hpos
        rw [lt_iff_units hzeroFinite hfinite, hzeroUnits] at hlt
        omega
      obtain ⟨squares, hsquares, hsquaresFinite, hsquaresZero⟩ :=
        scaledSquares_copies hv (n + 1) hfinite hne (by omega) hcenter hequal
      rw [List.replicate_succ] at hsquares
      have hlength : (v :: v :: List.replicate n v).length - 1 = n + 1 := by simp
      have hcount : n + 1 ≤ 2 ^ 53 := by omega
      have hvariance : Rounds 0 (squares / ofCount (n + 1)) := by
        have := rounds_div_ofCount hsquaresFinite hcount (Nat.succ_pos n)
        rwa [hsquaresZero, Int.cast_zero, zero_div] at this
      obtain ⟨hvarianceFinite, hvarianceZero⟩ := hvariance.of_zero
      obtain ⟨hrootFinite, hrootZero⟩ := sqrt_of_zero hvarianceFinite hvarianceZero
      have hproduct : Rounds 0 (v.abs * (squares / ofCount (n + 1)).sqrt) := by
        have := rounds_mul hfinite hrootFinite
        rwa [hrootZero, Int.cast_zero, mul_zero, zero_div] at this
      obtain ⟨hproductFinite, hproductZero⟩ := hproduct.of_zero
      refine ⟨v.abs * (squares / ofCount (n + 1)).sqrt, ?_, ?_⟩
      · rw [bind_ok hsquares, hlength, bind_ok (quotient?_eq (units_ofCount hcount).1
          (units_ofCount_ne_zero hcount (Nat.succ_pos n))),
          bind_ok (root?_eq hvarianceFinite hvarianceZero.ge)]
        rfl
      · obtain ⟨hzeroFinite', hzeroUnits'⟩ : (0 : Float).isFinite = true ∧ units 0 = 0 := by
          decide +kernel
        exact (beq_iff_units hproductFinite hzeroFinite').mpr (hproductZero.trans hzeroUnits'.symm)
    next => exact ⟨_, rfl, hzero⟩

end

end Statistics

end RangeCalc
