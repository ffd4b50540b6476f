import RangeCalc.Proofs.Outcome.Total
import RangeCalc.Proofs.Statistics.Copies

/-!
# Summaries of copies of one number

A range without extent gives copies of one number. Their summary says of everything but the mean and the
deviation that it is that number. The mean is the number where the rounded sum of the copies, divided by
their count, is rounded back to it, and then the deviation is zero.

* `Summary.Flat`: what the summary of copies says, whatever is rounded;
* `Summary.ofResults_copies`: summaries of copies.
-/

namespace RangeCalc

open Binary64 Statistics

/-- A summary that knows of one number only, mean and deviation left aside. -/
structure Summary.Flat [MathLibrary] (s : Summary) (v : Float) : Prop where
  min : s.min = v
  max : s.max = v
  median : (s.median == v) = true
  percentiles : ∀ entry ∈ s.percentiles, (entry.2 == v) = true
  histogram : ∃ b, s.histogram = [b] ∧ b.lower = v ∧ b.upper = v ∧ (b.probability == 1) = true

section

variable [MathLibrary] {v : Float} {n bins : Nat} {percentiles : List Percent}

/-- A bin that holds all numbers has probability one. -/
theorem Bin.probability_of_all {b : Bin Float} (hcount : b.count = n + 1) (htotal : b.total = n + 1)
    (hn : n + 1 ≤ 2 ^ 53) : (b.probability == 1) = true := by
  obtain ⟨honeFinite, honeUnits⟩ : (1 : Float).isFinite = true ∧ units 1 = Binary64.one := by
    decide +kernel
  obtain ⟨hfinite, hunits⟩ := units_ofCount hn
  have hrounds := rounds_div_ofCount hfinite hn (Nat.succ_pos n)
  have hvalue : (units (ofCount (n + 1) : Float) : ℚ) / (n + 1 : Nat) = units 1 := by
    rw [hunits, honeUnits]
    push_cast
    field_simp
  rw [hvalue] at hrounds
  rw [Bin.probability, hcount, htotal]
  exact (hrounds.beq_iff honeFinite).mpr (Rounds.self honeFinite)

namespace Summary

/-- All percentiles that are added to those of copies are equal to the number. -/
theorem percentiles_copies (hv : v.isFinite = true) (hn : n + 1 ≤ 2 ^ 53)
    (hpercents : ∀ p ∈ percentiles, ∀ x, p.toFloat? = .ok x → x.isNaN = false)
    {entries : List (Percent × Float)}
    (h : percentiles.foldlM (addPercentile (ascending (v :: List.replicate n v)).toArray) [] =
      .ok entries) : ∀ entry ∈ entries, (entry.2 == v) = true := by
  have hnil : ∀ entry ∈ ([] : List (Percent × Float)), (entry.2 == v) = true := by simp
  refine foldlM_invariant (fun done : List (Percent × Float) => ∀ entry ∈ done, (entry.2 == v) = true)
    hnil ?_ h
  intro done p hp next hdone hnext
  simp only [addPercentile, bind_eq_ok] at hnext
  obtain ⟨place, hplace, x, hx, hput⟩ := hnext
  obtain rfl : putPercentile p x done = next := Except.ok.inj hput
  obtain ⟨y, hy, hequal⟩ := percentileOfSorted_copies hv hn (hpercents p hp place hplace)
  rw [hx] at hy
  obtain rfl := Except.ok.inj hy
  intro entry hentry
  rcases mem_putPercentile hentry with hmem | heq
  · exact hdone entry hmem
  · rw [heq]
    exact hequal

/-- The summary of copies of a number, given that they have a mean: all but mean and deviation are the
number; the deviation is zero if the mean is the number; and the mean is the number exactly if the quotient
of the rounded sum and the count is rounded to it, in particular if the sum needs no rounding. -/
theorem ofResults_copies (hsquares : MathLibrary.SquaresBounded) (hv : v.isFinite = true)
    (hn : n + 1 ≤ 2 ^ 53) (hbins : 1 ≤ bins ∧ bins ≤ Grid.sizeLimit)
    (hpercents : ∀ p ∈ percentiles, ∃ x, p.toFloat? = .ok x ∧ x.isNaN = false)
    (hmean : ∃ center, meanOfFinite (v :: List.replicate n v) = .ok center) (deterministic : Bool) :
    ∃ summary, ofResults deterministic v (List.replicate n v) bins percentiles = .ok summary ∧
      summary.Flat v ∧ ((summary.mean == v) = true → (summary.deviation == 0) = true) ∧
      (∀ total, exactSum? (v :: List.replicate n v) = some total →
        Rounds (((n + 1) * units v : Int) : ℚ) total ∧
        ((summary.mean == v) = true ↔ Rounds (units total / (n + 1 : Nat)) v)) ∧
      ∀ m k : Nat, m ≤ 2 ^ 53 → (n + 1) * (units v).natAbs = m * 2 ^ k →
        m * 2 ^ k ≤ (2 ^ 54 - 5) * halfStep → (summary.mean == v) = true := by
  have hfinite : ∀ x ∈ v :: List.replicate n v, x.isFinite = true := fun x hx => mem_copies hx ▸ hv
  have hlength : (v :: List.replicate n v).length ≤ 2 ^ 53 := by simpa using hn
  obtain ⟨summary, hsummary⟩ := ofResults_isOk hsquares hfinite hlength hmean hbins
    (fun p hp => (hpercents p hp).imp fun _ => And.left) deterministic
  refine ⟨summary, hsummary, ?_⟩
  dsimp only [ofResults] at hsummary
  obtain ⟨center, hcenter, hsummary⟩ := bind_eq_ok.mp hsummary
  obtain ⟨deviation, hdeviation, hsummary⟩ := bind_eq_ok.mp hsummary
  obtain ⟨median, hmedian, hsummary⟩ := bind_eq_ok.mp hsummary
  obtain ⟨entries, hentries, hsummary⟩ := bind_eq_ok.mp hsummary
  obtain ⟨histogram, hhistogram, hsummary⟩ := bind_eq_ok.mp hsummary
  obtain rfl := Except.ok.inj hsummary
  have hflat : (median == v) = true := by
    obtain ⟨x, hx, hequal⟩ := percentileOfSorted_copies hv hn (show (50 : Float).isNaN = false by decide +kernel)
    rw [hmedian] at hx
    rw [Except.ok.inj hx]
    exact hequal
  have hbin : ∃ b, histogram = [b] ∧ b.lower = v ∧ b.upper = v ∧ (b.probability == 1) = true := by
    obtain ⟨b, hb, hlower, hupper, hcount, htotal⟩ := histogramOfFinite_copies hv hhistogram
    exact ⟨b, hb, hlower, hupper, Bin.probability_of_all hcount htotal hn⟩
  refine ⟨⟨least_copies v n, greatest_copies v n, hflat, ?_, hbin⟩, ?_, ?_, ?_⟩
  · refine percentiles_copies hv hn (fun p hp x hx => ?_) hentries
    obtain ⟨y, hy, hdefined⟩ := hpercents p hp
    rw [hx] at hy
    rwa [Except.ok.inj hy]
  · intro hequal
    have hcenterFinite := (finite_meanOfFinite hfinite (List.cons_ne_nil _ _) hlength
      (fun x hx => (congrArg (fun y => (units y).natAbs) (mem_copies hx)).le) hcenter).1
    obtain ⟨d, hd, hzero⟩ := deviationOfFinite_copies hv hn hcenter hcenterFinite hequal
    rw [hdeviation] at hd
    rw [Except.ok.inj hd]
    exact hzero
  · intro total htotal
    obtain ⟨hquotient, -, hrounds, hmeanRounds⟩ := meanOfFinite_copies hv hn htotal
    rw [hcenter] at hquotient
    rw [Except.ok.inj hquotient]
    exact ⟨hrounds, hmeanRounds.beq_iff hv⟩
  · intro m k hm hsum hle
    obtain ⟨x, hx, hequal⟩ := meanOfFinite_exact hv hn hm hsum hle
    rw [hcenter] at hx
    rw [Except.ok.inj hx]
    exact hequal

end Summary

end

/-- A thousand copies of 5 have a summary. -/
theorem thousandFives_flat :
    let _ := squaringLibrary
    ∃ summary, Summary.ofResults false 5 (List.replicate 999 5) 10 [.whole 90] = .ok summary ∧
      summary.Flat 5 ∧ (summary.mean == 5) = true ∧ (summary.deviation == 0) = true := by
  let _ := squaringLibrary
  have hfinite : (5 : Float).isFinite = true := by decide +kernel
  have hunits : (999 + 1) * (units 5).natAbs = 5000 * 2 ^ 1074 := by decide +kernel
  have hle : 5000 * 2 ^ 1074 ≤ (2 ^ 54 - 5) * halfStep := by decide +kernel
  obtain ⟨center, hmean, -⟩ := meanOfFinite_exact (n := 999) hfinite (by decide) (by decide) hunits hle
  have hpercents : ∀ p ∈ [Percent.whole 90], ∃ x, p.toFloat? = .ok x ∧ x.isNaN = false := by
    intro p hp
    obtain rfl := List.mem_singleton.mp hp
    obtain ⟨h, hdefined⟩ : (Binary64.ofInt 90).isFinite = true ∧ (Binary64.ofInt 90).isNaN = false := by
      decide +kernel
    exact ⟨_, Percent.toFloat?_whole h, hdefined⟩
  have hbins : 1 ≤ 10 ∧ 10 ≤ Grid.sizeLimit := by decide
  obtain ⟨summary, hsummary, hflat, hdeviation, -, hexact⟩ :=
    Summary.ofResults_copies squaringLibrary_squaresBounded hfinite (by decide) hbins hpercents
      ⟨center, hmean⟩ false
  have hequal := hexact 5000 1074 (by decide) hunits hle
  exact ⟨summary, hsummary, hflat, hequal, hdeviation hequal⟩

/-- Three copies of 0.1 have another mean, and they deviate from it. -/
theorem threeTenths_not_flat :
    let _ := squaringLibrary
    (meanOfFinite [0.1, 0.1, 0.1]).toOption.map Float.toBits =
        some (0.10000000000000002 : Float).toBits ∧
      ((0.10000000000000002 : Float) == 0.1) = false ∧
      (deviationOfFinite [0.1, 0.1, 0.1]).toOption.any (fun d => 0 < d) = true := by
  decide +kernel

end RangeCalc
