import RangeCalc.Bounds
import RangeCalc.Proofs.Formula.Eval

/-!
# Values at some points

A formula that makes no draw has at each point a finite value or none, whatever the state of the source.
The tally of some points holds the values that there are, the latest first, and counts the other points
(`Tally.ofPoints_eq`). The values of a formula that draws are finite as well (`Tally.finite_ofPoints`).
-/

namespace RangeCalc

variable {α σ : Type}

namespace Tally

/-- One more point, with its value if it has one. -/
def record (tally : Tally α) : Option α → Tally α
  | some x => { tally with values := x :: tally.values }
  | none => { tally with invalid := tally.invalid + 1 }

theorem foldl_record (values : List (Option α)) (tally : Tally α) :
    values.foldl record tally =
      ⟨(values.filterMap id).reverse ++ tally.values, tally.invalid + values.countP (·.isNone)⟩ := by
  induction values generalizing tally with
  | nil => simp
  | cons value values ih =>
    rw [List.foldl_cons, ih]
    cases value with
    | some x => simp [record]
    | none => simp [record]; omega

variable [Scalar α] {source : Source α σ} {f : Formula α}

theorem foldlM_add {outcome : Assignment α → Option α} {points : List (Assignment α)} (tally : Tally α)
    (s : σ) (h : ∀ p ∈ points, ∀ tally, add source f tally p s = (tally.record (outcome p), s)) :
    points.foldlM (add source f) tally s = ((points.map outcome).foldl record tally, s) := by
  induction points generalizing tally with
  | nil => rfl
  | cons p points ih =>
    rw [List.foldlM_cons, run_bind (h p List.mem_cons_self tally),
      ih _ fun q hq => h q (List.mem_cons_of_mem _ hq), List.map_cons, List.foldl_cons]

/-- The tally of points whose outcomes do not depend on what was tried before. -/
theorem ofPoints_eq (outcome : Assignment α → Option α) {points : List (Assignment α)} {s : σ}
    (h : ∀ p ∈ points, ∀ tally, add source f tally p s = (tally.record (outcome p), s)) :
    ofPoints source f points s =
      (⟨(points.filterMap outcome).reverse, points.countP fun p => (outcome p).isNone⟩, s) := by
  rw [ofPoints, foldlM_add _ _ h, foldl_record]
  simp [List.filterMap_map, List.countP_map, Function.comp_def]

/-- A point without undefined coordinates, at which the formula has a finite value. -/
theorem add_of_eval {tally : Tally α} {p : Assignment α} {s : σ} {x : α}
    (hp : (p.any fun (_, y) => Scalar.isUndefined y) = false)
    (hf : f.eval source p.value? s = (.ok (.number x), s)) (hx : Scalar.isFinite x = true) :
    add source f tally p s = (tally.record (some x), s) := by
  simp only [add, hp, Bool.false_eq_true, if_false]
  exact run_bind (Formula.toFinite_of_eval hf hx)

/-! ## Formulas that draw -/

/-- One more point adds a finite value or none, even if the formula draws. -/
theorem finite_add {tally : Tally α} (h : ∀ x ∈ tally.values, Scalar.isFinite x = true)
    (p : Assignment α) (s : σ) : ∀ x ∈ (add source f tally p s).1.values, Scalar.isFinite x = true := by
  obtain ⟨result, t, hresult⟩ : ∃ result t, (f.toFinite source p.value?).run s = (result, t) := ⟨_, _, rfl⟩
  simp only [add]
  split
  · exact h
  · rw [run_bind hresult]
    cases result with
    | error e => exact h
    | ok y => exact List.forall_mem_cons.mpr ⟨Formula.isFinite_of_toFinite hresult, h⟩

/-- The values at some points are finite. -/
theorem finite_ofPoints (points : List (Assignment α)) (s : σ) :
    ∀ x ∈ (ofPoints source f points s).1.values, Scalar.isFinite x = true := by
  have hfold (tally : Tally α) (h : ∀ x ∈ tally.values, Scalar.isFinite x = true) :
      ∀ x ∈ (points.foldlM (add source f) tally s).1.values, Scalar.isFinite x = true := by
    induction points generalizing tally s with
    | nil => exact h
    | cons p points ih =>
      obtain ⟨next, t, hnext⟩ : ∃ next t, add source f tally p s = (next, t) := ⟨_, _, rfl⟩
      rw [List.foldlM_cons, run_bind hnext]
      refine ih t next ?_
      rw [← show (add source f tally p s).1 = next from congrArg Prod.fst hnext]
      exact finite_add h p s
  exact hfold ⟨[], 0⟩ fun x hx => absurd hx List.not_mem_nil

end Tally

namespace Bounds

variable [Scalar α] {source : Source α σ} {f : Formula α}

/-- The bounds over ranges whose corners are all tried, given the values that were found. -/
theorem ofFormula_of_tally {text : String} {ranges : List (RangeVar α)} {maxExact : Int} {s t : σ}
    {x : α} {xs : List α} {invalid : Nat} (hne : ranges ≠ []) (hmax : ranges.length ≤ maxExact)
    (h : Tally.ofPoints source f (corners ranges) s = (⟨(x :: xs).reverse, invalid⟩, t)) :
    ofFormula source text (.ok f) ranges maxExact s =
      (⟨Scalar.least x xs, Scalar.greatest x xs, rangeNotes ranges, false, invalid⟩, t) := by
  have hempty : ranges.isEmpty = false := by simpa using hne
  have happrox : decide (maxExact < ranges.length) = false := by simpa using hmax
  simp only [ofFormula, hempty, happrox, Bool.false_eq_true, if_false, List.append_nil]
  rw [run_bind h]
  simp only [List.reverse_reverse]
  rfl

end Bounds

end RangeCalc
