import Mathlib.Logic.Function.Iterate
import RangeCalc.Proofs.Formula.Eval
import RangeCalc.Proofs.Number.Order
import RangeCalc.Simulation

/-!
# Runs in parts

A run passes the state of its source from one iteration to the next, also through an evaluation that fails
after some of its draws.

* `Simulation.outcomeAt`, `Simulation.stateAfter`: an evaluation in a state, and where some of them leave it;
* `Simulation.IsSample`: what an evaluation contributes to a run;
* `Simulation.run_eq`: a run evaluation by evaluation;
* `Simulation.ofText_in_parts`: a run of a text is one run after another, and what its samples are.
-/

namespace RangeCalc.Simulation

variable {σ : Type} [MathLibrary]

/-- The value of a formula in a state of the source, or why it has none. -/
def outcomeAt (source : Source Float σ) (f : Formula Float) (s : σ) : Except (EvalError Float) Float :=
  (f.toNumber source (fun _ => none) s).1

/-- The state of the source after some evaluations, each from the state that the one before left. -/
def stateAfter (source : Source Float σ) (f : Formula Float) (n : Nat) (s : σ) : σ :=
  (fun s => (f.toNumber source (fun _ => none) s).2)^[n] s

/-- A sample of a run: the value in a state if there is one and it is finite, and undefined otherwise. -/
structure IsSample (source : Source Float σ) (f : Formula Float) (s : σ) (x : Float) : Prop where
  finite_or_undefined : x.isFinite = true ∨ x.isNaN = true
  undefined_iff : x.isNaN = true ↔ ∀ y, outcomeAt source f s = .ok y → y.isFinite = false
  value : ∀ y, outcomeAt source f s = .ok y → y.isFinite = true → x = y

/-- What an evaluation in a state contributes to a run. -/
def sampleAt (source : Source Float σ) (f : Formula Float) (s : σ) : Float :=
  match outcomeAt source f s with
  | .ok x => if x.isFinite then x else Binary64.nan
  | .error _ => Binary64.nan

variable (source : Source Float σ) (f : Formula Float)

theorem stateAfter_succ (n : Nat) (s : σ) :
    stateAfter source f (n + 1) s =
      stateAfter source f n (f.toNumber source (fun _ => none) s).2 :=
  Function.iterate_succ_apply ..

theorem stateAfter_add (m n : Nat) (s : σ) :
    stateAfter source f (m + n) s = stateAfter source f n (stateAfter source f m s) := by
  rw [stateAfter, Nat.add_comm, Function.iterate_add_apply]
  rfl

theorem isSample_sampleAt (s : σ) : IsSample source f s (sampleAt source f s) := by
  have hnan : Binary64.nan.isNaN = true := by decide +kernel
  cases h : outcomeAt source f s with
  | error e =>
    have hsample : sampleAt source f s = Binary64.nan := by simp only [sampleAt, h]
    rw [hsample]
    exact ⟨.inr hnan, iff_of_true hnan (by simp only [h, reduceCtorEq, false_implies, implies_true]),
      by simp only [h, reduceCtorEq, false_implies, implies_true]⟩
  | ok x =>
    have hall : ∀ P : Float → Prop, (∀ y, outcomeAt source f s = .ok y → P y) ↔ P x := fun P =>
      ⟨fun hP => hP x h, fun hx y hy => Except.ok.inj (h.symm.trans hy) ▸ hx⟩
    cases hx : x.isFinite with
    | true =>
      have hsample : sampleAt source f s = x := by simp only [sampleAt, h, hx, if_true]
      have hnot : x.isNaN = false := Binary64.not_isNaN_of_isFinite hx
      rw [hsample]
      exact ⟨.inl hx, by rw [hall, hnot, hx]; decide, (hall _).mpr fun _ => rfl⟩
    | false =>
      have hsample : sampleAt source f s = Binary64.nan := by
        simp only [sampleAt, h, hx, Bool.false_eq_true, if_false]
      rw [hsample]
      exact ⟨.inr hnan, iff_of_true hnan ((hall _).mpr hx),
        (hall _).mpr fun hfinite => absurd (hx.symm.trans hfinite) Bool.false_ne_true⟩

/-! ## Iterations and runs -/

/-- An iteration leaves the source where the evaluation does, whether or not that fails. -/
theorem iteration_eq (s : σ) :
    iteration source f s = (sampleAt source f s, (f.toNumber source (fun _ => none) s).2) := by
  obtain ⟨outcome, t, h⟩ : ∃ outcome t, f.toNumber source (fun _ => none) s = (outcome, t) :=
    ⟨_, _, rfl⟩
  have houtcome : outcomeAt source f s = outcome := congrArg Prod.fst h
  cases outcome with
  | error e =>
    have hfinite : (f.toFinite source (fun _ => none)).run s = (.error e, t) := Draws.bind_error h
    rw [iteration, run_bind hfinite, h]
    simp only [sampleAt, houtcome]
    rfl
  | ok x =>
    have hfinite : (f.toFinite source (fun _ => none)).run s =
        (if x.isFinite then .ok x else .error (.notFinite x), t) := by
      refine (Draws.bind_ok h).trans ?_
      cases hx : x.isFinite <;> simp only [Scalar.isFinite, hx] <;> rfl
    rw [iteration, run_bind hfinite, h]
    simp only [sampleAt, houtcome]
    cases x.isFinite <;> rfl

theorem runAfter_eq (done : List Float) (n : Nat) (s : σ) :
    runAfter source f done n s =
      (done.reverse ++ (List.range n).map fun k => sampleAt source f (stateAfter source f k s),
        stateAfter source f n s) := by
  induction n generalizing done s with
  | zero => exact congrArg (·, s) (List.append_nil _).symm
  | succ n ih =>
    rw [runAfter, run_bind (iteration_eq source f s), ih, stateAfter_succ, List.range_succ_eq_map,
      List.map_cons, List.map_map, List.reverse_cons, List.append_assoc]
    rfl

/-- A run has the sample of each of its states, and ends in the last one. -/
theorem run_eq (n : Nat) (s : σ) :
    run source f n s =
      ((List.range n).map fun k => sampleAt source f (stateAfter source f k s),
        stateAfter source f n s) :=
  runAfter_eq source f [] n s

theorem run_add (m n : Nat) (s : σ) :
    run source f (m + n) s =
      ((run source f m s).1 ++ (run source f n (run source f m s).2).1,
        (run source f n (run source f m s).2).2) := by
  simp only [run_eq, List.range_add, List.map_append, List.map_map, stateAfter_add, Function.comp_def]

theorem length_ofText (text : String) (n : Nat) (s : σ) : (ofText source text n s).1.length = n := by
  cases h : compile text with
  | ok f => simp only [ofText, h, run_eq, List.length_map, List.length_range]
  | error e => simp only [ofText, h]; exact List.length_replicate

/-- A run of a text is a run after another one from the state that this left, to the same state. It has
a sample for each iteration, of the state that the evaluations before it left, whether or not they failed.
A text that is no formula has undefined results and leaves the state. -/
theorem ofText_in_parts (text : String) (m n : Nat) (s : σ) :
    let first := ofText source text m s
    let rest := ofText source text n first.2
    let whole := ofText source text (m + n) s
    whole = (first.1 ++ rest.1, rest.2) ∧ whole.1.length = m + n ∧
      match compile text with
      | .ok f =>
        whole.2 = stateAfter source f (m + n) s ∧
          ∀ k < m + n, ∃ x, whole.1[k]? = some x ∧ IsSample source f (stateAfter source f k s) x
      | .error _ => whole = (List.replicate (m + n) Binary64.nan, s) := by
  refine ⟨?_, length_ofText source text (m + n) s, ?_⟩
  · cases h : compile text with
    | ok f => simpa only [ofText, h] using run_add source f m n s
    | error e =>
      simp only [ofText, h]
      exact congrArg (·, s) (List.replicate_add ..)
  · cases h : compile text with
    | ok f =>
      simp only [ofText, h, run_eq, List.getElem?_map, true_and]
      intro k hk
      rw [List.getElem?_range hk]
      exact ⟨_, rfl, isSample_sampleAt source f _⟩
    | error e =>
      simp only [ofText, h]
      rfl

end RangeCalc.Simulation
