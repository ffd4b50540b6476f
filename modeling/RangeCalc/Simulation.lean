import RangeCalc.Formula.Error

/-!
# Simulation

A formula is evaluated again and again, each time with new draws.

* `Simulation.iteration`: one evaluation, undefined where it fails;
* `Simulation.run`: the results of some iterations, in order;
* `Simulation.ofText`: the results for a text.
-/

namespace RangeCalc

namespace Simulation

variable {α σ : Type} [Scalar α]

/-- One evaluation. A failure or a result that is not finite is undefined. -/
@[specialize] def iteration (source : Source α σ) (f : Formula α) : StateM σ α := do
  match ← (f.toFinite source fun _ => none).run with
  | .ok x => return x
  | .error _ => return Scalar.undefined

/-- The results of `n` more iterations after those in `done`, the latest of which comes first. -/
@[specialize] def runAfter (source : Source α σ) (f : Formula α) (done : List α) :
    Nat → StateM σ (List α)
  | 0 => return done.reverse
  | n + 1 => do
    let x ← iteration source f
    runAfter source f (x :: done) n

/-- The results of `n` iterations, in order. -/
@[specialize] def run (source : Source α σ) (f : Formula α) (n : Nat) : StateM σ (List α) :=
  runAfter source f [] n

/-- The results of `n` iterations of a text. A text that is no formula has undefined results and makes
no draws. -/
@[specialize] def ofText [MathLibrary] (source : Source Float σ) (text : String) (n : Nat) :
    StateM σ (List Float) :=
  match compile text with
  | .ok f => run source f n
  | .error _ => return List.replicate n Binary64.nan

/-- Why a number of iterations is refused. -/
def countFault (n : Int) : String :=
  "iterations must be positive, got " ++ toString n

end Simulation

end RangeCalc
