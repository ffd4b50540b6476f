import Mathlib.Data.List.Nodup
import RangeCalc.Formula.Eval
import RangeCalc.Range.Box

/-!
# Formulas in place of variables

* `Formula.substitute`: a formula with formulas in place of some of its variables;
* `Interval.draw`: the formula that draws from an interval;
* `drawFor`: for the names of ranges the formulas that draw from them, which turns a formula over
  placeholders into one that draws.
-/

namespace RangeCalc

variable {α : Type}

namespace Formula

mutual

/-- A formula with formulas in place of variables, where there are any. -/
def substitute (replacement : String → Option (Formula α)) : Formula α → Formula α
  | number value => .number value
  | constant c => .constant c
  | var name => (replacement name).getD (.var name)
  | signed sign operand => .signed sign (substitute replacement operand)
  | binary op lhs rhs => .binary op (substitute replacement lhs) (substitute replacement rhs)
  | call f args => .call f (substituteAll replacement args)
  | uniform low high => .uniform (substitute replacement low) (substitute replacement high)
  | sample range => .sample (substitute replacement range)

/-- Some formulas with formulas in place of variables. -/
def substituteAll (replacement : String → Option (Formula α)) : List (Formula α) → List (Formula α)
  | [] => []
  | f :: fs => substitute replacement f :: substituteAll replacement fs

end

end Formula

/-- The formula that draws from an interval, with its bounds written by `bound`. -/
def Interval.draw (bound : α → Formula α) (i : Interval α) : Formula α :=
  .sample (.uniform (bound i.min) (bound i.max))

/-- The formula that draws from the range with a name, if there is one. -/
def drawFor (bound : α → Formula α) (ranges : List (RangeVar α)) (name : String) : Option (Formula α) :=
  (ranges.find? fun r => r.name == name).map fun r => r.interval.draw bound

theorem find?_name {ranges : List (RangeVar α)} {r : RangeVar α}
    (h : (ranges.map (·.name)).Nodup) (hr : r ∈ ranges) :
    (ranges.find? fun r' => r'.name == r.name) = some r := by
  obtain ⟨before, after, rfl⟩ := List.append_of_mem hr
  simp only [List.map_append, List.map_cons, List.nodup_append, List.mem_cons] at h
  refine List.find?_eq_some_iff_append.mpr ⟨by simp, before, after, rfl, fun r' hr' => ?_⟩
  simpa using h.2.2 _ (List.mem_map_of_mem hr') _ (.inl rfl)

theorem drawFor_name (bound : α → Formula α) {ranges : List (RangeVar α)} {r : RangeVar α}
    (h : (ranges.map (·.name)).Nodup) (hr : r ∈ ranges) :
    drawFor bound ranges r.name = some (r.interval.draw bound) := by
  rw [drawFor, find?_name h hr, Option.map_some]

end RangeCalc
