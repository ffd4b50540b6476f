import RangeCalc.Proofs.Formula.Eval
import RangeCalc.Proofs.Formula.Substitute
import RangeCalc.Proofs.Range.Corner
import RangeCalc.Random
import RangeCalc.Scalar.Binary64

/-!
# One evaluation with draws is one evaluation at a point

A formula that mentions each placeholder once, in the order of the ranges, is evaluated with draws in place
of its placeholders. Evaluation goes from left to right and visits every operand once, so the source is
asked for one range after the other, and the result is that of the formula at the point that was drawn.

* `drawnPoint`: a point of a box, drawn coordinate by coordinate;
* `drawnBounds`: the bounds that the source is asked for on the way;
* `Formula.eval_substitute`: a formula with draws, by induction on the formula;
* `Formula.toNumber_substitute_drawFor`: its result, its draws and the state that they leave.
-/

namespace RangeCalc

variable {α σ : Type} [Scalar α]

/-! ## Points -/

/-- A number from an interval. The source is only asked if the bounds are in strict order. -/
def Interval.drawn (source : Source α σ) (i : Interval α) (s : σ) : α × σ :=
  if i.min < i.max then source.draw i.min i.max s else (i.min, s)

/-- A point of the box that ranges span, with one coordinate after the other drawn from the source. -/
def drawnPoint (source : Source α σ) : List (RangeVar α) → σ → Assignment α × σ
  | [], s => ([], s)
  | r :: rest, s =>
    let draw := r.interval.drawn source s
    let others := drawnPoint source rest draw.2
    ((r.name, draw.1) :: others.1, others.2)

/-- The bounds of the ranges that a source is asked for, in order. -/
def drawnBounds (ranges : List (RangeVar α)) : List (α × α) :=
  (ranges.filter fun r => r.interval.min < r.interval.max).map fun r => (r.interval.min, r.interval.max)

theorem drawnPoint_append (source : Source α σ) (front back : List (RangeVar α)) (s : σ) :
    drawnPoint source (front ++ back) s =
      ((drawnPoint source front s).1 ++ (drawnPoint source back (drawnPoint source front s).2).1,
        (drawnPoint source back (drawnPoint source front s).2).2) := by
  induction front generalizing s with
  | nil => rfl
  | cons r front ih => simp only [List.cons_append, drawnPoint, ih]

theorem map_fst_drawnPoint (source : Source α σ) (ranges : List (RangeVar α)) (s : σ) :
    (drawnPoint source ranges s).1.map Prod.fst = ranges.map (·.name) := by
  induction ranges generalizing s with
  | nil => rfl
  | cons r rest ih => simp only [drawnPoint, List.map_cons, ih]

theorem Interval.drawn_recorded (source : Source α σ) (i : Interval α) (s : σ) (log : List (α × α)) :
    i.drawn source.recorded (s, log) =
      ((i.drawn source s).1, (i.drawn source s).2,
        if i.min < i.max then (i.min, i.max) :: log else log) := by
  simp only [Interval.drawn]
  split <;> rfl

/-- A source that writes down its draws draws the same point, and writes down the bounds in order. -/
theorem drawnPoint_recorded (source : Source α σ) (ranges : List (RangeVar α)) (s : σ)
    (log : List (α × α)) :
    drawnPoint source.recorded ranges (s, log) =
      ((drawnPoint source ranges s).1, (drawnPoint source ranges s).2,
        (drawnBounds ranges).reverse ++ log) := by
  induction ranges generalizing s log with
  | nil => rfl
  | cons r rest ih =>
    simp only [drawnPoint, Interval.drawn_recorded, ih, drawnBounds, List.filter_cons, decide_eq_true_eq]
    split <;> simp

/-! ## Evaluation -/

/-- Whether formulas that are written for numbers have those values, without a draw. -/
def WritesNumbers (bound : α → Formula α) : Prop :=
  ∀ (x : α) (σ : Type) (source : Source α σ) (env : String → Option α) (s : σ),
    (bound x).eval source env s = (.ok (.number x), s)

theorem writesNumbers_number : WritesNumbers (Formula.number : α → Formula α) :=
  fun _ _ _ _ _ => rfl

/-- The draw from an interval with bounds in order. -/
theorem Interval.eval_draw {bound : α → Formula α} (hbound : WritesNumbers bound) {i : Interval α}
    (hle : i.min ≤ i.max) (source : Source α σ) (env : String → Option α) (s : σ) :
    (i.draw bound).eval source env s =
      (.ok (.number (i.drawn source s).1), (i.drawn source s).2) := by
  rw [Interval.draw, Formula.eval_sample (Formula.eval_uniform (hbound ..) (hbound ..)), if_pos hle,
    Interval.drawn]
  split <;> rfl

/-- Replacements that draw from some ranges, and values at the point that is drawn. -/
structure DrawsPoint (bound : α → Formula α) (source : Source α σ)
    (replacement : String → Option (Formula α)) (value? : String → Option α)
    (ranges : List (RangeVar α)) (s : σ) : Prop where
  writes : WritesNumbers bound
  ordered : ∀ r ∈ ranges, r.interval.min ≤ r.interval.max
  replacement : ∀ r ∈ ranges, replacement r.name = some (r.interval.draw bound)
  value : ∀ p ∈ (drawnPoint source ranges s).1, value? p.1 = some p.2

theorem DrawsPoint.append {bound : α → Formula α} {source : Source α σ}
    {replacement : String → Option (Formula α)} {value? : String → Option α}
    {front back : List (RangeVar α)} {s : σ}
    (h : DrawsPoint bound source replacement value? (front ++ back) s) :
    DrawsPoint bound source replacement value? front s ∧
      DrawsPoint bound source replacement value? back (drawnPoint source front s).2 := by
  have hvalue := h.value
  rw [drawnPoint_append] at hvalue
  exact ⟨⟨h.writes, fun r hr => h.ordered r (List.mem_append_left _ hr),
      fun r hr => h.replacement r (List.mem_append_left _ hr),
      fun p hp => hvalue p (List.mem_append_left _ hp)⟩,
    ⟨h.writes, fun r hr => h.ordered r (List.mem_append_right _ hr),
      fun r hr => h.replacement r (List.mem_append_right _ hr),
      fun p hp => hvalue p (List.mem_append_right _ hp)⟩⟩

namespace Formula

/-- A formula has a value without a draw, and `drawing` has it with draws that lead from `s` to `t`. -/
def DrawsAs (source : Source α σ) (env value? : String → Option α) (drawing f : Formula α) (s t : σ) :
    Prop :=
  ∃ x, drawing.eval source env s = (.ok (.number x), t) ∧
    ∀ (τ : Type) (other : Source α τ) (u : τ), f.eval other value? u = (.ok (.number x), u)

theorem eval_call {source : Source α σ} {env : String → Option α} {args : List (Formula α)} {xs : List α}
    {s t : σ} (function : MathFunction) (h : operands source env args s = (.ok xs, t)) :
    (call function args).eval source env s =
      (.ok (.number (Scalar.recover (Scalar.call? function xs))), t) := by
  rw [eval, Draws.bind_ok h]
  rfl

theorem operands_cons {source : Source α σ} {env : String → Option α} {f : Formula α}
    {fs : List (Formula α)} {x : α} {xs : List α} {s t u : σ}
    (hf : f.eval source env s = (.ok (.number x), t)) (hfs : operands source env fs t = (.ok xs, u)) :
    operands source env (f :: fs) s = (.ok (x :: xs), u) := by
  rw [operands, Draws.bind_ok hf]
  exact Draws.bind_ok hfs

section

variable {bound : α → Formula α} {source : Source α σ} {env value? : String → Option α}
  {replacement : String → Option (Formula α)}

mutual

/-- A formula with draws in place of its variables draws from their ranges in order, and has the value that
it has at the point that is drawn. -/
theorem eval_substitute : ∀ (f : Formula α) {ranges : List (RangeVar α)} {s : σ},
    f.isProbabilistic = false → f.vars = ranges.map (·.name) →
    DrawsPoint bound source replacement value? ranges s →
    DrawsAs source env value? (f.substitute replacement) f s (drawnPoint source ranges s).2
  | number x, ranges, s, _, hvars, _ => by
    obtain rfl := List.map_eq_nil_iff.mp hvars.symm
    exact ⟨x, rfl, fun _ _ _ => rfl⟩
  | constant c, ranges, s, _, hvars, _ => by
    obtain rfl := List.map_eq_nil_iff.mp hvars.symm
    exact ⟨Scalar.constant c, rfl, fun _ _ _ => rfl⟩
  | var name, ranges, s, _, hvars, h => by
    obtain ⟨r, rfl, rfl⟩ := List.map_eq_singleton_iff.mp hvars.symm
    have hvalue := h.value (r.name, (r.interval.drawn source s).1) List.mem_cons_self
    refine ⟨(r.interval.drawn source s).1, ?_, fun _ _ _ => eval_var hvalue⟩
    rw [substitute, h.replacement r List.mem_cons_self]
    exact Interval.eval_draw h.writes (h.ordered r List.mem_cons_self) source env s
  | signed sign f, ranges, s, hf, hvars, h => by
    obtain ⟨x, hdraw, hpoint⟩ := eval_substitute f hf hvars h
    exact ⟨sign.apply x, eval_signed sign hdraw, fun τ other u => eval_signed sign (hpoint τ other u)⟩
  | binary op f g, ranges, s, hfg, hvars, h => by
    obtain ⟨hf, hg⟩ := Bool.or_eq_false_iff.mp hfg
    obtain ⟨front, back, rfl, hfront, hback⟩ := List.map_eq_append_iff.mp hvars.symm
    obtain ⟨hfirst, hsecond⟩ := h.append
    obtain ⟨x, hdrawX, hpointX⟩ := eval_substitute f hf hfront.symm hfirst
    obtain ⟨y, hdrawY, hpointY⟩ := eval_substitute g hg hback.symm hsecond
    rw [drawnPoint_append]
    exact ⟨op.apply x y, eval_binary op hdrawX hdrawY,
      fun τ other u => eval_binary op (hpointX τ other u) (hpointY τ other u)⟩
  | call function args, ranges, s, hargs, hvars, h => by
    obtain ⟨xs, hdraw, hpoint⟩ := operands_substitute args hargs hvars h
    exact ⟨_, eval_call function hdraw, fun τ other u => eval_call function (hpoint τ other u)⟩
  | uniform f g, _, _, hf, _, _ => nomatch hf
  | sample f, _, _, hf, _, _ => nomatch hf

theorem operands_substitute : ∀ (fs : List (Formula α)) {ranges : List (RangeVar α)} {s : σ},
    anyProbabilistic fs = false → varsOfAll fs = ranges.map (·.name) →
    DrawsPoint bound source replacement value? ranges s →
    ∃ xs, operands source env (substituteAll replacement fs) s =
        (.ok xs, (drawnPoint source ranges s).2) ∧
      ∀ (τ : Type) (other : Source α τ) (u : τ), operands other value? fs u = (.ok xs, u)
  | [], ranges, s, _, hvars, _ => by
    obtain rfl := List.map_eq_nil_iff.mp hvars.symm
    exact ⟨[], rfl, fun _ _ _ => rfl⟩
  | f :: fs, ranges, s, hall, hvars, h => by
    obtain ⟨hf, hfs⟩ := Bool.or_eq_false_iff.mp hall
    obtain ⟨front, back, rfl, hfront, hback⟩ := List.map_eq_append_iff.mp hvars.symm
    obtain ⟨hfirst, hsecond⟩ := h.append
    obtain ⟨x, hdrawX, hpointX⟩ := eval_substitute f hf hfront.symm hfirst
    obtain ⟨xs, hdrawXs, hpointXs⟩ := operands_substitute fs hfs hback.symm hsecond
    rw [drawnPoint_append]
    exact ⟨x :: xs, operands_cons hdrawX hdrawXs,
      fun τ other u => operands_cons (hpointX τ other u) (hpointXs τ other u)⟩

end

end

/-- A formula that mentions each placeholder once, in the order of the ranges, and draws nothing of its own
is evaluated with draws in place of its placeholders: for each range with bounds in strict order the source
is asked once, in order, and for nothing else, and the result is that of the formula at the point that was
drawn. -/
theorem toNumber_substitute_drawFor {bound : α → Formula α} (hbound : WritesNumbers bound)
    {f : Formula α} (hf : f.isProbabilistic = false) {ranges : List (RangeVar α)}
    (hvars : f.vars = ranges.map (·.name)) (hdistinct : (ranges.map (·.name)).Nodup)
    (hordered : ∀ r ∈ ranges, r.interval.min ≤ r.interval.max) (source : Source α σ)
    (env : String → Option α) (s : σ) :
    ∃ x,
      (∀ (τ : Type) (other : Source α τ) (u : τ),
        f.toNumber other (drawnPoint source ranges s).1.value? u = (.ok x, u)) ∧
      (f.substitute (drawFor bound ranges)).toNumber source env s =
        (.ok x, (drawnPoint source ranges s).2) ∧
      (f.substitute (drawFor bound ranges)).toNumber source.recorded env (s, []) =
        (.ok x, (drawnPoint source ranges s).2, (drawnBounds ranges).reverse) := by
  have hdraws {τ : Type} (other : Source α τ) (t : τ) :
      DrawsPoint bound other (drawFor bound ranges) (drawnPoint other ranges t).1.value? ranges t :=
    ⟨hbound, hordered, fun r hr => drawFor_name bound hdistinct hr,
      fun p hp => Assignment.value?_of_mem (by rwa [map_fst_drawnPoint]) hp⟩
  have hsame {τ : Type} (other : Source α τ) (t : τ) :
      DrawsAs other env (drawnPoint other ranges t).1.value? (f.substitute (drawFor bound ranges)) f t
        (drawnPoint other ranges t).2 := eval_substitute f hf hvars (hdraws other t)
  obtain ⟨x, hdraw, hpoint⟩ := hsame source s
  obtain ⟨y, hdrawY, hpointY⟩ := hsame source.recorded (s, [])
  rw [drawnPoint_recorded, List.append_nil] at hdrawY hpointY
  -- both are the value at the one point that is drawn
  obtain rfl : x = y := by
    injection (hpoint σ source s).symm.trans (hpointY σ source s) with hvalue
    injection hvalue with hvalue
    injection hvalue
  exact ⟨x, fun τ other u => toNumber_of_eval (hpoint τ other u), toNumber_of_eval hdraw,
    toNumber_of_eval hdrawY⟩

/-- A range with an extent and one without. -/
def twoRanges : List (RangeVar Float) := [⟨"a", ⟨-1, 1⟩⟩, ⟨"b", ⟨5, 5⟩⟩]

def overTwoRanges : Formula Float :=
  .binary .sub (.var "a") (.call .max [.signed .minus (.var "b"), .number 3])

/-- The source is asked for the first range only. -/
theorem overTwoRanges_drawFor :
    let s := Generator.values #[0.25] 0
    (overTwoRanges.isProbabilistic = false ∧ overTwoRanges.vars = twoRanges.map (·.name) ∧
      (twoRanges.map (·.name)).Nodup ∧ ∀ r ∈ twoRanges, r.interval.min ≤ r.interval.max) ∧
    ∃ x,
      (∀ (τ : Type) (other : Source Float τ) (u : τ),
        overTwoRanges.toNumber other (drawnPoint Generator.source twoRanges s).1.value? u = (.ok x, u)) ∧
      (overTwoRanges.substitute (drawFor number twoRanges)).toNumber Generator.source (fun _ => none) s =
        (.ok x, .values #[0.25] 1) ∧
      (overTwoRanges.substitute (drawFor number twoRanges)).toNumber Generator.source.recorded
        (fun _ => none) (s, []) = (.ok x, .values #[0.25] 1, [(-1, 1)]) := by
  have hextent : (-1 : Float) < 1 ∧ ¬ (5 : Float) < 5 := by decide +kernel
  have hordered : ∀ r ∈ twoRanges, r.interval.min ≤ r.interval.max := by
    rintro r (_ | ⟨_, _ | ⟨_, ⟨⟩⟩⟩) <;> decide +kernel
  have hstate : (drawnPoint Generator.source twoRanges (.values #[0.25] 0)).2 = .values #[0.25] 1 := by
    simp only [twoRanges, drawnPoint, Interval.drawn]
    rw [if_pos hextent.1, if_neg hextent.2]
    rfl
  have hbounds : drawnBounds twoRanges = [(-1, 1)] := by
    rw [drawnBounds, twoRanges, List.filter_cons, List.filter_cons, if_pos (decide_eq_true hextent.1),
      if_neg (by simpa using hextent.2)]
    rfl
  obtain ⟨x, hpoint, hdraw, hrecorded⟩ := toNumber_substitute_drawFor writesNumbers_number
    (f := overTwoRanges) rfl rfl (by decide) hordered Generator.source (fun _ => none) (.values #[0.25] 0)
  rw [hstate] at hdraw hrecorded
  rw [hbounds] at hrecorded
  exact ⟨⟨rfl, rfl, by decide, hordered⟩, x, hpoint, hdraw, hrecorded⟩

end Formula

end RangeCalc
