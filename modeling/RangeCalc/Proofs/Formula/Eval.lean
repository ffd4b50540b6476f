import RangeCalc.Formula.Eval

/-!
# Evaluation step by step

A computation that draws is a function of the state of its source. The lemmas here run one from a state:

* `run_bind`, `Draws.bind_ok`, `Draws.bind_error`: a computation after another one;
* `eval_signed`, `eval_binary`, `eval_uniform`, `eval_sample`: a formula, given the runs of its operands.
-/

namespace RangeCalc

variable {α σ β γ : Type}

theorem run_bind {x : StateM σ β} {f : β → StateM σ γ} {s t : σ} {b : β} (h : x s = (b, t)) :
    (x >>= f) s = f b t := by
  change f (x s).1 (x s).2 = f b t
  rw [h]

theorem Draws.bind_ok {x : Draws α σ β} {f : β → Draws α σ γ} {s t : σ} {b : β}
    (h : x s = (.ok b, t)) : (x >>= f) s = f b t := by
  change (ExceptT.bindCont f (x s).1) (x s).2 = f b t
  rw [h]
  rfl

theorem Draws.bind_error {x : Draws α σ β} {f : β → Draws α σ γ} {s t : σ} {e : EvalError α}
    (h : x s = (.error e, t)) : (x >>= f) s = (.error e, t) := by
  change (ExceptT.bindCont f (x s).1) (x s).2 = (.error e, t)
  rw [h]
  rfl

namespace Formula

variable [Scalar α] {source : Source α σ} {env : String → Option α} {s t u : σ} {x y : α}

theorem eval_var {name : String} (h : env name = some x) :
    (var name).eval source env s = (.ok (.number x), s) := by
  rw [eval, h]
  rfl

theorem eval_signed {f : Formula α} (sign : Sign) (h : f.eval source env s = (.ok (.number x), t)) :
    (signed sign f).eval source env s = (.ok (.number (sign.apply x)), t) := by
  rw [eval, Draws.bind_ok h]
  rfl

theorem eval_binary {f g : Formula α} (op : BinaryOp)
    (hf : f.eval source env s = (.ok (.number x), t))
    (hg : g.eval source env t = (.ok (.number y), u)) :
    (binary op f g).eval source env s = (.ok (.number (op.apply x y)), u) := by
  rw [eval, Draws.bind_ok hf]
  exact Draws.bind_ok hg

theorem eval_uniform {f g : Formula α} (hf : f.eval source env s = (.ok (.number x), t))
    (hg : g.eval source env t = (.ok (.number y), u)) :
    (uniform f g).eval source env s = (.ok (.range x y), u) := by
  rw [eval, Draws.bind_ok hf]
  exact Draws.bind_ok hg

/-- A draw from a range: the source is asked only if the bounds are in strict order. -/
theorem eval_sample {f : Formula α} (h : f.eval source env s = (.ok (.range x y), t)) :
    (sample f).eval source env s =
      if x < y then (.ok (.number (source.draw x y t).1), (source.draw x y t).2)
      else if x ≤ y then (.ok (.number x), t)
      else (.ok (.number Scalar.undefined), t) := by
  rw [eval, Draws.bind_ok h, Value.sample]
  split
  · rfl
  · split <;> rfl

theorem toNumber_of_eval {f : Formula α} (h : f.eval source env s = (.ok (.number x), t)) :
    f.toNumber source env s = (.ok x, t) := by
  rw [toNumber, Draws.bind_ok h]
  rfl

theorem toFinite_of_eval {f : Formula α} (h : f.eval source env s = (.ok (.number x), t))
    (hx : Scalar.isFinite x = true) : f.toFinite source env s = (.ok x, t) := by
  rw [toFinite, Draws.bind_ok (toNumber_of_eval h), if_pos hx]
  rfl

theorem isFinite_of_toFinite {f : Formula α} (h : f.toFinite source env s = (.ok x, t)) :
    Scalar.isFinite x = true := by
  obtain ⟨result, u, hnumber⟩ : ∃ result u, f.toNumber source env s = (result, u) := ⟨_, _, rfl⟩
  rw [toFinite] at h
  cases result with
  | error e =>
    rw [Draws.bind_error hnumber] at h
    cases congrArg Prod.fst h
  | ok y =>
    rw [Draws.bind_ok hnumber] at h
    split at h
    next hy =>
      obtain rfl : y = x := Except.ok.inj (congrArg Prod.fst h)
      exact hy
    · cases congrArg Prod.fst h

end Formula

end RangeCalc
