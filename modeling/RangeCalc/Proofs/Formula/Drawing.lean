import RangeCalc.Formula.Eval

/-!
# Evaluations that draw nothing

A computation that draws nothing has one result, whatever its source, and leaves the state of the source
as it is. Whether it draws is seen from the formula for those without ranges and draws, and from the count
of draws for all others.

* `Runs`: the runs of a computation with every source;
* `Runs.Steady`: computations that never draw;
* `Runs.Tracked`: computations of which a run without a counted draw has the result of all runs;
* `Formula.drawsOnlyIf_eval`: evaluations are tracked, and steady if the formula is not probabilistic.
-/

namespace RangeCalc

variable {α β γ ρ ρ' : Type}

/-- The runs of a computation with every source and from every state. -/
abbrev Runs (α ρ : Type) := ∀ σ : Type, Source α σ → σ → ρ × σ

namespace Runs

/-- One computation after another. -/
def andThen (c : Runs α ρ) (k : ρ → Runs α ρ') : Runs α ρ' := fun σ source s =>
  k (c σ source s).1 σ source (c σ source s).2

/-- Whether a computation has the same result from every source and state, and never draws. -/
def Steady (c : Runs α ρ) : Prop :=
  ∃ r, ∀ (σ : Type) (source : Source α σ) (s : σ), c σ source s = (r, s)

/-- Whether the count of draws only grows, and the result of a run in which it does not is that of every
source. -/
def Tracked (c : Runs α ρ) : Prop :=
  ∀ (σ : Type) (source : Source α σ) (s : σ) (n : Nat) {r : ρ} {t : σ} {m : Nat},
    c (σ × Nat) source.counted (s, n) = (r, t, m) →
      n ≤ m ∧ (m = n → ∀ (τ : Type) (other : Source α τ) (u : τ), c τ other u = (r, u))

theorem Steady.andThen {c : Runs α ρ} {k : ρ → Runs α ρ'} (hc : c.Steady) (hk : ∀ r, (k r).Steady) :
    (c.andThen k).Steady := by
  obtain ⟨r, hr⟩ := hc
  obtain ⟨r', hr'⟩ := hk r
  exact ⟨r', fun σ source s => by rw [Runs.andThen, hr, hr']⟩

theorem Steady.tracked {c : Runs α ρ} (hc : c.Steady) : c.Tracked := by
  obtain ⟨r, hr⟩ := hc
  intro σ source s n r' t m h
  rw [hr] at h
  cases h
  exact ⟨Nat.le_refl n, fun _ => hr⟩

theorem Tracked.andThen {c : Runs α ρ} {k : ρ → Runs α ρ'} (hc : c.Tracked)
    (hk : ∀ r, (k r).Tracked) : (c.andThen k).Tracked := by
  intro σ source s n r' t' m' h
  rcases hrun : c (σ × Nat) source.counted (s, n) with ⟨r, t, m⟩
  rw [Runs.andThen, hrun] at h
  obtain ⟨hle, hsame⟩ := hc σ source s n hrun
  obtain ⟨hle', hsame'⟩ := hk r σ source t m h
  -- none is counted in both together exactly if none is counted in either
  refine ⟨Nat.le_trans hle hle', fun heq τ other u => ?_⟩
  rw [Runs.andThen, hsame (by omega), hsame' (by omega)]

/-- Whether a computation is tracked, and steady unless it is marked. -/
def DrawsOnlyIf (mark : Bool) (c : Runs α ρ) : Prop :=
  c.Tracked ∧ (mark = false → c.Steady)

namespace DrawsOnlyIf

variable {mark mark' : Bool}

theorem const (r : ρ) : DrawsOnlyIf mark (fun _ _ s => (r, s) : Runs α ρ) :=
  have h : Steady (fun _ _ s => (r, s) : Runs α ρ) := ⟨r, fun _ _ _ => rfl⟩
  ⟨h.tracked, fun _ => h⟩

theorem mono {c : Runs α ρ} (h : DrawsOnlyIf mark c) (hmark : mark = true → mark' = true) :
    DrawsOnlyIf mark' c := by
  refine ⟨h.1, fun hfalse => h.2 ?_⟩
  rw [Bool.eq_false_iff]
  exact fun htrue => absurd (hmark htrue) (by simp [hfalse])

theorem andThen {c : Runs α ρ} {k : ρ → Runs α ρ'} (hc : DrawsOnlyIf mark c)
    (hk : ∀ r, DrawsOnlyIf mark (k r)) : DrawsOnlyIf mark (c.andThen k) :=
  ⟨hc.1.andThen fun r => (hk r).1, fun h => (hc.2 h).andThen fun r => (hk r).2 h⟩

theorem pure (b : β) :
    DrawsOnlyIf mark fun σ (_ : Source α σ) (s : σ) => (Pure.pure b : Draws α σ β) s :=
  const (Except.ok b)

theorem throw (e : EvalError α) :
    DrawsOnlyIf mark fun σ (_ : Source α σ) (s : σ) => (MonadExcept.throw e : Draws α σ β) s :=
  const (Except.error e)

/-- A computation after one that may fail. -/
theorem bind {c : ∀ σ : Type, Source α σ → Draws α σ β}
    {k : β → ∀ σ : Type, Source α σ → Draws α σ γ}
    (hc : DrawsOnlyIf mark fun σ source s => c σ source s)
    (hk : ∀ b, DrawsOnlyIf mark fun σ source s => k b σ source s) :
    DrawsOnlyIf mark fun σ source s => (c σ source >>= fun b => k b σ source) s := by
  refine andThen (k := fun r σ source s => ExceptT.bindCont (fun b => k b σ source) r s) hc ?_
  rintro (e | b)
  · exact const (Except.error e)
  · exact hk b

/-- A computation after one that does not fail. -/
theorem bindState {c : ∀ σ : Type, Source α σ → StateM σ β}
    {k : β → ∀ σ : Type, Source α σ → StateM σ γ}
    (hc : DrawsOnlyIf mark fun σ source s => c σ source s)
    (hk : ∀ b, DrawsOnlyIf mark fun σ source s => k b σ source s) :
    DrawsOnlyIf mark fun σ source s => (c σ source >>= fun b => k b σ source) s :=
  andThen hc hk

end DrawsOnlyIf

end Runs

/-! ## Evaluation -/

open Runs

section

variable [Scalar α] (env : String → Option α)

/-- A draw is counted. -/
theorem drawsOnlyIf_sample (v : Value α) :
    DrawsOnlyIf true fun σ source (s : σ) => (v.sample source : Draws α σ α) s := by
  cases v with
  | number x => exact .pure _
  | range low high =>
    simp only [Value.sample]
    split
    · refine ⟨fun σ source s n r t m h => ?_, nofun⟩
      cases h
      exact ⟨Nat.le_succ n, fun heq => absurd heq (Nat.succ_ne_self n)⟩
    · split
      · exact .pure _
      · exact .pure _

omit [Scalar α] in
theorem drawsOnlyIf_operand (mark : Bool) (v : Value α) :
    DrawsOnlyIf mark fun σ (_ : Source α σ) (s : σ) => (v.operand : Draws α σ α) s := by
  cases v with
  | number x => exact .pure _
  | range low high => exact .throw _

namespace Formula

mutual

theorem drawsOnlyIf_eval : ∀ f : Formula α,
    DrawsOnlyIf f.isProbabilistic fun _ source s => f.eval source env s
  | number x => by
    simp only [eval]
    exact .pure _
  | constant c => by
    simp only [eval]
    exact .pure _
  | var name => by
    simp only [eval]
    cases env name with
    | some x => exact .pure _
    | none => exact .throw _
  | signed sign f => by
    simp only [eval]
    refine (drawsOnlyIf_eval f).bind fun v => ?_
    refine (drawsOnlyIf_operand _ v).bind fun x => ?_
    exact .pure _
  | binary op f g => by
    simp only [eval]
    refine ((drawsOnlyIf_eval f).mono ?_).bind fun v => ?_
    · exact fun h => by rw [isProbabilistic, h, Bool.true_or]
    refine (drawsOnlyIf_operand _ v).bind fun x => ?_
    refine ((drawsOnlyIf_eval g).mono ?_).bind fun w => ?_
    · exact fun h => by rw [isProbabilistic, h, Bool.or_true]
    refine (drawsOnlyIf_operand _ w).bind fun y => ?_
    exact .pure _
  | call f args => by
    simp only [eval]
    refine (drawsOnlyIf_operands args).bind fun xs => ?_
    exact .pure _
  | uniform f g => by
    simp only [eval]
    refine ((drawsOnlyIf_eval f).mono fun _ => rfl).bind fun v => ?_
    refine (drawsOnlyIf_operand _ v).bind fun x => ?_
    refine ((drawsOnlyIf_eval g).mono fun _ => rfl).bind fun w => ?_
    refine (drawsOnlyIf_operand _ w).bind fun y => ?_
    exact .pure _
  | sample f => by
    simp only [eval]
    refine ((drawsOnlyIf_eval f).mono fun _ => rfl).bind fun v => ?_
    refine (drawsOnlyIf_sample v).bind fun x => ?_
    exact .pure _

theorem drawsOnlyIf_operands : ∀ fs : List (Formula α),
    DrawsOnlyIf (anyProbabilistic fs) fun _ source s => operands source env fs s
  | [] => by
    simp only [operands]
    exact .pure _
  | f :: fs => by
    simp only [operands]
    refine ((drawsOnlyIf_eval f).mono ?_).bind fun v => ?_
    · exact fun h => by rw [anyProbabilistic, h, Bool.true_or]
    refine (drawsOnlyIf_operand _ v).bind fun x => ?_
    refine ((drawsOnlyIf_operands fs).mono ?_).bind fun xs => ?_
    · exact fun h => by rw [anyProbabilistic, h, Bool.or_true]
    exact .pure _

end

theorem drawsOnlyIf_toNumber (f : Formula α) :
    DrawsOnlyIf f.isProbabilistic fun _ source s => f.toNumber source env s := by
  simp only [toNumber]
  refine (drawsOnlyIf_eval env f).bind fun v => ?_
  cases v with
  | number x => exact .pure _
  | range low high => exact .throw _

theorem drawsOnlyIf_toFinite (f : Formula α) :
    DrawsOnlyIf f.isProbabilistic fun _ source s => f.toFinite source env s := by
  simp only [toFinite]
  refine (drawsOnlyIf_toNumber env f).bind fun x => ?_
  split
  · exact .pure _
  · exact .throw _

end Formula

end

end RangeCalc
