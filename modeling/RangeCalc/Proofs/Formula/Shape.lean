import Mathlib.Logic.Basic
import RangeCalc.Scalar.Binary64
import RangeCalc.Proofs.Formula.Eval

/-!
# When an evaluation fails

Division by zero, powers that are too large and arguments outside of a domain have values, so an
evaluation can only fail at a variable without a value or at a range where a number is needed. Both are
seen from the formula.

* `Formula.hasLooseRange`: whether a range stands anywhere but directly in a draw;
* `Draws.Gives`: what a computation gives from every state;
* `eval_gives`: the value or the error of a formula, by induction on the formula;
* `toNumber_fails_by_shape`: an evaluation fails exactly if a variable has no value or a range is loose.
-/

namespace RangeCalc

variable {α σ β γ : Type}

namespace Formula

/-- Whether a formula is a range. -/
def isRange : Formula α → Bool
  | uniform _ _ => true
  | _ => false

mutual

/-- Whether a range is an operand, an argument of a function or a bound of a range in a formula. -/
def misplacesRange : Formula α → Bool
  | number _ => false
  | constant _ => false
  | var _ => false
  | signed _ operand => operand.isRange || operand.misplacesRange
  | binary _ lhs rhs =>
    (lhs.isRange || lhs.misplacesRange) || (rhs.isRange || rhs.misplacesRange)
  | call _ args => anyLooseRange args
  | uniform low high =>
    (low.isRange || low.misplacesRange) || (high.isRange || high.misplacesRange)
  | sample range => range.misplacesRange

/-- Whether one of some formulas is a range or misplaces one. -/
def anyLooseRange : List (Formula α) → Bool
  | [] => false
  | f :: fs => (f.isRange || f.misplacesRange) || anyLooseRange fs

end

/-- Whether a range stands in a formula anywhere but directly in a draw. -/
def hasLooseRange (f : Formula α) : Bool :=
  f.isRange || f.misplacesRange

example : (sample (uniform (number 1) (number 2))).hasLooseRange = false := rfl

example : (sample (signed .plus (uniform (number 1) (number 2)))).hasLooseRange = true := rfl

end Formula

def Value.isRange : Value α → Bool
  | .number _ => false
  | .range _ _ => true

/-- Whether all variables of a list have values. -/
def AllBound (env : String → Option α) (names : List String) : Prop :=
  ∀ name ∈ names, env name ≠ none

theorem AllBound.append {env : String → Option α} {names names' : List String}
    (h : AllBound env names) (h' : AllBound env names') : AllBound env (names ++ names') :=
  fun name hname => (List.mem_append.mp hname).elim (h name) (h' name)

theorem not_allBound {env : String → Option α} {names : List String} :
    ¬ AllBound env names ↔ ∃ name ∈ names, env name = none := by
  simp only [AllBound, ne_eq, not_forall, not_not, exists_prop]

theorem allBound_map {env : String → Option α} {names : List String} (f : String → α → β) :
    AllBound (fun name => (env name).map (f name)) names ↔ AllBound env names := by
  simp only [AllBound, ne_eq, Option.map_eq_none_iff]

/-- What an error of an evaluation says of the variables and of the ranges of a formula. -/
def EvalError.Blames (env : String → Option α) (names : List String) (loose : Bool) :
    EvalError α → Prop
  | unboundVariable name => name ∈ names ∧ env name = none
  | rangeAsOperand _ _ => loose = true
  | rangeAsResult _ _ => loose = true
  | notFinite _ => False

theorem EvalError.Blames.mono {env : String → Option α} {names names' : List String}
    {loose loose' : Bool} {e : EvalError α} (h : e.Blames env names loose) (hnames : names ⊆ names')
    (hloose : loose = true → loose' = true) : e.Blames env names' loose' := by
  cases e with
  | unboundVariable name => exact ⟨hnames h.1, h.2⟩
  | rangeAsOperand low high => exact hloose h
  | rangeAsResult low high => exact hloose h
  | notFinite x => exact h

theorem EvalError.Blames.not_shaped {env : String → Option α} {names : List String} {loose : Bool}
    {e : EvalError α} (h : e.Blames env names loose) :
    ¬ AllBound env names ∨ loose = true := by
  cases e with
  | unboundVariable name => exact .inl fun hbound => hbound name h.1 h.2
  | rangeAsOperand low high => exact .inr h
  | rangeAsResult low high => exact .inr h
  | notFinite x => exact h.elim

/-! ## Computations from every state -/

namespace Draws

/-- From every state a computation gives a value with `post` or an error with `error`. -/
def Gives (c : Draws α σ β) (post : β → Prop) (error : EvalError α → Prop) : Prop :=
  ∀ s, match (c s).1 with
    | .ok b => post b
    | .error e => error e

variable {c : Draws α σ β} {k : β → Draws α σ γ} {post : β → Prop} {post' : γ → Prop}
  {error error' : EvalError α → Prop}

theorem Gives.pure {b : β} (h : post b) : (Pure.pure b : Draws α σ β).Gives post error :=
  fun _ => h

theorem Gives.throw {e : EvalError α} (h : error e) : (MonadExcept.throw e : Draws α σ β).Gives post error :=
  fun _ => h

theorem Gives.mono (h : c.Gives post error) (herror : ∀ e, error e → error' e) :
    c.Gives post error' := by
  intro s
  have := h s
  revert this
  rcases (c s).1 with e | b
  · exact herror e
  · exact id

theorem Gives.bind (hc : c.Gives post error) (hk : ∀ b, post b → (k b).Gives post' error) :
    (c >>= k).Gives post' error := by
  intro s
  have hs := hc s
  rcases hrun : c s with ⟨e | b, t⟩
  · rw [bind_error hrun]
    simpa only [hrun] using hs
  · rw [bind_ok hrun]
    exact hk b (by simpa only [hrun] using hs) t

end Draws

/-! ## The induction on the formula -/

namespace Formula

open Draws

variable [Scalar α] (source : Source α σ) (env : String → Option α)

/-- What the value of a formula says of the formula. -/
def FitsValue (env : String → Option α) (f : Formula α) (v : Value α) : Prop :=
  AllBound env f.vars ∧ f.misplacesRange = false ∧ v.isRange = f.isRange

variable {source env}

/-- An operand, and what comes after it: it fails where the operand does, or where that is a range. -/
theorem gives_operand {f : Formula α} {k : α → Draws α σ β} {post : β → Prop} {names : List String}
    {loose : Bool} (hf : (f.eval source env).Gives (FitsValue env f) (·.Blames env f.vars f.misplacesRange))
    (hnames : f.vars ⊆ names) (hloose : f.hasLooseRange = true → loose = true)
    (hk : ∀ x, AllBound env f.vars → f.hasLooseRange = false →
      (k x).Gives post (·.Blames env names loose)) :
    (f.eval source env >>= fun v => v.operand >>= k).Gives post (·.Blames env names loose) := by
  refine (hf.mono fun e he => he.mono hnames fun h => hloose ?_).bind ?_
  · rw [hasLooseRange, h, Bool.or_true]
  rintro (x | ⟨low, high⟩) ⟨hbound, hplaced, hrange⟩
  · refine hk x hbound ?_
    rw [hasLooseRange, ← hrange, hplaced]
    rfl
  · refine fun s => hloose ?_
    rw [hasLooseRange, ← hrange]
    rfl

/-- Two operands in turn, and what is made of them. -/
theorem gives_operands₂ {f g : Formula α} {value : α → α → Value α} {whole : Formula α}
    (hf : (f.eval source env).Gives (FitsValue env f) (·.Blames env f.vars f.misplacesRange))
    (hg : (g.eval source env).Gives (FitsValue env g) (·.Blames env g.vars g.misplacesRange))
    (hvars : whole.vars = f.vars ++ g.vars)
    (hplaced : whole.misplacesRange = (f.hasLooseRange || g.hasLooseRange))
    (hvalue : ∀ x y, (value x y).isRange = whole.isRange) :
    (f.eval source env >>= fun v => v.operand >>= fun x =>
        g.eval source env >>= fun w => w.operand >>= fun y => pure (value x y)).Gives
      (FitsValue env whole) (·.Blames env whole.vars whole.misplacesRange) := by
  refine gives_operand hf (by simp [hvars]) (by simp_all) fun x hfbound hfplaced => ?_
  refine gives_operand hg (by simp [hvars]) (by simp_all) fun y hgbound hgplaced => ?_
  refine .pure ⟨?_, ?_, hvalue x y⟩
  · rw [hvars]
    exact hfbound.append hgbound
  · rw [hplaced, hfplaced, hgplaced]
    rfl

mutual

/-- From every state a formula without unbound variables and misplaced ranges has a value, which is a
range exactly if the formula is one; any other formula has an error. -/
theorem eval_gives : ∀ f : Formula α,
    (f.eval source env).Gives (FitsValue env f) (·.Blames env f.vars f.misplacesRange)
  | number x => by
    rw [eval]
    exact .pure ⟨fun _ h => (List.not_mem_nil h).elim, rfl, rfl⟩
  | constant c => by
    rw [eval]
    exact .pure ⟨fun _ h => (List.not_mem_nil h).elim, rfl, rfl⟩
  | var name => by
    rw [eval]
    split
    next x hx =>
      refine .pure ⟨fun other hother => ?_, rfl, rfl⟩
      rw [List.mem_singleton.mp hother, hx]
      exact Option.some_ne_none x
    next hx => exact .throw ⟨List.mem_singleton_self name, hx⟩
  | signed sign f => by
    rw [eval]
    refine gives_operand (eval_gives f) (List.Subset.refl _) id fun x hbound hplaced => ?_
    exact .pure ⟨hbound, hplaced, rfl⟩
  | binary op f g => by
    rw [eval]
    exact gives_operands₂ (eval_gives f) (eval_gives g) rfl rfl fun _ _ => rfl
  | call function args => by
    rw [eval]
    exact (operands_gives args).bind fun xs h => .pure ⟨h.1, h.2, rfl⟩
  | uniform f g => by
    rw [eval]
    exact gives_operands₂ (eval_gives f) (eval_gives g) rfl rfl fun _ _ => rfl
  | sample f => by
    rw [eval]
    refine (eval_gives f).bind fun v h => ?_
    have hdraw : (v.sample source).Gives (fun _ => True)
        (·.Blames env f.vars f.misplacesRange) := by
      cases v with
      | number x => exact .pure trivial
      | range low high =>
        rw [Value.sample]
        split
        · exact fun s => trivial
        · split <;> exact .pure trivial
    exact hdraw.bind fun x _ => .pure ⟨h.1, h.2.1, rfl⟩

theorem operands_gives : ∀ fs : List (Formula α),
    (operands source env fs).Gives
      (fun _ => AllBound env (varsOfAll fs) ∧ anyLooseRange fs = false)
      (·.Blames env (varsOfAll fs) (anyLooseRange fs))
  | [] => by
    rw [operands]
    exact .pure ⟨fun _ h => (List.not_mem_nil h).elim, rfl⟩
  | f :: fs => by
    rw [operands]
    refine gives_operand (eval_gives f) (List.subset_append_left _ _)
      (fun h => by rw [anyLooseRange, ← hasLooseRange, h, Bool.true_or]) fun x hbound hplaced => ?_
    refine ((operands_gives fs).mono fun e he => he.mono (List.subset_append_right _ _)
      fun h => by rw [anyLooseRange, h, Bool.or_true]).bind fun xs h => ?_
    refine .pure ⟨hbound.append h.1, ?_⟩
    rw [anyLooseRange, ← hasLooseRange, hplaced, h.2]
    rfl

end

variable (source env) in
theorem toNumber_gives (f : Formula α) :
    (f.toNumber source env).Gives (fun _ => AllBound env f.vars ∧ f.hasLooseRange = false)
      (·.Blames env f.vars f.hasLooseRange) := by
  rw [toNumber]
  refine ((eval_gives f).mono fun e he => he.mono (List.Subset.refl _) fun h => ?_).bind ?_
  · rw [hasLooseRange, h, Bool.or_true]
  rintro (x | ⟨low, high⟩) ⟨hbound, hplaced, hrange⟩
  · refine .pure ⟨hbound, ?_⟩
    rw [hasLooseRange, ← hrange, hplaced]
    rfl
  · refine fun s => ?_
    change f.hasLooseRange = true
    rw [hasLooseRange, ← hrange]
    rfl

/-- An evaluation fails exactly if a variable has no value or a range is loose. -/
theorem isOk_toNumber_iff (f : Formula α) (s : σ) :
    (f.toNumber source env s).1.isOk = true ↔ AllBound env f.vars ∧ f.hasLooseRange = false := by
  have h := toNumber_gives source env f s
  rcases hrun : (f.toNumber source env s).1 with e | x
  · rw [hrun] at h
    refine iff_of_false Bool.false_ne_true fun ⟨hbound, hplaced⟩ => ?_
    rcases h.not_shaped with hunbound | hloose
    · exact hunbound hbound
    · exact Bool.false_ne_true (hplaced.symm.trans hloose)
  · rw [hrun] at h
    exact iff_of_true rfl h

/-- The evaluation of a formula gives a number, or an error that names an unbound variable or a range
where a number is needed. There is an error exactly if a variable has no value or a range stands anywhere
but directly in a draw; the values of the variables and the draws make no difference. -/
theorem toNumber_fails_by_shape [MathLibrary] {τ : Type} (f : Formula Float) (source : Source Float σ)
    (env : String → Option Float) (s : σ) :
    ((∃ x, (f.toNumber source env s).1 = .ok x) ∨
      ∃ e, (f.toNumber source env s).1 = .error e ∧ e.Blames env f.vars f.hasLooseRange) ∧
    ((f.toNumber source env s).1.isOk = false ↔
      (∃ name ∈ f.vars, env name = none) ∨ f.hasLooseRange = true) ∧
    ∀ (source' : Source Float τ) (revalue : String → Float → Float) (s' : τ),
      (f.toNumber source' (fun name => (env name).map (revalue name)) s').1.isOk =
        (f.toNumber source env s).1.isOk := by
  refine ⟨?_, ?_, fun source' revalue s' => ?_⟩
  · have h := toNumber_gives source env f s
    rcases hrun : (f.toNumber source env s).1 with e | x
    · rw [hrun] at h
      exact .inr ⟨e, rfl, h⟩
    · exact .inl ⟨x, rfl⟩
  · rw [← Bool.not_eq_true, isOk_toNumber_iff, not_and_or, not_allBound, Bool.not_eq_false]
  · rw [Bool.eq_iff_iff, isOk_toNumber_iff, isOk_toNumber_iff, allBound_map]

end Formula

end RangeCalc
