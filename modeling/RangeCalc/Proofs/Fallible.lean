/-!
# Computations that may fail

* `bind_eq_ok`, `bind_eq_error`, `bind_ok`: a computation after another one;
* `foldlM_invariant`: what a fold keeps, if it does not fail;
* `foldlM_ok`, `foldlM_eq`, `mapM_ok`, `mapM_isOk`: folds and maps that do not fail;
* `Agree`: two computations that fail alike, or give related results.
-/

namespace RangeCalc

variable {ε α β : Type}

theorem bind_eq_ok {x : Except ε α} {f : α → Except ε β} {b : β} :
    (x >>= f) = .ok b ↔ ∃ a, x = .ok a ∧ f a = .ok b := by
  cases x <;> simp [Bind.bind, Except.bind]

theorem bind_eq_error {ε α β : Type} {x : Except ε α} {f : α → Except ε β} {e : ε} :
    (x >>= f) = .error e ↔ x = .error e ∨ ∃ a, x = .ok a ∧ f a = .error e := by
  cases x <;> simp [Bind.bind, Except.bind]

theorem bind_ok {x : Except ε α} {f : α → Except ε β} {a : α} (h : x = .ok a) : (x >>= f) = f a := by
  rw [h]
  rfl

theorem map_eq_ok {x : Except ε α} {f : α → β} {b : β} :
    x.map f = .ok b ↔ ∃ a, x = .ok a ∧ f a = b := by
  cases x <;> simp [Except.map]

theorem mapError_eq_ok {ε' : Type} {x : Except ε α} {f : ε → ε'} {a : α} :
    x.mapError f = .ok a ↔ x = .ok a := by
  cases x with
  | error e => exact iff_of_false nofun nofun
  | ok b => simp only [Except.ok.injEq, show (Except.ok b).mapError f = .ok b from rfl]

/-- What holds before a fold and is kept by each step holds after the fold. -/
theorem foldlM_invariant {step : β → α → Except ε β} {xs : List α} {b b' : β} (P : β → Prop)
    (hb : P b) (hstep : ∀ b, ∀ x ∈ xs, ∀ b', P b → step b x = .ok b' → P b')
    (h : xs.foldlM step b = .ok b') : P b' := by
  induction xs generalizing b with
  | nil =>
    obtain rfl : b = b' := Except.ok.inj h
    exact hb
  | cons x xs ih =>
    rw [List.foldlM_cons, bind_eq_ok] at h
    obtain ⟨next, hnext, h⟩ := h
    exact ih (hstep b x List.mem_cons_self next hb hnext)
      (fun b y hy => hstep b y (List.mem_cons_of_mem x hy)) h

/-- A fold does not fail if no step does. -/
theorem foldlM_ok {step : β → α → Except ε β} {xs : List α} (b : β)
    (hstep : ∀ b, ∀ x ∈ xs, ∃ b', step b x = .ok b') : ∃ b', xs.foldlM step b = .ok b' := by
  induction xs generalizing b with
  | nil => exact ⟨b, rfl⟩
  | cons x xs ih =>
    obtain ⟨next, hnext⟩ := hstep b x List.mem_cons_self
    rw [List.foldlM_cons, bind_ok hnext]
    exact ih next fun b y hy => hstep b y (List.mem_cons_of_mem x hy)

/-- A fold of steps that do not fail. -/
theorem foldlM_eq {step : β → α → Except ε β} {f : β → α → β} {xs : List α}
    (h : ∀ b, ∀ x ∈ xs, step b x = .ok (f b x)) (b : β) : xs.foldlM step b = .ok (xs.foldl f b) := by
  induction xs generalizing b with
  | nil => rfl
  | cons x xs ih =>
    rw [List.foldlM_cons, bind_ok (h b x List.mem_cons_self), List.foldl_cons]
    exact ih (fun b y hy => h b y (List.mem_cons_of_mem x hy)) (f b x)

theorem mapM_ok {f : α → Except ε β} {g : α → β} {xs : List α} (h : ∀ x ∈ xs, f x = .ok (g x)) :
    xs.mapM f = .ok (xs.map g) := by
  induction xs with
  | nil => rfl
  | cons x xs ih =>
    rw [List.forall_mem_cons] at h
    rw [List.mapM_cons, bind_ok h.1, bind_ok (ih h.2)]
    rfl

/-- A map does not fail if no result does, and its results are what each of them is. -/
theorem mapM_isOk {f : α → Except ε β} {xs : List α} (P : β → Prop)
    (h : ∀ x ∈ xs, ∃ y, f x = .ok y ∧ P y) :
    ∃ ys, xs.mapM f = .ok ys ∧ ys.length = xs.length ∧ ∀ y ∈ ys, P y := by
  induction xs with
  | nil => exact ⟨[], rfl, rfl, fun y hy => absurd hy List.not_mem_nil⟩
  | cons x xs ih =>
    rw [List.forall_mem_cons] at h
    obtain ⟨⟨y, hy, hP⟩, hrest⟩ := h
    obtain ⟨ys, hys, hlength, hall⟩ := ih hrest
    refine ⟨y :: ys, ?_, congrArg Nat.succ hlength, List.forall_mem_cons.mpr ⟨hP, hall⟩⟩
    rw [List.mapM_cons, bind_ok hy, bind_ok hys]
    rfl

/-- A map does not fail on the same elements in another order, and has the same results. -/
theorem mapM_perm {f : α → Except ε β} {xs xs' : List α} {ys : List β} (hperm : xs.Perm xs')
    (h : xs.mapM f = .ok ys) : ∃ ys', xs'.mapM f = .ok ys' ∧ ys.Perm ys' := by
  induction hperm generalizing ys with
  | nil => exact ⟨ys, h, .refl ys⟩
  | cons x _ ih =>
    rw [List.mapM_cons] at h
    obtain ⟨y, hy, h⟩ := bind_eq_ok.mp h
    obtain ⟨rest, hrest, h⟩ := bind_eq_ok.mp h
    obtain rfl := Except.ok.inj h
    obtain ⟨rest', hrest', hperm⟩ := ih hrest
    exact ⟨y :: rest', by rw [List.mapM_cons, bind_ok hy, bind_ok hrest']; rfl, hperm.cons y⟩
  | swap x x' rest =>
    rw [List.mapM_cons, List.mapM_cons] at h
    obtain ⟨y, hy, h⟩ := bind_eq_ok.mp h
    obtain ⟨tail, htail, h⟩ := bind_eq_ok.mp h
    obtain ⟨y', hy', htail⟩ := bind_eq_ok.mp htail
    obtain ⟨zs, hzs, htail⟩ := bind_eq_ok.mp htail
    obtain rfl := Except.ok.inj htail
    obtain rfl := Except.ok.inj h
    refine ⟨y' :: y :: zs, ?_, .swap y' y zs⟩
    rw [List.mapM_cons, List.mapM_cons, bind_ok hy', bind_ok hy, bind_ok hzs]
    rfl
  | trans _ _ ih ih' =>
    obtain ⟨zs, hzs, hperm⟩ := ih h
    obtain ⟨zs', hzs', hperm'⟩ := ih' hzs
    exact ⟨zs', hzs', hperm.trans hperm'⟩

/-! ## Two computations -/

/-- Two computations fail for the same reason, or both succeed and their results are related. -/
inductive Agree {α' : Type} (R : α → α' → Prop) : Except ε α → Except ε α' → Prop where
  | ok {a : α} {a' : α'} (h : R a a') : Agree R (.ok a) (.ok a')
  | error (e : ε) : Agree R (.error e) (.error e)

namespace Agree

variable {α' β' : Type} {R : α → α' → Prop} {S : β → β' → Prop} {x : Except ε α} {x' : Except ε α'}

theorem of_eq {x x' : Except ε α} (h : x = x') : Agree Eq x x' := by
  subst h
  cases x with
  | ok a => exact .ok rfl
  | error e => exact .error e

theorem eq {x x' : Except ε α} (h : Agree Eq x x') : x = x' := by
  cases h with
  | ok h => rw [h]
  | error => rfl

theorem bind {f : α → Except ε β} {f' : α' → Except ε β'} (h : Agree R x x')
    (hf : ∀ a a', x = .ok a → x' = .ok a' → R a a' → Agree S (f a) (f' a')) :
    Agree S (x >>= f) (x' >>= f') := by
  cases h with
  | ok h => exact hf _ _ rfl rfl h
  | error e => exact .error e

/-- The same computation before two others. -/
theorem bind_same {x : Except ε α} {f : α → Except ε β} {f' : α → Except ε β'}
    (hf : ∀ a, x = .ok a → Agree S (f a) (f' a)) : Agree S (x >>= f) (x >>= f') := by
  cases x with
  | ok a => exact hf a rfl
  | error e => exact .error e

theorem imp {R' : α → α' → Prop} (h : Agree R x x') (himp : ∀ a a', R a a' → R' a a') : Agree R' x x' := by
  cases h with
  | ok h => exact .ok (himp _ _ h)
  | error e => exact .error e

theorem mapError {ε' : Type} (h : Agree R x x') (f : ε → ε') : Agree R (x.mapError f) (x'.mapError f) := by
  cases h with
  | ok h => exact .ok h
  | error e => exact .error (f e)

end Agree

end RangeCalc
