import RangeCalc.Proofs.Number.Arithmetic

/-!
# Numbers that differ in the sign of a zero only

Two numbers are alike if they are the same or both zeros. Sums, differences, products and quotients of
numbers that are alike are alike, and they compare alike.

* `Alike`: the relation, and `alike_iff_units` for finite numbers;
* `IsCongruence`: what arithmetic keeps; equality and `Alike` are congruences.
-/

namespace RangeCalc.Binary64

open Float.Model Float.Model.UnpackedFloat

/-- The same number but for the sign of a zero. -/
def Alike (x y : Float) : Prop :=
  x = y ∨ (x == 0) = true ∧ (y == 0) = true

/-! ## Unpacked numbers -/

/-- A number is known by what it unpacks to. -/
theorem eq_of_unpack {x y : Float} (h : x.toModel.unpack = y.toModel.unpack) : x = y := by
  rcases x with ⟨⟨⟨bits⟩, hvalid⟩⟩
  rcases y with ⟨⟨⟨bits'⟩, hvalid'⟩⟩
  obtain rfl : bits = bits' := (unpack_inj_of_valid hvalid hvalid' (by decide)).mp h
  rfl

theorem beq_zero_iff {x : Float} : (x == 0) = true ↔ ∃ s, x.toModel.unpack = .zero s := by
  have hzero : (0 : Float).toModel.unpack = .zero .positive := by
    obtain ⟨hfinite, hmagnitude, hsign⟩ :
        (0 : Float).isFinite = true ∧ magnitude 0 = 0 ∧ isNegative 0 = false := by decide +kernel
    rcases unpack_finite hfinite with ⟨-, hu⟩ | ⟨m, e, hm, -, -, -, hmag⟩
    · rw [hu, signOf, hsign]
      rfl
    · have := Nat.mul_pos hm (Nat.two_pow_pos (e + 1074).toNat)
      omega
  show (x.toModel.unpack.compare (0 : Float).toModel.unpack == some .eq) = true ↔ _
  rw [hzero]
  cases x.toModel.unpack with
  | infinity s => cases s <;> simp [UnpackedFloat.compare]
  | finite s m e hm => cases s <;> simp [UnpackedFloat.compare]
  | _ => simp [UnpackedFloat.compare]

/-- What numbers that are alike unpack to. -/
inductive UnpackedAlike : UnpackedFloat → UnpackedFloat → Prop where
  | refl (u : UnpackedFloat) : UnpackedAlike u u
  | zero (s t : UnpackedFloat.Sign) : UnpackedAlike (.zero s) (.zero t)

theorem alike_iff_unpack {x y : Float} : Alike x y ↔ UnpackedAlike x.toModel.unpack y.toModel.unpack := by
  constructor
  · rintro (rfl | ⟨hx, hy⟩)
    · exact .refl _
    · obtain ⟨s, hx⟩ := beq_zero_iff.mp hx
      obtain ⟨t, hy⟩ := beq_zero_iff.mp hy
      rw [hx, hy]
      exact .zero s t
  · intro h
    rcases hx : x.toModel.unpack with s | _ | s | s <;> rcases hy : y.toModel.unpack with t | _ | t | t <;>
      rw [hx, hy] at h <;> cases h
    · exact .inl (eq_of_unpack (hx.trans hy.symm))
    · exact .inl (eq_of_unpack (hx.trans hy.symm))
    · exact .inr ⟨beq_zero_iff.mpr ⟨_, hx⟩, beq_zero_iff.mpr ⟨_, hy⟩⟩
    · exact .inr ⟨beq_zero_iff.mpr ⟨_, hx⟩, beq_zero_iff.mpr ⟨_, hy⟩⟩
    · exact .inl (eq_of_unpack (hx.trans hy.symm))

theorem UnpackedAlike.alike {u v : UnpackedFloat} (h : UnpackedAlike u v) :
    Alike (.ofModel (.pack u)) (.ofModel (.pack v)) := by
  cases h with
  | refl => exact .inl rfl
  | zero s t =>
    have hzero (s : UnpackedFloat.Sign) : ((Float.ofModel (.pack (.zero s))) == 0) = true := by
      cases s <;> decide +kernel
    exact .inr ⟨hzero s, hzero t⟩

namespace UnpackedAlike

variable {u u' v v' : UnpackedFloat} {format : Format}

theorem trans {w : UnpackedFloat} (h : UnpackedAlike u v) (h' : UnpackedAlike v w) : UnpackedAlike u w := by
  cases h with
  | refl => exact h'
  | zero s t =>
    cases h' with
    | refl => exact .zero s t
    | zero => exact .zero s _

theorem abs_eq (h : UnpackedAlike u v) : u.abs = v.abs := by
  cases h <;> rfl

theorem isFinite_eq (h : UnpackedAlike u v) : u.isFinite = v.isFinite := by
  cases h <;> rfl

theorem isNaN_eq (h : UnpackedAlike u v) : u.isNaN = v.isNaN := by
  cases h <;> rfl

theorem div (h : UnpackedAlike u u') (v : UnpackedFloat) :
    UnpackedAlike (u.div format v) (u'.div format v) := by
  cases h with
  | refl => exact .refl _
  | zero s t => cases v <;> constructor

variable (hu : UnpackedAlike u u') (hv : UnpackedAlike v v')

include hu hv

/-- An operation keeps what is alike if it does so for a zero on either side. -/
theorem of_zeros {op : UnpackedFloat → UnpackedFloat → UnpackedFloat}
    (hleft : ∀ s t v, UnpackedAlike (op (.zero s) v) (op (.zero t) v))
    (hright : ∀ u s t, UnpackedAlike (op u (.zero s)) (op u (.zero t))) :
    UnpackedAlike (op u v) (op u' v') := by
  have h : UnpackedAlike (op u v) (op u' v) := by
    cases hu with
    | refl => exact .refl _
    | zero s t => exact hleft s t v
  refine h.trans ?_
  cases hv with
  | refl => exact .refl _
  | zero s t => exact hright u' s t

theorem add : UnpackedAlike (u.add format v) (u'.add format v') := by
  refine hu.of_zeros hv (fun s t v => ?_) fun u s t => ?_
  · rcases v with _ | _ | r | _
    · exact .refl _
    · exact .refl _
    · cases r <;> cases s <;> cases t <;> constructor
    · exact .refl _
  · rcases u with _ | _ | r | _
    · exact .refl _
    · exact .refl _
    · cases r <;> cases s <;> cases t <;> constructor
    · exact .refl _

theorem sub : UnpackedAlike (u.sub format v) (u'.sub format v') := by
  refine hu.of_zeros hv (fun s t v => ?_) fun u s t => ?_
  · rcases v with _ | _ | r | _
    · exact .refl _
    · exact .refl _
    · cases r <;> cases s <;> cases t <;> constructor
    · exact .refl _
  · rcases u with _ | _ | r | _
    · exact .refl _
    · exact .refl _
    · cases r <;> cases s <;> cases t <;> constructor
    · exact .refl _

theorem mul : UnpackedAlike (u.mul format v) (u'.mul format v') := by
  refine hu.of_zeros hv (fun s t v => ?_) fun u s t => ?_
  · cases v <;> constructor
  · cases u <;> constructor

theorem compare_eq : u.compare v = u'.compare v' := by
  have h : u.compare v = u'.compare v := by
    cases hu with
    | refl => rfl
    | zero s t =>
      rcases v with r | _ | _ | r
      · cases r <;> rfl
      · rfl
      · rfl
      · cases r <;> rfl
  rw [h]
  cases hv with
  | refl => rfl
  | zero s t =>
    rcases u' with r | _ | _ | r
    · cases r <;> rfl
    · rfl
    · rfl
    · cases r <;> rfl

end UnpackedAlike

/-! ## Numbers -/

namespace Alike

variable {x x' y y' : Float}

@[refl] theorem refl (x : Float) : Alike x x := .inl rfl

theorem abs_eq (h : Alike x y) : x.abs = y.abs := by
  show Float.ofModel (.pack x.toModel.unpack.abs) = Float.ofModel (.pack y.toModel.unpack.abs)
  rw [(alike_iff_unpack.mp h).abs_eq]

theorem isFinite_eq (h : Alike x y) : x.isFinite = y.isFinite :=
  (alike_iff_unpack.mp h).isFinite_eq

theorem isNaN_eq (h : Alike x y) : x.isNaN = y.isNaN :=
  (alike_iff_unpack.mp h).isNaN_eq

theorem div (h : Alike x x') (y : Float) : Alike (x / y) (x' / y) :=
  ((alike_iff_unpack.mp h).div _).alike

variable (hx : Alike x x') (hy : Alike y y')

include hx hy

theorem add : Alike (x + y) (x' + y') :=
  ((alike_iff_unpack.mp hx).add (alike_iff_unpack.mp hy)).alike

theorem sub : Alike (x - y) (x' - y') :=
  ((alike_iff_unpack.mp hx).sub (alike_iff_unpack.mp hy)).alike

theorem mul : Alike (x * y) (x' * y') :=
  ((alike_iff_unpack.mp hx).mul (alike_iff_unpack.mp hy)).alike

theorem lt_iff : x < y ↔ x' < y' := by
  have h := (alike_iff_unpack.mp hx).compare_eq (alike_iff_unpack.mp hy)
  show decide ((x.toModel.unpack.compare y.toModel.unpack == some .lt) = true) = true ↔
    decide ((x'.toModel.unpack.compare y'.toModel.unpack == some .lt) = true) = true
  rw [h]

theorem le_iff : x ≤ y ↔ x' ≤ y' := by
  have h := (alike_iff_unpack.mp hx).compare_eq (alike_iff_unpack.mp hy)
  show decide ((x.toModel.unpack.compare y.toModel.unpack).any Ordering.isLE = true) = true ↔
    decide ((x'.toModel.unpack.compare y'.toModel.unpack).any Ordering.isLE = true) = true
  rw [h]

end Alike

/-- Zeros have no units. -/
theorem units_of_beq_zero {x : Float} (h : (x == 0) = true) : x.isFinite = true ∧ units x = 0 := by
  obtain ⟨s, hu⟩ := beq_zero_iff.mp h
  have hfinite : x.isFinite = true := by
    rw [isFinite_unpack, hu]
    rfl
  refine ⟨hfinite, ?_⟩
  rcases finite_cases hfinite with ⟨hunits, -⟩ | ⟨t, m, e, hm, hu', -⟩
  · exact hunits
  · rw [hu] at hu'
    cases hu'

theorem Alike.units_eq {x y : Float} (h : Alike x y) : units x = units y := by
  rcases h with rfl | ⟨hx, hy⟩
  · rfl
  · rw [(units_of_beq_zero hx).2, (units_of_beq_zero hy).2]

/-- A canonical mantissa and its exponent are known by their units. -/
theorem Canonical.eq_of_units {m n : Nat} {e f : Int} (hm : Canonical m e) (hn : Canonical n f)
    (h : m * 2 ^ (e + 1074).toNat = n * 2 ^ (f + 1074).toNat) : m = n ∧ e = f := by
  rcases lt_trichotomy e f with hlt | rfl | hlt
  · exact absurd h (units_lt_of_exponent hm hn hlt).ne
  · exact ⟨Nat.eq_of_mul_eq_mul_right (Nat.two_pow_pos _) h, rfl⟩
  · exact absurd h (units_lt_of_exponent hn hm hlt).ne'

/-- Finite numbers are alike if they have the same units. -/
theorem alike_iff_units {x y : Float} (hx : x.isFinite = true) (hy : y.isFinite = true) :
    Alike x y ↔ units x = units y := by
  refine ⟨Alike.units_eq, fun h => alike_iff_unpack.mpr ?_⟩
  rcases finite_cases hx with ⟨hx0, s, hu⟩ | ⟨s, m, e, hm, hu, hc, hunits⟩ <;>
    rcases finite_cases hy with ⟨hy0, t, hv⟩ | ⟨t, n, f, hn, hv, hd, hunits'⟩
  · rw [hu, hv]
    exact .zero s t
  · have hpos := Nat.mul_pos hn (Nat.two_pow_pos (f + 1074).toNat)
    rw [hx0, hunits'] at h
    cases t <;> simp only [UnpackedFloat.Sign.apply] at h <;> omega
  · have hpos := Nat.mul_pos hm (Nat.two_pow_pos (e + 1074).toNat)
    rw [hy0, hunits] at h
    cases s <;> simp only [UnpackedFloat.Sign.apply] at h <;> omega
  · have hpos := Nat.mul_pos hm (Nat.two_pow_pos (e + 1074).toNat)
    have hpos' := Nat.mul_pos hn (Nat.two_pow_pos (f + 1074).toNat)
    rw [hunits, hunits'] at h
    obtain ⟨rfl, hsize⟩ : s = t ∧ m * 2 ^ (e + 1074).toNat = n * 2 ^ (f + 1074).toNat := by
      cases s <;> cases t <;> simp only [UnpackedFloat.Sign.apply] at h
      · exact ⟨rfl, by omega⟩
      · omega
      · omega
      · exact ⟨rfl, by omega⟩
    obtain ⟨rfl, rfl⟩ := hc.eq_of_units hd hsize
    rw [hu, hv]
    exact .refl _

/-- Absolute values have no sign that could differ. -/
theorem Alike.eq_of_abs {x y : Float} (hx : x.isFinite = true) (hy : y.isFinite = true)
    (h : Alike x.abs y.abs) : x.abs = y.abs := by
  rcases h with h | ⟨hx0, hy0⟩
  · exact h
  · have hxunits := (units_of_beq_zero hx0).2
    have hyunits := (units_of_beq_zero hy0).2
    rw [(units_abs hx).2] at hxunits
    rw [(units_abs hy).2] at hyunits
    exact ((alike_iff_units hx hy).mpr (by omega)).abs_eq

/-! ## Congruences -/

/-- Numbers that are alike and stay related under arithmetic. -/
structure IsCongruence (R : Float → Float → Prop) : Prop where
  refl : ∀ x, R x x
  alike : ∀ {x y}, R x y → Alike x y
  add : ∀ {x x' y y'}, R x x' → R y y' → R (x + y) (x' + y')
  sub : ∀ {x x' y y'}, R x x' → R y y' → R (x - y) (x' - y')
  mul : ∀ {x x' y y'}, R x x' → R y y' → R (x * y) (x' * y')
  div : ∀ {x x'}, R x x' → ∀ y, R (x / y) (x' / y)

theorem isCongruence_alike : IsCongruence Alike :=
  ⟨.refl, id, .add, .sub, .mul, .div⟩

theorem isCongruence_eq : IsCongruence Eq where
  refl _ := rfl
  alike := .inl
  add := congrArg₂ _
  sub := congrArg₂ _
  mul := congrArg₂ _
  div h y := congrArg (· / y) h

end RangeCalc.Binary64
