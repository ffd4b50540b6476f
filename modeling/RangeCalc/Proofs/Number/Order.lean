import RangeCalc.Proofs.Number.Unpack

/-!
# The order of floating-point numbers

Every number that is not undefined has a key, an integer: its units if it is finite, and for the
infinities the units that a number of the next exponent would have. Numbers compare as their keys do.

* `key`, `overflowKey`: the key of a number, and that of infinity;
* `lt_iff_key`, `le_iff_key`: the order;
* `lt_iff_units`, `le_iff_units`: the order of finite numbers.
-/

namespace RangeCalc.Binary64

open Float.Model Float.Model.UnpackedFloat

/-- The units of `2 ^ 1024`, the first number that is too large. -/
def overflowKey : Nat := twoTo 2098

theorem twoTo_eq (n : Nat) : twoTo n = 2 ^ n := Nat.one_shiftLeft n

/-- An integer that stands for the place of a number in the order. -/
def key (x : Float) : Int :=
  if x.isFinite then units x else (signOf x).apply overflowKey

theorem two_pow_le_twoTo {k n : Nat} (h : k ≤ n) : 2 ^ k ≤ twoTo n := by
  rw [twoTo_eq]
  exact Nat.pow_le_pow_right (by decide) h

theorem twoTo_le_two_pow {k n : Nat} (h : n ≤ k) : twoTo n ≤ 2 ^ k := by
  rw [twoTo_eq]
  exact Nat.pow_le_pow_right (by decide) h

theorem overflowKey_le_two_pow {k : Nat} (h : 2098 ≤ k) : overflowKey ≤ 2 ^ k := twoTo_le_two_pow h

theorem two_pow_le_overflowKey {k : Nat} (h : k ≤ 2098) : 2 ^ k ≤ overflowKey := two_pow_le_twoTo h

theorem two_pow_lt_overflowKey {k : Nat} (h : k < 2098) : 2 ^ k < overflowKey :=
  (Nat.pow_lt_pow_right (by decide) (Nat.lt_succ_self k)).trans_le (two_pow_le_overflowKey h)

theorem overflowKey_pos : 0 < overflowKey :=
  (Nat.two_pow_pos 0).trans_le (two_pow_le_overflowKey (by decide))

theorem key_of_isFinite {x : Float} (h : x.isFinite = true) : key x = units x := if_pos h

/-- The keys that unpacked numbers have. -/
inductive HasKey : UnpackedFloat → Int → Prop where
  | infinity (s : UnpackedFloat.Sign) : HasKey (.infinity s) (s.apply overflowKey)
  | zero (s : UnpackedFloat.Sign) : HasKey (.zero s) 0
  | finite (s : UnpackedFloat.Sign) {m : Nat} {e : Int} (hm : 0 < m) (hc : Canonical m e) (he : e ≤ 971) :
    HasKey (.finite s m e hm) (s.apply (m * 2 ^ (e + 1074).toNat : Nat))

/-! ## Keys of numbers -/

theorem units_eq_apply (x : Float) : units x = (signOf x).apply (magnitude x) := by
  unfold units signOf
  cases isNegative x <;> rfl

theorem natAbs_units (x : Float) : (units x).natAbs = magnitude x := by
  rw [units_eq_apply]
  cases signOf x
  · exact Int.natAbs_neg _
  · rfl

theorem isFinite_unpack (x : Float) : x.isFinite = x.toModel.unpack.isFinite := rfl

theorem isNaN_unpack (x : Float) : x.isNaN = x.toModel.unpack.isNaN := rfl

theorem isInf_unpack (x : Float) : x.isInf = x.toModel.unpack.isInf := rfl

theorem isFinite_of_exponentField {x : Float} (h : exponentField x ≠ 2047) : x.isFinite = true := by
  rw [isFinite_unpack]
  by_cases h0 : exponentField x = 0
  · rcases unpack_least h0 with ⟨-, hu⟩ | ⟨_, hu⟩
    · rw [hu]
      rfl
    · rw [hu]
      rfl
  · rw [unpack_normal h0 h]
    rfl

/-- A number is undefined or has a key. -/
theorem unpack_cases (x : Float) :
    x.toModel.unpack = .notANumber ∨ HasKey x.toModel.unpack (key x) := by
  rcases hfin : x.isFinite with _ | _
  · have htop : exponentField x = 2047 := by
      by_contra htop
      rw [isFinite_of_exponentField htop] at hfin
      exact Bool.noConfusion hfin
    rcases unpack_top htop with hu | hu
    · right
      rw [key, hfin, if_neg Bool.false_ne_true, hu]
      exact .infinity (signOf x)
    · exact .inl hu
  · right
    rw [key_of_isFinite hfin, units_eq_apply]
    rcases unpack_finite hfin with ⟨hzero, hu⟩ | ⟨m, e, hm, hu, hc, he, hmag⟩
    · rw [hu, hzero]
      cases signOf x <;> exact .zero _
    · rw [hu, hmag]
      exact .finite _ hm hc he

theorem hasKey_of_not_isNaN {x : Float} (h : x.isNaN = false) : HasKey x.toModel.unpack (key x) := by
  rcases unpack_cases x with hu | hkey
  · rw [isNaN_unpack, hu] at h
    exact Bool.noConfusion h
  · exact hkey

theorem not_isNaN_of_isFinite {x : Float} (h : x.isFinite = true) : x.isNaN = false := by
  rw [isFinite_unpack] at h
  rw [isNaN_unpack]
  cases hu : x.toModel.unpack <;> rw [hu] at h <;> first | rfl | exact Bool.noConfusion h

theorem not_isInf_of_isFinite {x : Float} (h : x.isFinite = true) : x.isInf = false := by
  rw [isFinite_unpack] at h
  rw [isInf_unpack]
  cases hu : x.toModel.unpack <;> rw [hu] at h <;> first | rfl | exact Bool.noConfusion h

/-- A number that is neither undefined nor infinite is finite. -/
theorem isFinite_of_defined {x : Float} (hdefined : x.isNaN = false) (h : x.isInf = false) :
    x.isFinite = true := by
  rw [isNaN_unpack] at hdefined
  rw [isInf_unpack] at h
  rw [isFinite_unpack]
  cases hu : x.toModel.unpack with
  | notANumber => rw [hu] at hdefined; cases hdefined
  | infinity s => rw [hu] at h; cases h
  | zero s => rfl
  | finite s m e hm => rfl

/-- A number that unpacks to something with a key has that key. -/
theorem HasKey.key_eq {x : Float} {n : Int} (h : HasKey x.toModel.unpack n) : key x = n := by
  rcases unpack_cases x with hu | hkey
  · rw [hu] at h
    cases h
  · generalize x.toModel.unpack = u at h hkey
    generalize key x = n' at hkey
    cases h <;> cases hkey <;> rfl

/-! ## Comparison -/

/-- A canonical mantissa with a smaller exponent has less units. -/
theorem units_lt_of_exponent {m m' : Nat} {e e' : Int} (hc : Canonical m e) (hc' : Canonical m' e')
    (h : e < e') : m * 2 ^ (e + 1074).toNat < m' * 2 ^ (e' + 1074).toNat := by
  have hle := hc.le
  have hfull : 2 ^ 52 ≤ m' := hc'.full.resolve_left (by omega)
  have hexp : 53 + (e + 1074).toNat ≤ 52 + (e' + 1074).toNat := by omega
  calc m * 2 ^ (e + 1074).toNat < 2 ^ 53 * 2 ^ (e + 1074).toNat :=
        Nat.mul_lt_mul_of_pos_right hc.lt (Nat.two_pow_pos _)
    _ = 2 ^ (53 + (e + 1074).toNat) := (Nat.pow_add 2 _ _).symm
    _ ≤ 2 ^ (52 + (e' + 1074).toNat) := Nat.pow_le_pow_right (by decide) hexp
    _ = 2 ^ 52 * 2 ^ (e' + 1074).toNat := Nat.pow_add 2 _ _
    _ ≤ m' * 2 ^ (e' + 1074).toNat := Nat.mul_le_mul_right _ hfull

/-- Canonical mantissas compare by exponent first. -/
theorem compare_units {m m' : Nat} {e e' : Int} (hc : Canonical m e) (hc' : Canonical m' e') :
    (compare e e').then (compare m m') =
      compare (m * 2 ^ (e + 1074).toNat) (m' * 2 ^ (e' + 1074).toNat) := by
  rcases lt_trichotomy e e' with h | rfl | h
  · rw [Int.compare_eq_lt.mpr h, Nat.compare_eq_lt.mpr (units_lt_of_exponent hc hc' h)]
    rfl
  · have hpos : 0 < 2 ^ (e + 1074).toNat := Nat.two_pow_pos _
    rw [Int.compare_eq_eq.mpr rfl]
    show compare m m' = _
    rcases lt_trichotomy m m' with h | rfl | h
    · rw [Nat.compare_eq_lt.mpr h, Nat.compare_eq_lt.mpr (Nat.mul_lt_mul_of_pos_right h hpos)]
    · rw [Nat.compare_eq_eq.mpr rfl, Nat.compare_eq_eq.mpr rfl]
    · rw [Nat.compare_eq_gt.mpr h, Nat.compare_eq_gt.mpr (Nat.mul_lt_mul_of_pos_right h hpos)]
  · rw [Int.compare_eq_gt.mpr h, Nat.compare_eq_gt.mpr (units_lt_of_exponent hc' hc h)]
    rfl

theorem units_lt_overflowKey {m : Nat} {e : Int} (hc : Canonical m e) (he : e ≤ 971) :
    m * 2 ^ (e + 1074).toNat < overflowKey := by
  have hexp : 53 + (e + 1074).toNat ≤ 2098 := by omega
  calc m * 2 ^ (e + 1074).toNat < 2 ^ 53 * 2 ^ (e + 1074).toNat :=
        Nat.mul_lt_mul_of_pos_right hc.lt (Nat.two_pow_pos _)
    _ = 2 ^ (53 + (e + 1074).toNat) := (Nat.pow_add 2 _ _).symm
    _ ≤ overflowKey := two_pow_le_overflowKey hexp

/-- The key of a finite number other than zero is between those of zero and infinity. -/
theorem units_bounds {m : Nat} {e : Int} (hm : 0 < m) (hc : Canonical m e) (he : e ≤ 971) :
    0 < m * 2 ^ (e + 1074).toNat ∧ m * 2 ^ (e + 1074).toNat < overflowKey :=
  ⟨Nat.mul_pos hm (Nat.two_pow_pos _), units_lt_overflowKey hc he⟩

/-- Finite numbers of one sign. -/
theorem compare_apply (s : UnpackedFloat.Sign) {a b : Nat} {o : Ordering} (h : o = compare a b) :
    (match s with | .positive => o | .negative => o.swap) =
      compare (s.apply a) (s.apply b) := by
  subst h
  rcases lt_trichotomy a b with h | rfl | h
  · rw [Nat.compare_eq_lt.mpr h]
    cases s
    · exact (Int.compare_eq_gt.mpr (by simp only [UnpackedFloat.Sign.apply]; omega)).symm
    · exact (Int.compare_eq_lt.mpr (by simp only [UnpackedFloat.Sign.apply]; omega)).symm
  · rw [Nat.compare_eq_eq.mpr rfl, Int.compare_eq_eq.mpr rfl]
    cases s <;> rfl
  · rw [Nat.compare_eq_gt.mpr h]
    cases s
    · exact (Int.compare_eq_lt.mpr (by simp only [UnpackedFloat.Sign.apply]; omega)).symm
    · exact (Int.compare_eq_gt.mpr (by simp only [UnpackedFloat.Sign.apply]; omega)).symm

/-- Unpacked numbers compare as their keys do. -/
theorem HasKey.compare_eq {u v : UnpackedFloat} {a b : Int} (hu : HasKey u a) (hv : HasKey v b) :
    u.compare v = some (compare a b) := by
  have htop := overflowKey_pos
  have hlt {o : Ordering} {a b : Int} (h : a < b) (ho : o = .lt) : some o = some (compare a b) := by
    rw [ho, Int.compare_eq_lt.mpr h]
  have hgt {o : Ordering} {a b : Int} (h : b < a) (ho : o = .gt) : some o = some (compare a b) := by
    rw [ho, Int.compare_eq_gt.mpr h]
  have heq {o : Ordering} {a : Int} (ho : o = .eq) : some o = some (compare a a) := by
    rw [ho, Int.compare_eq_eq.mpr rfl]
  cases hu with
  | infinity s =>
    cases hv with
    | infinity s' =>
      cases s <;> cases s' <;>
        first
        | exact heq rfl
        | exact hlt (by simp only [UnpackedFloat.Sign.apply]; omega) rfl
        | exact hgt (by simp only [UnpackedFloat.Sign.apply]; omega) rfl
    | zero s' =>
      cases s
      · exact hlt (by simp only [UnpackedFloat.Sign.apply]; omega) rfl
      · exact hgt (by simp only [UnpackedFloat.Sign.apply]; omega) rfl
    | finite s' hm' hc' he' =>
      obtain ⟨-, hbound⟩ := units_bounds hm' hc' he'
      cases s
      · exact hlt (by cases s' <;> simp only [UnpackedFloat.Sign.apply] <;> omega) rfl
      · exact hgt (by cases s' <;> simp only [UnpackedFloat.Sign.apply] <;> omega) rfl
  | zero s =>
    cases hv with
    | infinity s' =>
      cases s'
      · exact hgt (by simp only [UnpackedFloat.Sign.apply]; omega) rfl
      · exact hlt (by simp only [UnpackedFloat.Sign.apply]; omega) rfl
    | zero s' => exact heq rfl
    | finite s' hm' hc' he' =>
      obtain ⟨hpos, -⟩ := units_bounds hm' hc' he'
      cases s'
      · exact hgt (by simp only [UnpackedFloat.Sign.apply]; omega) rfl
      · exact hlt (by simp only [UnpackedFloat.Sign.apply]; omega) rfl
  | finite s hm hc he =>
    obtain ⟨hpos, hbound⟩ := units_bounds hm hc he
    cases hv with
    | infinity s' =>
      cases s'
      · exact hgt (by cases s <;> simp only [UnpackedFloat.Sign.apply] <;> omega) rfl
      · exact hlt (by cases s <;> simp only [UnpackedFloat.Sign.apply] <;> omega) rfl
    | zero s' =>
      cases s
      · exact hlt (by simp only [UnpackedFloat.Sign.apply]; omega) rfl
      · exact hgt (by simp only [UnpackedFloat.Sign.apply]; omega) rfl
    | finite s' hm' hc' he' =>
      obtain ⟨hpos', -⟩ := units_bounds hm' hc' he'
      cases s <;> cases s'
      · exact congrArg some (compare_apply .negative (compare_units hc hc'))
      · exact hlt (by simp only [UnpackedFloat.Sign.apply]; omega) rfl
      · exact hgt (by simp only [UnpackedFloat.Sign.apply]; omega) rfl
      · exact congrArg some (compare_apply .positive (compare_units hc hc'))

variable {x y : Float}

theorem lt_iff_key (hx : x.isNaN = false) (hy : y.isNaN = false) : x < y ↔ key x < key y := by
  have hcompare := (hasKey_of_not_isNaN hx).compare_eq (hasKey_of_not_isNaN hy)
  show decide ((x.toModel.unpack.compare y.toModel.unpack == some .lt) = true) = true ↔ _
  rw [hcompare, decide_eq_true_iff, beq_iff_eq, Option.some.injEq, Int.compare_eq_lt]

theorem le_iff_key (hx : x.isNaN = false) (hy : y.isNaN = false) : x ≤ y ↔ key x ≤ key y := by
  have hcompare := (hasKey_of_not_isNaN hx).compare_eq (hasKey_of_not_isNaN hy)
  show decide ((x.toModel.unpack.compare y.toModel.unpack).any Ordering.isLE = true) = true ↔ _
  rw [hcompare, decide_eq_true_iff, Option.any_some, Int.isLE_compare]

/-- Undefined numbers do not compare. -/
theorem not_isNaN_of_le (h : x ≤ y) : x.isNaN = false ∧ y.isNaN = false := by
  have h' : (x.toModel.unpack.compare y.toModel.unpack).any Ordering.isLE = true := of_decide_eq_true h
  rw [isNaN_unpack, isNaN_unpack]
  generalize x.toModel.unpack = u at h'
  generalize y.toModel.unpack = v at h'
  cases u with
  | notANumber => cases v <;> cases h'
  | _ => cases v <;> first | exact ⟨rfl, rfl⟩ | cases h'

theorem not_isNaN_of_lt (h : x < y) : x.isNaN = false ∧ y.isNaN = false := by
  have h' : (x.toModel.unpack.compare y.toModel.unpack == some .lt) = true := of_decide_eq_true h
  rw [isNaN_unpack, isNaN_unpack]
  generalize x.toModel.unpack = u at h'
  generalize y.toModel.unpack = v at h'
  cases u with
  | notANumber => cases v <;> cases h'
  | _ => cases v <;> first | exact ⟨rfl, rfl⟩ | cases h'

theorem beq_iff_key (hx : x.isNaN = false) (hy : y.isNaN = false) : (x == y) = true ↔ key x = key y := by
  have hcompare := (hasKey_of_not_isNaN hx).compare_eq (hasKey_of_not_isNaN hy)
  show (x.toModel.unpack.compare y.toModel.unpack == some .eq) = true ↔ _
  rw [hcompare, beq_iff_eq, Option.some.injEq, Int.compare_eq_eq]

section Finite

variable (hx : x.isFinite = true) (hy : y.isFinite = true)

include hx hy

theorem lt_iff_units : x < y ↔ units x < units y := by
  rw [lt_iff_key (not_isNaN_of_isFinite hx) (not_isNaN_of_isFinite hy), key_of_isFinite hx,
    key_of_isFinite hy]

theorem le_iff_units : x ≤ y ↔ units x ≤ units y := by
  rw [le_iff_key (not_isNaN_of_isFinite hx) (not_isNaN_of_isFinite hy), key_of_isFinite hx,
    key_of_isFinite hy]

end Finite

/-- The key of a number that is finite is less than that of infinity in size, and only then. -/
theorem isFinite_iff_key (hx : x.isNaN = false) :
    x.isFinite = true ↔ -(overflowKey : Int) < key x ∧ key x < overflowKey := by
  have htop := overflowKey_pos
  have hkey := hasKey_of_not_isNaN hx
  rw [isFinite_unpack]
  generalize x.toModel.unpack = u at hkey
  generalize key x = n at hkey
  cases hkey with
  | infinity s => cases s <;> simp [UnpackedFloat.Sign.apply, UnpackedFloat.isFinite]
  | zero s => exact iff_of_true rfl (by omega)
  | finite s hm hc he =>
    obtain ⟨hpos, hbound⟩ := units_bounds hm hc he
    exact iff_of_true rfl (by cases s <;> simp only [UnpackedFloat.Sign.apply] <;> omega)

/-- What lies between two finite numbers is finite. -/
theorem isFinite_of_between {low high : Float} (hlow : low.isFinite = true) (hhigh : high.isFinite = true)
    (hle : low ≤ x) (hge : x ≤ high) :
    x.isFinite = true ∧ units low ≤ units x ∧ units x ≤ units high := by
  have hx := (not_isNaN_of_le hge).1
  have hlow' := not_isNaN_of_isFinite hlow
  have hhigh' := not_isNaN_of_isFinite hhigh
  rw [le_iff_key hlow' hx] at hle
  rw [le_iff_key hx hhigh'] at hge
  have hbelow := (isFinite_iff_key hlow').mp hlow
  have habove := (isFinite_iff_key hhigh').mp hhigh
  have hfinite : x.isFinite = true := (isFinite_iff_key hx).mpr ⟨by omega, by omega⟩
  rw [key_of_isFinite hfinite] at hle hge
  rw [key_of_isFinite hlow] at hle
  rw [key_of_isFinite hhigh] at hge
  exact ⟨hfinite, hle, hge⟩

end RangeCalc.Binary64
