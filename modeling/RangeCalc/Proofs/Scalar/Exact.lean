import Mathlib.Data.Rat.Floor
import Mathlib.Data.Rat.Sqrt
import RangeCalc.Scalar

/-!
# Exact rational numbers as scalars

Rational numbers, with one more value for what has no result: a quotient by zero, a number that is not
rational, and every operation on such a value. Sums, differences and products of rational numbers are
exact, so the laws of arithmetic hold for formulas over them.

* `Exact`: the numbers;
* the instance of `Scalar`.
-/

namespace RangeCalc

/-- A rational number, or the result of what has no result. -/
inductive Exact where
  | rational (q : ℚ)
  | undefined
deriving DecidableEq

namespace Exact

/-- An operation on two rational numbers, undefined on anything else. -/
def lift (f : ℚ → ℚ → Exact) : Exact → Exact → Exact
  | rational p, rational q => f p q
  | _, _ => undefined

/-- An operation on a rational number, undefined on anything else. -/
def map (f : ℚ → Exact) : Exact → Exact
  | rational q => f q
  | undefined => undefined

/-- A comparison of two rational numbers, false on anything else. -/
def holds (r : ℚ → ℚ → Prop) : Exact → Exact → Prop
  | rational p, rational q => r p q
  | _, _ => False

instance (r : ℚ → ℚ → Prop) [h : ∀ p q, Decidable (r p q)] (x y : Exact) :
  Decidable (holds r x y) :=
  match x, y with
  | rational p, rational q => h p q
  | undefined, _ => .isFalse id
  | rational _, undefined => .isFalse id

/-- The square root, where it is rational. -/
def squareRoot (q : ℚ) : Exact :=
  if Rat.sqrt q * Rat.sqrt q = q then rational (Rat.sqrt q) else undefined

/-- A power with an integer as its exponent; zero has no negative powers. -/
def power (base exponent : ℚ) : Exact :=
  if exponent.den ≠ 1 ∨ (base = 0 ∧ exponent < 0) then undefined
  else rational (base ^ exponent.num)

/-- The nearest multiple of `10 ^ -digits`, halves away from zero. -/
def roundTo (x digits : ℚ) : Exact :=
  if digits.den ≠ 1 then undefined
  else
    let factor : ℚ := 10 ^ digits.num
    let size : ℚ := ⌊|x| * factor + 1 / 2⌋ / factor
    rational (if x < 0 then -size else size)

/-- A function of formulas where its value is rational; the other functions are undefined. -/
def function : MathFunction → List Exact → Exact
  | .round, [x] => x.map fun q => roundTo q 0
  | .round, [x, digits] => lift roundTo x digits
  | .abs, [x] => x.map fun q => rational |q|
  | .sqrt, [x] => x.map squareRoot
  | .floor, [x] => x.map fun q => rational ⌊q⌋
  | .ceil, [x] => x.map fun q => rational ⌈q⌉
  | .min, x :: rest => rest.foldl (lift fun p q => rational (min p q)) x
  | .max, x :: rest => rest.foldl (lift fun p q => rational (max p q)) x
  | _, _ => undefined

/-- The sum of some numbers, if all of them are rational. -/
def sum? : List Exact → Option Exact
  | [] => some (rational 0)
  | rational q :: rest => (sum? rest).map (lift (fun p r => rational (p + r)) (rational q))
  | undefined :: _ => none

instance : Scalar Exact where
  add := lift fun p q => rational (p + q)
  sub := lift fun p q => rational (p - q)
  mul := lift fun p q => rational (p * q)
  div := lift fun p q => if q = 0 then undefined else rational (p / q)
  neg := map fun q => rational (-q)
  lt := holds (· < ·)
  le := holds (· ≤ ·)
  decidableLT := fun _ _ => inferInstanceAs (Decidable (holds _ _ _))
  decidableLE := fun _ _ => inferInstanceAs (Decidable (holds _ _ _))
  ofInt n := rational n
  floor
    | rational q => ⌊q⌋
    | undefined => 0
  ceil
    | rational q => ⌈q⌉
    | undefined => 0
  abs := map fun q => rational |q|
  power? x y := .ok (lift power x y)
  constant _ := undefined
  call? f xs := .ok (function f xs)
  isFinite x := x != undefined
  isUndefined x := x == undefined
  undefined := undefined
  sum? := sum?

@[simp]
theorem add_rational (p q : ℚ) : rational p + rational q = rational (p + q) := rfl

@[simp]
theorem sub_rational (p q : ℚ) : rational p - rational q = rational (p - q) := rfl

@[simp]
theorem mul_rational (p q : ℚ) : rational p * rational q = rational (p * q) := rfl

@[simp]
theorem neg_rational (q : ℚ) : -rational q = rational (-q) := rfl

@[simp]
theorem rational_lt_rational {p q : ℚ} : rational p < rational q ↔ p < q := Iff.rfl

@[simp]
theorem rational_le_rational {p q : ℚ} : rational p ≤ rational q ↔ p ≤ q := Iff.rfl

@[simp]
theorem isFinite_rational (q : ℚ) : Scalar.isFinite (rational q) = true := rfl

@[simp]
theorem isUndefined_rational (q : ℚ) : Scalar.isUndefined (rational q) = false := rfl

theorem sum?_rational (qs : List ℚ) : sum? (qs.map rational) = some (rational qs.sum) := by
  induction qs with
  | nil => rfl
  | cons q qs ih => rw [List.map_cons, sum?, ih, List.sum_cons]; rfl

/-! ## Least and greatest -/

@[simp]
theorem lesser_rational (p q : ℚ) : Scalar.lesser (rational p) (rational q) = rational (min p q) := by
  simp only [Scalar.lesser, rational_lt_rational, min_def]
  split <;> split <;> first | rfl | (congr 1; linarith)

@[simp]
theorem greater_rational (p q : ℚ) : Scalar.greater (rational p) (rational q) = rational (max p q) := by
  simp only [Scalar.greater, rational_lt_rational, max_def]
  split <;> split <;> first | rfl | (congr 1; linarith)

theorem least_rational (q : ℚ) (qs : List ℚ) :
    Scalar.least (rational q) (qs.map rational) = rational (qs.foldl min q) := by
  induction qs generalizing q with
  | nil => rfl
  | cons p qs ih => simpa [Scalar.least] using ih (min q p)

theorem greatest_rational (q : ℚ) (qs : List ℚ) :
    Scalar.greatest (rational q) (qs.map rational) = rational (qs.foldl max q) := by
  induction qs generalizing q with
  | nil => rfl
  | cons p qs ih => simpa [Scalar.greatest] using ih (max q p)

end Exact

end RangeCalc
