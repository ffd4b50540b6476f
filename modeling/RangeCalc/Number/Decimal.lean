import RangeCalc.Number.Binary64

/-!
# The shortest decimal of a number

A finite number stands for the interval of reals that round to it. Of the decimals in that interval
the shortest one is taken, and of the shortest ones the nearest.

* `Decimal`: digits and a power of ten;
* `readsBack`: the decimals that round to a number;
* `shortest`: the decimal by which a number is written.
-/

namespace RangeCalc

/-- The power `10 ^ n`. -/
def tenTo (n : Nat) : Nat := Nat.pow 10 n

/-- The number `digits × 10 ^ exponent`. -/
structure Decimal where
  digits : Nat
  exponent : Int
deriving DecidableEq

namespace Decimal

open Binary64 (one twoTo)

/-- Compares a decimal with `n` quarters of a unit. -/
def compareQuarters (d : Decimal) (n : Nat) : Ordering :=
  compare (d.digits * tenTo d.exponent.toNat * (4 * one)) (n * tenTo (-d.exponent).toNat)

/-- The step from `n` units to the next number above, as a power of two. -/
def stepLog (n : Nat) : Nat :=
  n.log2 - 52

/-- Whether the step below `n` units is half the step above: at the powers of two, but for the least
normal one. -/
def isNarrowBelow (n : Nat) : Bool :=
  53 ≤ n.log2 && n == twoTo n.log2

/-- Whether a decimal rounds to `n` units, ties to even. -/
def readsBack (n : Nat) (d : Decimal) : Bool :=
  let step := twoTo (stepLog n)
  let below := compareQuarters d (4 * n - if isNarrowBelow n then step else 2 * step)
  let above := compareQuarters d (4 * n + 2 * step)
  let closed := (n / step) % 2 == 0
  (below == .gt || (closed && below == .eq)) && (above == .lt || (closed && above == .eq))

/-- The greatest multiple of `10 ^ exponent` that is not above `n` units. -/
def floorAt (n : Nat) (exponent : Int) : Decimal :=
  ⟨n * tenTo (-exponent).toNat / (one * tenTo exponent.toNat), exponent⟩

/-- The least `k` with `n` units below `10 ^ k`, near the estimate from the binary logarithm. -/
def scale (n : Nat) : Int :=
  let estimate := ((n.log2 : Int) - 1074) * 30103 / 100000
  let candidates := [estimate, estimate + 1, estimate + 2]
  (candidates.find? fun k => compareQuarters ⟨1, k⟩ (4 * n) == .gt).getD (estimate + 3)

/-- Of two neighbours the one that passes; if both do, the lower one unless `order`, the order of their
middle and the number, says that the upper one is nearer. A middle that is met exactly goes to the even
neighbour. -/
def choose (low high : Bool) (order : Ordering) (lower upper : Decimal) : Option Decimal :=
  match low, high with
  | false, false => none
  | true, false => some lower
  | false, true => some upper
  | true, true =>
    match order with
    | .gt => some lower
    | .lt => some upper
    | .eq => if lower.digits % 2 = 0 then some lower else some upper

/-- The multiple of `10 ^ exponent` that reads back as `n` units, if there is one: the nearer of the
two neighbours, and of two equally near ones the even. -/
def shortestAt? (n : Nat) (exponent : Int) : Option Decimal :=
  let lower := floorAt n exponent
  let upper : Decimal := ⟨lower.digits + 1, exponent⟩
  choose (readsBack n lower) (readsBack n upper)
    (compareQuarters ⟨2 * lower.digits + 1, exponent⟩ (8 * n)) lower upper

/-- The exact value of `n` units. -/
def exact (n : Nat) : Decimal :=
  ⟨n * Nat.pow 5 1074, -1074⟩

/-- The shortest decimal that reads back as `n` units; seventeen digits suffice. -/
def shortest (n : Nat) : Decimal :=
  if n = 0 then ⟨0, 0⟩
  else
    let top := scale n
    ((List.range 17).findSome? fun (i : Nat) => shortestAt? n (top - 1 - i)).getD (exact n)

example : shortest (Binary64.magnitude 0.1) = ⟨1, -1⟩ := by decide +kernel

example : shortest (Binary64.magnitude (0.1 + 0.2)) = ⟨30000000000000004, -17⟩ := by decide +kernel

example : shortest 1 = ⟨5, -324⟩ := by decide +kernel

example : shortest (Binary64.magnitude 1e23) = ⟨10, 22⟩ := by decide +kernel

end Decimal

end RangeCalc
