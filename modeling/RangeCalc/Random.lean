import RangeCalc.Formula.Eval

/-!
# Random sources

A generator is either seeded or follows a given list, over and over.

* `Generator`: the generators, and `Generator.ofSeed`;
* `Generator.source`: a generator as a random source.
-/

namespace RangeCalc

/-- A random generator: the state of a linear congruence modulo `2⁶⁴`, a list of fractions of the range,
or a list of draws. A list comes with the place of the next entry. -/
inductive Generator where
  | congruence (state : UInt64)
  | fractions (list : Array Float) (next : Nat)
  | values (list : Array Float) (next : Nat)

namespace Generator

/-- The generator with a seed, of which the remainder modulo `2⁶⁴` counts. -/
def ofSeed (seed : Int) : Generator :=
  .congruence (UInt64.ofNat (seed % 0x10000000000000000).toNat)

/-- The state after a step of the congruence. -/
def step (state : UInt64) : UInt64 :=
  state * 6364136223846793005 + 1442695040888963407

/-- The upper 53 bits of a state as a fraction below one. -/
def fraction (state : UInt64) : Float :=
  (state >>> 11).toFloat / 9007199254740992

/-- The number at a fraction of the way from one number to another. -/
def between (low high fraction : Float) : Float :=
  low + (high - low) * fraction

/-- The entry of a list at a place that is counted around its end. -/
def entry (list : Array Float) (place : Nat) : Float :=
  list.getD (place % list.size) 0

/-- A draw from a range, and the generator after it. -/
def draw (low high : Float) : Generator → Float × Generator
  | congruence state =>
    let next := step state
    (between low high (fraction next), .congruence next)
  | fractions list next => (between low high (entry list next), .fractions list (next + 1))
  | values list next => (entry list next, .values list (next + 1))

/-- Generators as a random source. -/
def source : Source Float Generator := ⟨draw⟩

end Generator

end RangeCalc
