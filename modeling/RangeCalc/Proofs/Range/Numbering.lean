import Mathlib.Data.List.OfFn
import RangeCalc.Proofs.Range.Corner

/-!
# The numbers of corners

Corner `i` takes the greatest bound of range `j` exactly if bit `j` of `i` is set. A number below `2 ^ n` is
known by its first `n` bits, and every choice of bits is that of such a number (`existsUnique_number`), so
the corners by number are all choices between the bounds of `n` ranges, each of them once.

* `chosenPoint`: the point that a choice gives;
* `chosenPoint_eq_chosenPoint_iff`: when two choices give the same point, which they do only where bounds agree;
* `corners_enumerate_choices`: the list of all corners.
-/

namespace RangeCalc

variable {α : Type}

/-! ## Choices as numbers -/

/-- Two numbers below `2 ^ n` with the same first `n` bits are the same. -/
theorem eq_of_testBit_eq_of_lt {n i k : Nat} (hi : i < 2 ^ n) (hk : k < 2 ^ n)
    (h : ∀ j < n, i.testBit j = k.testBit j) : i = k := by
  refine Nat.eq_of_testBit_eq fun j => ?_
  by_cases hj : j < n
  · exact h j hj
  · have hpow : 2 ^ n ≤ 2 ^ j := Nat.pow_le_pow_right (by decide) (not_lt.mp hj)
    rw [Nat.testBit_lt_two_pow (hi.trans_le hpow), Nat.testBit_lt_two_pow (hk.trans_le hpow)]

/-- Every choice of `n` bits is that of exactly one number below `2 ^ n`. -/
theorem existsUnique_number {n : Nat} (choose : Fin n → Bool) :
    ∃! i, i < 2 ^ n ∧ ∀ j : Fin n, i.testBit j = choose j := by
  refine ⟨Nat.ofBits choose, ⟨Nat.ofBits_lt_two_pow choose, fun j => Nat.testBit_ofBits_lt choose j j.isLt⟩, ?_⟩
  rintro k ⟨hk, hbits⟩
  refine eq_of_testBit_eq_of_lt hk (Nat.ofBits_lt_two_pow choose) fun j hj => ?_
  rw [hbits ⟨j, hj⟩, Nat.testBit_ofBits_lt choose j hj]

/-! ## Points of choices -/

/-- The point that takes for each range the bound that is chosen for it, in the order of the ranges. -/
def chosenPoint (ranges : List (RangeVar α)) (choose : Fin ranges.length → Bool) : Assignment α :=
  List.ofFn fun j =>
    (ranges[j].name, if choose j then ranges[j].interval.max else ranges[j].interval.min)

section

variable {ranges : List (RangeVar α)}

/-- A choice gives a value to each variable and to no other. -/
theorem map_fst_chosenPoint (choose : Fin ranges.length → Bool) :
    (chosenPoint ranges choose).map Prod.fst = ranges.map (·.name) :=
  List.ext_getElem (by simp [chosenPoint]) fun j hj hj' => by simp [chosenPoint]

/-- Two choices give the same point where they differ only for ranges whose bounds agree. -/
theorem chosenPoint_eq_chosenPoint_iff {choose choose' : Fin ranges.length → Bool} :
    chosenPoint ranges choose = chosenPoint ranges choose' ↔
      ∀ j, choose j = choose' j ∨ ranges[j].interval.min = ranges[j].interval.max := by
  rw [chosenPoint, chosenPoint, List.ofFn_inj, funext_iff]
  refine forall_congr' fun j => ?_
  rw [Prod.mk.injEq, and_iff_right rfl]
  cases choose j <;> cases choose' j <;> simp [eq_comm]

variable (hn : (ranges.map (·.name)).Nodup)
include hn

theorem boundsAt_eq_chosenPoint (choose : Nat → Bool) :
    boundsAt choose ranges = chosenPoint ranges fun j => choose j := by
  rw [boundsAt_eq_mapIdx choose hn]
  exact List.ext_getElem (by simp [chosenPoint]) fun j hj hj' => by simp [chosenPoint]

/-! ## Corners -/

/-- The corner with a number makes the choice that the bits of the number are. -/
theorem getElem?_corners {i : Nat} (hi : i < 2 ^ ranges.length) :
    (corners ranges)[i]? = some (chosenPoint ranges fun j => i.testBit j) := by
  rw [corners, Nat.one_shiftLeft, List.getElem?_map, List.getElem?_range hi, Option.map_some, corner,
    boundsAt_eq_chosenPoint hn]

/-- The first corner has all least bounds. -/
theorem head?_corners : (corners ranges).head? = some (chosenPoint ranges fun _ => false) := by
  rw [List.head?_eq_getElem?, getElem?_corners hn (Nat.two_pow_pos _)]
  simp only [Nat.zero_testBit]

/-- The last corner has all greatest bounds. -/
theorem getLast?_corners : (corners ranges).getLast? = some (chosenPoint ranges fun _ => true) := by
  have hpos := Nat.two_pow_pos ranges.length
  rw [List.getLast?_eq_getElem?, length_corners, getElem?_corners hn (by omega)]
  simp only [Nat.testBit_two_pow_sub_one, Fin.is_lt, decide_true]

/-- The corners of ranges with different names, by number. Each gives values to exactly the variables of the
ranges, and each choice between their bounds is that of exactly one number, whose bits are the choice. Two
numbers give the same point only if they differ in no range with two different bounds. The first and the
last corner are the two extreme points. -/
theorem corners_enumerate_choices :
    (corners ranges).length = 2 ^ ranges.length ∧
      (∀ a ∈ corners ranges, a.map Prod.fst = ranges.map (·.name)) ∧
      (∀ choose : Fin ranges.length → Bool, ∃! i, i < 2 ^ ranges.length ∧
        (∀ j : Fin ranges.length, i.testBit j = choose j) ∧
        (corners ranges)[i]? = some (chosenPoint ranges choose)) ∧
      (∀ i < 2 ^ ranges.length, ∀ k < 2 ^ ranges.length,
        (corners ranges)[i]? = (corners ranges)[k]? ↔
          ∀ j : Fin ranges.length, i.testBit j = k.testBit j ∨ ranges[j].interval.min = ranges[j].interval.max) ∧
      (corners ranges).head? = some (chosenPoint ranges fun _ => false) ∧
      (corners ranges).getLast? = some (chosenPoint ranges fun _ => true) ∧
      extremes ranges = [chosenPoint ranges fun _ => false, chosenPoint ranges fun _ => true] := by
  refine ⟨length_corners ranges, fun a ha => ?_, fun choose => ?_, fun i hi k hk => ?_, head?_corners hn,
    getLast?_corners hn, ?_⟩
  · obtain ⟨choose, rfl⟩ := mem_corners_iff.mp ha
    rw [boundsAt_eq_chosenPoint hn, map_fst_chosenPoint]
  · obtain ⟨i, ⟨hi, hbits⟩, hunique⟩ := existsUnique_number choose
    have hpoint := getElem?_corners hn hi
    simp only [hbits] at hpoint
    exact ⟨i, ⟨hi, hbits, hpoint⟩, fun k hk => hunique k ⟨hk.1, hk.2.1⟩⟩
  · rw [getElem?_corners hn hi, getElem?_corners hn hk, Option.some_inj, chosenPoint_eq_chosenPoint_iff]
  · rw [extremes, boundsAt_eq_chosenPoint hn, boundsAt_eq_chosenPoint hn]

end

/-- Three ranges, of which the last has only one value. -/
theorem threeRanges_corners :
    let ranges : List (RangeVar Int) := [⟨"a", ⟨1, 2⟩⟩, ⟨"b", ⟨-3, 3⟩⟩, ⟨"c", ⟨5, 5⟩⟩]
    (ranges.map (·.name)).Nodup ∧ (corners ranges).length = 8 ∧
      (∃! i, i < 8 ∧ (∀ j : Fin 3, i.testBit j = [false, true, true][j]) ∧
        (corners ranges)[i]? = some [("a", 1), ("b", 3), ("c", 5)]) ∧
      (corners ranges)[6]? = (corners ranges)[2]? ∧ (corners ranges)[6]? ≠ (corners ranges)[7]? ∧
      extremes ranges = [[("a", 1), ("b", -3), ("c", 5)], [("a", 2), ("b", 3), ("c", 5)]] := by
  intro ranges
  have hn : (ranges.map (·.name)).Nodup := by decide
  obtain ⟨hlength, -, hchoice, hsame, -, -, hextremes⟩ := corners_enumerate_choices hn
  refine ⟨hn, hlength, hchoice fun j => [false, true, true][j], (hsame 6 (by decide) 2 (by decide)).mpr (by decide),
    fun h => ?_, hextremes⟩
  exact absurd ((hsame 6 (by decide) 7 (by decide)).mp h) (by decide)

end RangeCalc
