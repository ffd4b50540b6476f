import Mathlib.Data.List.Nodup
import Mathlib.Data.Nat.Bitwise
import Mathlib.Logic.Function.Basic
import RangeCalc.Range.Box

/-!
# Corners of a box

With names that are all different, a point of the box gives each variable the bound chosen for it
(`value?_boundsAt`), and the numbered corners are the points that some choice of bounds gives
(`mem_corners_iff`). Inside the box (`InBox`), what can be kept while one coordinate is moved to a bound
holds at some corner (`exists_corner_of_invariant`).
-/

namespace RangeCalc

variable {α : Type}

namespace Assignment

theorem put_of_not_mem {a : Assignment α} {name : String} (x : α) (h : name ∉ a.map Prod.fst) :
    a.put name x = a ++ [(name, x)] := by
  induction a with
  | nil => rfl
  | cons entry a ih =>
    simp only [List.map_cons, List.mem_cons, not_or] at h
    rw [put, if_neg (Ne.symm h.1), ih h.2, List.cons_append]

theorem foldl_put (a pairs : Assignment α) (h : ((a ++ pairs).map Prod.fst).Nodup) :
    pairs.foldl (fun a (name, x) => a.put name x) a = a ++ pairs := by
  induction pairs generalizing a with
  | nil => simp
  | cons entry pairs ih =>
    have hnew : entry.1 ∉ a.map Prod.fst := by
      simp only [List.map_append, List.map_cons, List.nodup_append, List.mem_cons] at h
      exact fun hm => h.2.2 _ hm _ (.inl rfl) rfl
    have hput : a.put entry.1 entry.2 = a ++ [entry] := put_of_not_mem _ hnew
    rw [List.foldl_cons]
    simp only [hput]
    rw [ih _ (by simpa using h), List.append_assoc, List.singleton_append]

/-- Pairs with different names are the assignment they give. -/
theorem ofPairs_of_nodup {pairs : List (String × α)} (h : (pairs.map Prod.fst).Nodup) :
    ofPairs pairs = pairs :=
  foldl_put [] pairs h

theorem value?_of_mem {a : Assignment α} {name : String} {x : α} (h : (a.map Prod.fst).Nodup)
    (hm : (name, x) ∈ a) : a.value? name = some x := by
  obtain ⟨before, after, rfl⟩ := List.append_of_mem hm
  refine List.lookup_eq_some_iff.mpr ⟨before, after, rfl, fun p hp => ?_⟩
  simp only [List.map_append, List.map_cons, List.nodup_append, List.mem_cons] at h
  exact bne_iff_ne.mpr (Ne.symm (h.2.2 _ (List.mem_map_of_mem hp) _ (.inl rfl)))

end Assignment

theorem map_fst_mapIdx (bound : Nat → RangeVar α → α) (ranges : List (RangeVar α)) :
    (ranges.mapIdx fun j r => (r.name, bound j r)).map Prod.fst = ranges.map (·.name) :=
  List.ext_getElem (by simp) fun j hj hj' => by simp

theorem boundsAt_eq_mapIdx (choose : Nat → Bool) {ranges : List (RangeVar α)}
    (h : (ranges.map (·.name)).Nodup) :
    boundsAt choose ranges =
      ranges.mapIdx fun j r => (r.name, if choose j then r.interval.max else r.interval.min) :=
  Assignment.ofPairs_of_nodup (by rwa [map_fst_mapIdx])

/-- Each variable has the bound that is chosen for it. -/
theorem value?_boundsAt (choose : Nat → Bool) {ranges : List (RangeVar α)}
    (h : (ranges.map (·.name)).Nodup) {j : Nat} (hj : j < ranges.length) :
    (boundsAt choose ranges).value? ranges[j].name =
      some (if choose j then ranges[j].interval.max else ranges[j].interval.min) := by
  rw [boundsAt_eq_mapIdx choose h]
  refine Assignment.value?_of_mem (by rwa [map_fst_mapIdx]) ?_
  exact List.mem_mapIdx.mpr ⟨j, hj, rfl⟩

/-- Only the choices for the ranges that there are matter. -/
theorem boundsAt_congr {choose choose' : Nat → Bool} {ranges : List (RangeVar α)}
    (h : ∀ j < ranges.length, choose j = choose' j) :
    boundsAt choose ranges = boundsAt choose' ranges := by
  unfold boundsAt
  congr 1
  refine List.ext_getElem (by simp) fun j hj hj' => ?_
  simp only [List.getElem_mapIdx, h j (by simpa using hj)]

theorem length_corners (ranges : List (RangeVar α)) : (corners ranges).length = 2 ^ ranges.length := by
  rw [corners, List.length_map, List.length_range, Nat.one_shiftLeft]

/-- The corners are the points that some choice of bounds gives. -/
theorem mem_corners_iff {ranges : List (RangeVar α)} {a : Assignment α} :
    a ∈ corners ranges ↔ ∃ choose, a = boundsAt choose ranges := by
  simp only [corners, List.mem_map, List.mem_range, Nat.one_shiftLeft]
  constructor
  · rintro ⟨i, -, rfl⟩
    exact ⟨i.testBit, rfl⟩
  · rintro ⟨choose, rfl⟩
    refine ⟨Nat.ofBits fun j : Fin ranges.length => choose j, Nat.ofBits_lt_two_pow _, ?_⟩
    exact boundsAt_congr fun j hj => Nat.testBit_ofBits_lt _ j hj

/-- Whether each coordinate of a point is between the bounds of its range. -/
def InBox [LE α] (ranges : List (RangeVar α)) (x : String → α) : Prop :=
  ∀ r ∈ ranges, r.interval.min ≤ x r.name ∧ x r.name ≤ r.interval.max

theorem InBox.update [LE α] {ranges : List (RangeVar α)} (hn : (ranges.map (·.name)).Nodup)
    {x : String → α} (hx : InBox ranges x) {r : RangeVar α} (hr : r ∈ ranges) {e : α}
    (he : r.interval.min ≤ e ∧ e ≤ r.interval.max) : InBox ranges (Function.update x r.name e) := by
  intro r' hr'
  by_cases hname : r'.name = r.name
  · rw [hname, Function.update_self, List.inj_on_of_nodup_map hn hr' hr hname]
    exact he
  · rw [Function.update_of_ne hname]
    exact hx r' hr'

/-- From a point with a property that moving any one coordinate to one of its bounds can keep, a corner
with that property is reached by moving one coordinate after the other. -/
theorem exists_corner_of_invariant {P : (String → α) → Prop} {ranges : List (RangeVar α)}
    (hn : (ranges.map (·.name)).Nodup)
    (hstep : ∀ x, P x → ∀ r ∈ ranges,
      ∃ e, (e = r.interval.min ∨ e = r.interval.max) ∧ P (Function.update x r.name e))
    {x : String → α} (hx : P x) :
    ∃ y, P y ∧ ∀ r ∈ ranges, y r.name = r.interval.min ∨ y r.name = r.interval.max := by
  induction ranges with
  | nil => exact ⟨x, hx, by simp⟩
  | cons r ranges ih =>
    rw [List.map_cons, List.nodup_cons] at hn
    obtain ⟨y, hy, hcorner⟩ := ih hn.2 fun x hx r' hr' => hstep x hx r' (List.mem_cons_of_mem _ hr')
    obtain ⟨e, he, hmoved⟩ := hstep y hy r List.mem_cons_self
    refine ⟨Function.update y r.name e, hmoved, fun r' hr' => ?_⟩
    rcases List.mem_cons.mp hr' with rfl | hr'
    · simpa using he
    · have hne : r'.name ≠ r.name := fun h => hn.1 (h ▸ List.mem_map_of_mem hr')
      rw [Function.update_of_ne hne]
      exact hcorner r' hr'

theorem corners_ne_nil (ranges : List (RangeVar α)) : corners ranges ≠ [] :=
  List.ne_nil_of_mem (mem_corners_iff.mpr ⟨fun _ => false, rfl⟩)

end RangeCalc
