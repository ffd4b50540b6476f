import RangeCalc.Proofs.Number.Literal
import RangeCalc.Shorthand.Numeral

/-!
# Numerals

* `IsNumeral`: digits, and perhaps a point and more digits;
* `readsFront_numeral?`: a numeral is read as far as it goes.
-/

namespace RangeCalc.Shorthand

open Text

inductive IsNumeral : List Char → Prop where
  | whole {w : List Char} (hw : IsDigits w) : IsNumeral w
  | places {w p : List Char} (hw : IsDigits w) (hp : IsDigits p) : IsNumeral (w ++ '.' :: p)

variable {n rest cs : List Char} {c : Char}

/-- A numeral is a literal. -/
theorem IsNumeral.isMantissa (hn : IsNumeral n) : IsMantissa n := by
  cases hn with
  | whole hw => exact .whole hw
  | places hw hp => exact .point hw hp.2

theorem IsNumeral.ne_nil (hn : IsNumeral n) : n ≠ [] :=
  hn.isMantissa.ne_nil

theorem IsNumeral.mem (hn : IsNumeral n) (hc : c ∈ n) : isDigit c = true ∨ c = '.' :=
  hn.isMantissa.mem hc

/-- A numeral starts with a digit. -/
theorem IsNumeral.head (hn : IsNumeral n) : ∃ c tail, n = c :: tail ∧ isDigit c = true := by
  cases hn with
  | whole hw =>
    obtain ⟨c, tail, rfl⟩ := List.exists_cons_of_ne_nil hw.1
    exact ⟨c, tail, rfl, hw.2 c (List.mem_cons_self ..)⟩
  | places hw hp =>
    obtain ⟨c, tail, rfl⟩ := List.exists_cons_of_ne_nil hw.1
    exact ⟨c, _, rfl, hw.2 c (List.mem_cons_self ..)⟩

/-- A numeral goes no further where neither a digit nor a point follows. -/
theorem IsNumeral.front (hn : IsNumeral n)
    (hrest : ∀ x, rest.head? = some x → ¬ (isDigit x = true ∨ x = '.')) :
    Front IsNumeral (n ++ rest) n rest :=
  .of_stop hn fun x hx _ hother hmem => hrest x hx (hother.mem hmem)

theorem IsNumeral.at_front (hn : IsNumeral n) (h : n <+: cs) :
    cs.takeWhile isDigit ≠ [] ∧
      (n <+: cs.takeWhile isDigit ∨
        ∃ places rest, n = cs.takeWhile isDigit ++ '.' :: places ∧ cs.dropWhile isDigit = '.' :: rest ∧
          places <+: rest.takeWhile isDigit ∧ places ≠ []) := by
  cases hn with
  | whole hw =>
    have hpre := prefix_takeWhile hw.2 h
    exact ⟨fun hnil => hw.1 (List.prefix_nil.mp (hnil ▸ hpre)), .inl hpre⟩
  | @places w p hw hp =>
    obtain ⟨rest, rfl⟩ := h
    rw [List.append_assoc, List.cons_append, takeWhile_append_stop hw.2 not_isDigit_point,
      dropWhile_append_stop hw.2 not_isDigit_point]
    exact ⟨hw.1, .inr ⟨p, _, rfl, rfl, prefix_takeWhile hp.2 (List.prefix_append ..), hp.1⟩⟩

/-- A numeral is read as far as it goes. -/
theorem readsFront_numeral? : ReadsFront IsNumeral numeral? := by
  intro cs
  have hcs : cs.takeWhile isDigit ++ cs.dropWhile isDigit = cs := List.takeWhile_append_dropWhile
  simp only [numeral?, List.span_eq_takeWhile_dropWhile]
  split
  · rename_i heq
    have hw := (Prod.mk.inj heq).1
    exact ⟨by simp, fun _ n hn h => (hn.at_front h).1 hw⟩
  · rename_i w rest hne heq
    obtain ⟨rfl, hr⟩ := Prod.mk.inj heq
    rw [hr] at hcs
    split
    · rename_i hp
      have hp := (Prod.mk.inj hp).1
      refine ⟨fun n rest' h => ?_, by simp⟩
      obtain ⟨rfl, rfl⟩ := Prod.mk.inj (Option.some.inj h)
      refine ⟨.whole (isDigits_takeWhile hne), hcs.symm, fun n hn h => ?_⟩
      rcases (hn.at_front h).2 with hpre | ⟨places, rest', -, hr', hpre, hplaces⟩
      · exact hpre.length_le
      · rw [hr, List.cons.injEq] at hr'
        rw [← hr'.2, hp] at hpre
        exact absurd (List.prefix_nil.mp hpre) hplaces
    · rename_i places after hne' hp
      obtain ⟨rfl, rfl⟩ := Prod.mk.inj hp
      refine ⟨fun n rest' h => ?_, by simp⟩
      obtain ⟨rfl, rfl⟩ := Prod.mk.inj (Option.some.inj h)
      refine ⟨.places (isDigits_takeWhile hne) (isDigits_takeWhile hne'), ?_, fun n hn h => ?_⟩
      · rw [List.append_assoc, List.cons_append, List.takeWhile_append_dropWhile]
        exact hcs.symm
      · rcases (hn.at_front h).2 with hpre | ⟨places, rest', rfl, hr', hpre, -⟩
        · have := hpre.length_le
          simp only [List.length_append]
          omega
        · rw [hr, List.cons.injEq] at hr'
          have := hpre.length_le
          simp only [hr'.2, List.length_append, List.length_cons]
          omega
  · rename_i w r hne hr heq
    obtain ⟨rfl, rfl⟩ := Prod.mk.inj heq
    refine ⟨fun n rest' h => ?_, by simp⟩
    obtain ⟨rfl, rfl⟩ := Prod.mk.inj (Option.some.inj h)
    refine ⟨.whole (isDigits_takeWhile hne), hcs.symm, fun n hn h => ?_⟩
    rcases (hn.at_front h).2 with hpre | ⟨places, rest', -, hr', -, -⟩
    · exact hpre.length_le
    · exact absurd hr' (hr _)

end RangeCalc.Shorthand
