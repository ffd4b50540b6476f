import RangeCalc.Proofs.Formula.Replace
import RangeCalc.Proofs.Formula.Substitute
import RangeCalc.Proofs.Number.Signed
import RangeCalc.Proofs.Range.Phrase

/-!
# Intervals as operands

The call that is written for a range is one operand of the formula around it.

* `boundFormula`: the formula of a bound, where a negative bound is a number behind a sign;
* `boundPhrase`, `intervalPhrase`: bounds and calls as phrases;
* `splits_samplingCall`: the tokens of a call are those of its phrase;
* `isOperand_intervalPhrase`, `resolve_intervalPhrase`: they are read as an operand that draws from the interval.
-/

namespace RangeCalc

open Text Shorthand Binary64

/-! ## Numbers with a sign -/

namespace Binary64

variable {x : Float} (hx : x.isFinite = true)

include hx

/-- The numbers less than zero have a sign and a size. -/
theorem lt_zero_iff : x < 0 ↔ isNegative x = true ∧ magnitude x ≠ 0 := by
  obtain ⟨hzero, hunits⟩ : (0 : Float).isFinite = true ∧ units 0 = 0 := by decide
  rw [lt_iff_units hx hzero, hunits, units_eq_apply, signOf]
  cases isNegative x with
  | false => exact iff_of_false (by simp [Float.Model.UnpackedFloat.Sign.apply]) (by simp)
  | true =>
    simp [Float.Model.UnpackedFloat.Sign.apply]
    omega

theorem unsigned_abs : Unsigned x.abs where
  defined := not_isNaN_of_isFinite (units_abs hx).1
  sign := by
    have hsign := signOf_abs hx
    rw [signOf] at hsign
    exact Bool.of_not_eq_true fun h => by rw [if_pos h] at hsign; cases hsign

end Binary64

/-- A negative number is written as its size behind a minus. -/
theorem plainChars_eq_abs {x : Float} (hx : x.isFinite = true) :
    plainChars x = if x < 0 then '-' :: plainChars x.abs else plainChars x.abs := by
  have habs : plainChars x.abs = if magnitude x = 0 then ['0'] else (shortestNumeral x).plain := by
    rw [plainChars_of_isFinite (units_abs hx).1, magnitude_abs hx, signed, (unsigned_abs hx).sign, shortestNumeral,
      magnitude_abs hx]
    rfl
  rw [plainChars_of_isFinite hx, habs, signed]
  by_cases hzero : magnitude x = 0
  · rw [if_pos hzero, if_pos hzero, if_neg fun h => ((lt_zero_iff hx).mp h).2 hzero]
  · have hsign : isNegative x = true ↔ x < 0 := by rw [lt_zero_iff hx, and_iff_left hzero]
    simp only [if_neg hzero, hsign]

/-! ## Phrases -/

/-- The formula of a bound. -/
def boundFormula (x : Float) : Formula Float :=
  if x.isNaN then .constant .undefined
  else if x < 0 then .signed .minus (.number x.abs)
  else .number x.abs

/-- A bound as it is written. -/
def boundPhrase (x : Float) : UnaryPhrase :=
  if x.isNaN then .power (.atom (.name Constant.undefined.name.toList))
  else if x < 0 then .signed .minus (.power (.atom (.number (plainChars x.abs))))
  else .power (.atom (.number (plainChars x.abs)))

/-- The call that draws from an interval. -/
def intervalPhrase (i : Interval Float) : AtomPhrase :=
  callPhrase Function.sample.name
    [.power (.atom (callPhrase Function.uniform.name [boundPhrase i.min, boundPhrase i.max]))]

section

variable {x : Float}

/-- A bound is a name, or a number perhaps behind a minus. -/
theorem boundPhrase_cases (x : Float) :
    (∃ name, boundPhrase x = .power (.atom (.name name))) ∨
      (∃ n, boundPhrase x = .signed .minus (.power (.atom (.number n)))) ∨
      ∃ n, boundPhrase x = .power (.atom (.number n)) := by
  rw [boundPhrase]
  split
  · exact .inl ⟨_, rfl⟩
  split
  · exact .inr (.inl ⟨_, rfl⟩)
  · exact .inr (.inr ⟨_, rfl⟩)

theorem callsAdmitted_boundPhrase (x : Float) : (boundPhrase x).CallsAdmitted := by
  obtain ⟨name, h⟩ | ⟨n, h⟩ | ⟨n, h⟩ := boundPhrase_cases x <;> rw [h] <;> trivial

theorem callsAdmitted_intervalPhrase (i : Interval Float) : (intervalPhrase i).CallsAdmitted :=
  callsAdmitted_callPhrase .sample rfl (List.forall_mem_singleton.mpr
    (callsAdmitted_callPhrase .uniform rfl
      (List.forall_mem_cons.mpr ⟨callsAdmitted_boundPhrase _,
        List.forall_mem_singleton.mpr (callsAdmitted_boundPhrase _)⟩)))

theorem formula_boundPhrase (hx : IsBoundValue x) : (boundPhrase x).formula = boundFormula x := by
  rw [boundPhrase, boundFormula]
  rcases hx with hx | hx
  · rw [if_pos hx, if_pos hx]
    exact nameFormula_constant .undefined
  · have hvalue := (literalValue_plainChars (units_abs hx).1 (unsigned_abs hx)).2
    have hnumber : (UnaryPhrase.power (.atom (.number (plainChars x.abs)))).formula = .number x.abs :=
      congrArg Formula.number hvalue
    simp only [not_isNaN_of_isFinite hx, Bool.false_eq_true, if_false]
    split
    · rw [UnaryPhrase.formula, hnumber]
    · exact hnumber

theorem splits_boundChars (hx : IsBoundValue x) : Splits (boundChars x) (boundPhrase x).tokens := by
  rw [boundPhrase]
  rcases hx with hx | hx
  · rw [boundChars, if_pos hx, if_pos hx]
    exact splits_chars (t := .name _) Constant.undefined.isName_name
  · have hnumber : Splits (plainChars x.abs) [.number (plainChars x.abs)] := splits_chars (t := .number _)
      (.mantissa (literalValue_plainChars (units_abs hx).1 (unsigned_abs hx)).1.isMantissa)
    rw [boundChars_of_isFinite hx, plainChars_eq_abs hx]
    simp only [not_isNaN_of_isFinite hx, Bool.false_eq_true, if_false]
    split
    · exact hnumber.cons_symbol (t := .minus) trivial rfl rfl (by decide)
    · exact hnumber

end

/-- The tokens of a call are those of its phrase. -/
theorem splits_samplingCall (token : RangeToken) :
    Splits (samplingCall token) (intervalPhrase token.interval).tokens := by
  obtain ⟨hmin, hmax⟩ := isBoundValue_interval token
  have huniform := splits_call Function.uniform.isName_name
    (.cons (splits_boundChars hmin) (.cons (splits_boundChars hmax) .nil))
  have hsample := splits_call Function.sample.isName_name (.cons huniform .nil)
  simpa [samplingCall_eq, callOpening, intervalPhrase, tokens_callPhrase, UnaryPhrase.tokens, PowerPhrase.tokens,
    Function.name] using hsample

/-- They are read as one operand. -/
theorem isOperand_intervalPhrase (i : Interval Float) :
    IsOperand (intervalPhrase i).tokens (intervalPhrase i).tree := by
  rw [intervalPhrase]
  constructor
  · intro level mayClose stack
    obtain ⟨_, hmin⟩ | ⟨_, hmin⟩ | ⟨_, hmin⟩ := boundPhrase_cases i.min <;>
      obtain ⟨_, hmax⟩ | ⟨_, hmax⟩ | ⟨_, hmax⟩ := boundPhrase_cases i.max <;> rw [hmin, hmax] <;> rfl
  · intro level operand callee stack
    rfl

/-- The tree of a call denotes a draw from its interval. -/
theorem resolve_intervalPhrase {i : Interval Float} (hmin : IsBoundValue i.min) (hmax : IsBoundValue i.max) :
    (intervalPhrase i).tree.resolve = .ok (i.draw boundFormula) := by
  refine (intervalPhrase i).resolve_iff.mpr ⟨callsAdmitted_intervalPhrase i, ?_⟩
  rw [intervalPhrase, formula_callPhrase, List.map_singleton, UnaryPhrase.formula, PowerPhrase.formula,
    formula_callPhrase, List.map_cons, List.map_singleton, formula_boundPhrase hmin, formula_boundPhrase hmax]
  rfl

end RangeCalc
