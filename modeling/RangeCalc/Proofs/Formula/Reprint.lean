import RangeCalc.Formula.Eval
import RangeCalc.Proofs.Formula.Printed
import RangeCalc.Scalar.Binary64

/-!
# Compiling a printed formula

The text of a formula is a formula again. It has the same text and the same values unless some power has a
base with a sign: the text shows no parentheses around such a base, and the sign is read as one of the power.

* `Formula.hasSignedBase`: whether some power has such a base;
* `Formula.SameProgram`: the same text and the same values;
* `compile_text`: what the text of a formula is read as.
-/

namespace RangeCalc

namespace Formula

variable {α : Type}

def isSigned : Formula α → Bool
  | signed _ _ => true
  | _ => false

mutual

/-- Whether the base of some power has a sign. -/
def hasSignedBase : Formula α → Bool
  | number _ => false
  | constant _ => false
  | var _ => false
  | signed _ operand => operand.hasSignedBase
  | binary op lhs rhs => (op == .pow && lhs.isSigned) || lhs.hasSignedBase || rhs.hasSignedBase
  | call _ args => anySignedBase args
  | uniform low high => low.hasSignedBase || high.hasSignedBase
  | sample range => range.hasSignedBase

/-- Whether the base of some power in some formulas has a sign. -/
def anySignedBase : List (Formula α) → Bool
  | [] => false
  | f :: fs => f.hasSignedBase || anySignedBase fs

end

end Formula

/-! ## The names and calls of a printed formula -/

theorem nameFormula_constant (c : Constant) : nameFormula c.name.toList = .constant c := by
  have hname : Constant.ofName? (String.ofList c.name.toList) = some c := by cases c <;> decide +kernel
  rw [nameFormula, hname]
  rfl

theorem Function.mem_all (f : Function) : f ∈ all := by
  cases f with
  | math f => cases f <;> decide
  | _ => decide

/-- The printed name of a function is its own. -/
theorem Function.ofName?_name (f : Function) : ofName? (String.ofList f.name.toList) = some f := by
  have hname : ∀ f ∈ all, f.name.toLower = f.name := by decide +kernel
  rw [String.ofList_toList, ofName?_eq_some_iff]
  exact ⟨f.mem_all, (hname f f.mem_all).symm⟩

theorem callFormula_name (f : Function) (args : List (Formula Float)) :
    callFormula f.name.toList args = f.onFormulas args := by
  rw [callFormula, f.ofName?_name]
  rfl

theorem callAdmitted_name (f : Function) {count : Nat} (h : f.arity.admits count = true) :
    CallAdmitted f.name.toList count :=
  callAdmitted_iff.mpr ⟨f, f.ofName?_name, h⟩

theorem formula_callPhrase (f : Function) (us : List UnaryPhrase) :
    (callPhrase f.name us).formula = f.onFormulas (us.map UnaryPhrase.formula) := by
  rw [← callFormula_name]
  cases us with
  | nil => rfl
  | cons u us =>
    have hargs : ∀ us u, (argumentsPhrase u us).formulas = (u :: us).map UnaryPhrase.formula := by
      intro us
      induction us with
      | nil => exact fun _ => rfl
      | cons v us ih =>
        intro u
        rw [argumentsPhrase, ArgumentsPhrase.formulas, ih]
        rfl
    rw [callPhrase, AtomPhrase.formula, hargs]

theorem callsAdmitted_callPhrase (f : Function) {us : List UnaryPhrase} (h : f.arity.admits us.length = true)
    (hus : ∀ u ∈ us, u.CallsAdmitted) : (callPhrase f.name us).CallsAdmitted := by
  cases us with
  | nil => exact callAdmitted_name f h
  | cons u us =>
    have hargs : ∀ us u, (∀ v ∈ u :: us, v.CallsAdmitted) →
        (argumentsPhrase u us).trees.length = (u :: us).length ∧ (argumentsPhrase u us).CallsAdmitted := by
      intro us
      induction us with
      | nil => exact fun u hu => ⟨rfl, hu u (List.mem_singleton_self u)⟩
      | cons v us ih =>
        intro u hu
        obtain ⟨hu, hus⟩ := List.forall_mem_cons.mp hu
        obtain ⟨hlength, hcalls⟩ := ih v hus
        exact ⟨congrArg (· + 1) hlength, hu, hcalls⟩
    obtain ⟨hlength, hcalls⟩ := hargs us u hus
    exact ⟨by rw [hlength]; exact callAdmitted_name f h, hcalls⟩

theorem callsAdmitted_raise : ∀ u e : UnaryPhrase, u.CallsAdmitted → e.CallsAdmitted →
    (u.raise e).CallsAdmitted
  | .signed _ operand, e, hu, he => callsAdmitted_raise operand e hu he
  | .power (.atom _), _, hu, he => ⟨hu, he⟩
  | .power (.power _ _ last), e, hu, he => ⟨hu.1, callsAdmitted_raise last e hu.2 he⟩

theorem BinaryOp.callsAdmitted_phrase (op : BinaryOp) {u v : UnaryPhrase} (hu : u.CallsAdmitted)
    (hv : v.CallsAdmitted) : (op.phrase u v).CallsAdmitted := by
  cases op with
  | pow => exact callsAdmitted_raise u v hu hv
  | _ => exact ⟨hu, hv⟩

namespace Formula

theorem length_phrases (fs : List (Formula Float)) : (phrases fs).length = fs.length := by
  induction fs with
  | nil => rfl
  | cons f fs ih => exact congrArg (· + 1) ih

mutual

theorem callsAdmitted_phrase : ∀ f : Formula Float, f.IsCompiled → f.phrase.CallsAdmitted
  | number x, _ => by
    rw [phrase, numberPhrase]
    split <;> trivial
  | constant _, _ => trivial
  | var _, _ => trivial
  | signed _ operand, h => operand.callsAdmitted_phrase h
  | binary op lhs rhs, h =>
    op.callsAdmitted_phrase (lhs.callsAdmitted_phrase h.1) (rhs.callsAdmitted_phrase h.2)
  | call f args, h =>
    callsAdmitted_callPhrase (.math f) (by rw [length_phrases]; exact h.1) (callsAdmitted_phrases args h.2)
  | uniform low high, h =>
    callsAdmitted_callPhrase .uniform rfl (List.forall_mem_cons.mpr ⟨low.callsAdmitted_phrase h.1,
      List.forall_mem_singleton.mpr (high.callsAdmitted_phrase h.2)⟩)
  | sample range, h =>
    callsAdmitted_callPhrase .sample rfl (List.forall_mem_singleton.mpr (range.callsAdmitted_phrase h))

theorem callsAdmitted_phrases : ∀ fs : List (Formula Float), AllCompiled fs →
    ∀ u ∈ phrases fs, u.CallsAdmitted
  | [], _ => List.forall_mem_nil _
  | f :: fs, h => List.forall_mem_cons.mpr ⟨f.callsAdmitted_phrase h.1, callsAdmitted_phrases fs h.2⟩

end

/-- The text of a compiled formula is a formula. -/
theorem compile_text_eq {f : Formula Float} (h : f.IsCompiled) : compile f.text = .ok f.phrase.formula :=
  compile_eq_ok_iff.mpr ⟨.product (.unary f.phrase), f.splits_text h, f.callsAdmitted_phrase h, rfl⟩

/-! ## Without signed bases -/

/-- A base without a sign is printed as an atom. -/
theorem exists_atom_of_not_isSigned : ∀ f : Formula Float, f.isSigned = false →
    ∃ a, f.phrase = .power (.atom a)
  | number _, _ => ⟨_, rfl⟩
  | constant _, _ => ⟨_, rfl⟩
  | var _, _ => ⟨_, rfl⟩
  | binary _ _ _, _ => ⟨_, rfl⟩
  | call _ _, _ => ⟨_, rfl⟩
  | uniform _ _, _ => ⟨_, rfl⟩
  | sample _, _ => ⟨_, rfl⟩

theorem formula_phrase_binary {op : BinaryOp} {lhs : Formula Float} (rhs : Formula Float)
    (h : (op == .pow && lhs.isSigned) = false) :
    (binary op lhs rhs).phrase.formula = .binary op lhs.phrase.formula rhs.phrase.formula := by
  cases op with
  | pow =>
    obtain ⟨a, ha⟩ := lhs.exists_atom_of_not_isSigned h
    rw [phrase, ha]
    rfl
  | _ => rfl

theorem formula_phrase_call (f : MathFunction) (args : List (Formula Float)) :
    (call f args).phrase.formula = .call f ((phrases args).map UnaryPhrase.formula) :=
  formula_callPhrase (.math f) _

theorem formula_phrase_uniform (low high : Formula Float) :
    (uniform low high).phrase.formula = .uniform low.phrase.formula high.phrase.formula :=
  formula_callPhrase .uniform _

theorem formula_phrase_sample (range : Formula Float) :
    (sample range).phrase.formula = .sample range.phrase.formula :=
  formula_callPhrase .sample _

section

variable [MathLibrary]

/-- Two formulas with the same text and, whatever is drawn and the variables stand for, the same values. -/
structure SameProgram (f g : Formula Float) : Prop where
  text : f.text = g.text
  eval : ∀ {σ : Type} (source : Source Float σ) (env : String → Option Float),
    f.eval source env = g.eval source env

/-- The same texts and the same values, one by one. -/
structure SamePrograms (fs gs : List (Formula Float)) : Prop where
  texts : texts fs = texts gs
  operands : ∀ {σ : Type} (source : Source Float σ) (env : String → Option Float),
    operands source env fs = operands source env gs

open Binary64 in
theorem sameProgram_number {x : Float} (h : Unsigned x) :
    SameProgram (numberPhrase x).formula (number x) := by
  rw [numberPhrase]
  split
  next hx =>
    rw [AtomPhrase.formula, (literalValue_numberText h hx).2]
    exact ⟨rfl, fun _ _ => rfl⟩
  next hx =>
    rw [h.eq_infinity (Bool.of_not_eq_true hx)]
    have hname : (AtomPhrase.name (numberText infinity).toList).formula = .constant .infinity := by
      rw [numberText_infinity]
      exact nameFormula_constant .infinity
    rw [hname]
    exact ⟨numberText_infinity.symm, fun _ _ => rfl⟩

mutual

/-- Without signed bases the text of a formula is read as the same program. -/
theorem sameProgram_phrase : ∀ f : Formula Float, f.IsCompiled → f.hasSignedBase = false →
    SameProgram f.phrase.formula f
  | number x, h, _ => sameProgram_number h
  | constant c, _, _ => by
    have hname : (constant c).phrase.formula = .constant c := nameFormula_constant c
    rw [hname]
    exact ⟨rfl, fun _ _ => rfl⟩
  | var name, h, _ => by
    have hname : (var name).phrase.formula = .var name := by
      show nameFormula name.toList = _
      rw [nameFormula, String.ofList_toList, h.2]
      rfl
    rw [hname]
    exact ⟨rfl, fun _ _ => rfl⟩
  | signed sign operand, h, hbase => by
    have ih := operand.sameProgram_phrase h hbase
    show SameProgram (.signed sign operand.phrase.formula) _
    exact ⟨by rw [text, text, ih.text], fun source env => by rw [eval, eval, ih.eval]⟩
  | binary op lhs rhs, h, hbase => by
    rw [hasSignedBase, Bool.or_eq_false_iff, Bool.or_eq_false_iff] at hbase
    obtain ⟨⟨hsign, hl⟩, hr⟩ := hbase
    have ihl := lhs.sameProgram_phrase h.1 hl
    have ihr := rhs.sameProgram_phrase h.2 hr
    rw [formula_phrase_binary rhs hsign]
    exact ⟨by rw [text, text, ihl.text, ihr.text], fun source env => by rw [eval, eval, ihl.eval, ihr.eval]⟩
  | call f args, h, hbase => by
    have ih := samePrograms_phrases args h.2 hbase
    rw [formula_phrase_call]
    exact ⟨by rw [text, text, ih.texts], fun source env => by rw [eval, eval, ih.operands]⟩
  | uniform low high, h, hbase => by
    rw [hasSignedBase, Bool.or_eq_false_iff] at hbase
    have ihl := low.sameProgram_phrase h.1 hbase.1
    have ihr := high.sameProgram_phrase h.2 hbase.2
    rw [formula_phrase_uniform]
    exact ⟨by rw [text, text, ihl.text, ihr.text], fun source env => by rw [eval, eval, ihl.eval, ihr.eval]⟩
  | sample range, h, hbase => by
    have ih := range.sameProgram_phrase h hbase
    rw [formula_phrase_sample]
    exact ⟨by rw [text, text, ih.text], fun source env => by rw [eval, eval, ih.eval]⟩

theorem samePrograms_phrases : ∀ fs : List (Formula Float), AllCompiled fs → anySignedBase fs = false →
    SamePrograms ((phrases fs).map UnaryPhrase.formula) fs
  | [], _, _ => ⟨rfl, fun _ _ => rfl⟩
  | f :: fs, h, hbase => by
    rw [anySignedBase, Bool.or_eq_false_iff] at hbase
    have ih := f.sameProgram_phrase h.1 hbase.1
    have ihs := samePrograms_phrases fs h.2 hbase.2
    rw [phrases, List.map_cons]
    exact ⟨by rw [texts, texts, ih.text, ihs.texts],
      fun source env => by rw [operands, operands, ih.eval, ihs.operands]⟩

end

end

/-! ## With a signed base

A power with a signed base is read with the sign around it, and that is printed differently. -/

theorem argumentsPhrase_injective : ∀ {us vs : List UnaryPhrase} {u v : UnaryPhrase},
    argumentsPhrase u us = argumentsPhrase v vs → u :: us = v :: vs
  | [], [], _, _, h => by
    cases h
    rfl
  | [], _ :: _, _, _, h => by cases h
  | _ :: _, [], _, _, h => by cases h
  | _ :: _, _ :: _, _, _, h => by
    rw [argumentsPhrase, argumentsPhrase] at h
    injection h with hu h
    cases hu
    rw [argumentsPhrase_injective h]

theorem callPhrase_injective {name : String} {us vs : List UnaryPhrase}
    (h : callPhrase name us = callPhrase name vs) : us = vs := by
  cases us with
  | nil =>
    cases vs with
    | nil => rfl
    | cons => cases h
  | cons =>
    cases vs with
    | nil => cases h
    | cons =>
      rw [callPhrase, callPhrase] at h
      injection h with _ h
      exact argumentsPhrase_injective h

theorem eq_of_raise_phrase {f : Formula Float} {a : AtomPhrase} {e e' : UnaryPhrase}
    (h : f.phrase.raise e = .power (.power a .caret e')) : f.phrase = .power (.atom a) ∧ e = e' := by
  cases hsigned : f.isSigned with
  | false =>
    obtain ⟨b, hb⟩ := f.exists_atom_of_not_isSigned hsigned
    rw [hb] at h ⊢
    cases h
    exact ⟨rfl, rfl⟩
  | true =>
    cases f with
    | signed => cases h
    | _ => cases hsigned

/-- A binary operation whose text is read as a formula with the same phrase has no signed base, and the same
holds of its operands. -/
theorem operands_of_phrase_binary {op : BinaryOp} {lhs rhs : Formula Float}
    (h : (binary op lhs rhs).phrase.formula.phrase = (binary op lhs rhs).phrase) :
    (op == .pow && lhs.isSigned) = false ∧ lhs.phrase.formula.phrase = lhs.phrase ∧
      rhs.phrase.formula.phrase = rhs.phrase := by
  cases hsign : op == .pow && lhs.isSigned with
  | true =>
    obtain ⟨hop, hlhs⟩ := Bool.and_eq_true_iff.mp hsign
    obtain rfl := eq_of_beq hop
    cases lhs with
    | signed => cases h
    | _ => cases hlhs
  | false =>
    rw [formula_phrase_binary rhs hsign] at h
    injection h with h
    injection h with h
    injection h with h
    refine ⟨rfl, ?_⟩
    cases op with
    | pow =>
      obtain ⟨a, ha⟩ := lhs.exists_atom_of_not_isSigned hsign
      injection h with h
      injection h with h
      rw [ha] at h ⊢
      exact eq_of_raise_phrase h
    | _ => simpa [BinaryOp.phrase] using h

mutual

theorem not_hasSignedBase_of_phrase : ∀ f : Formula Float, f.phrase.formula.phrase = f.phrase →
    f.hasSignedBase = false
  | number _, _ => rfl
  | constant _, _ => rfl
  | var _, _ => rfl
  | signed sign operand, h => by
    injection h with _ h
    exact operand.not_hasSignedBase_of_phrase h
  | binary op lhs rhs, h => by
    obtain ⟨hsign, hlhs, hrhs⟩ := operands_of_phrase_binary h
    rw [hasSignedBase, hsign, lhs.not_hasSignedBase_of_phrase hlhs, rhs.not_hasSignedBase_of_phrase hrhs]
    rfl
  | call f args, h => by
    rw [formula_phrase_call] at h
    injection h with h
    injection h with h
    exact not_anySignedBase_of_phrases args (callPhrase_injective h)
  | uniform low high, h => by
    rw [formula_phrase_uniform] at h
    injection h with h
    injection h with h
    have hargs := callPhrase_injective h
    injection hargs with hlow hargs
    injection hargs with hhigh
    rw [hasSignedBase, low.not_hasSignedBase_of_phrase hlow, high.not_hasSignedBase_of_phrase hhigh]
    rfl
  | sample range, h => by
    rw [formula_phrase_sample] at h
    injection h with h
    injection h with h
    have hargs := callPhrase_injective h
    injection hargs with hrange
    exact range.not_hasSignedBase_of_phrase hrange

theorem not_anySignedBase_of_phrases : ∀ fs : List (Formula Float),
    phrases ((phrases fs).map UnaryPhrase.formula) = phrases fs → anySignedBase fs = false
  | [], _ => rfl
  | f :: fs, h => by
    injection h with hf hfs
    rw [anySignedBase, f.not_hasSignedBase_of_phrase hf, not_anySignedBase_of_phrases fs hfs]
    rfl

end

end Formula

section

variable [MathLibrary]

/-- The text of a formula that was compiled is a formula again. Unless some power has a base with a sign, it
has the same text and, under every binding of its variables and for every random source, the same value or
fault and the same draws. Otherwise its text is another one. -/
theorem compile_text {text : String} {f : Formula Float} (h : compile text = .ok f) :
    ∃ g, compile f.text = .ok g ∧
      (f.hasSignedBase = false →
        g.text = f.text ∧ ∀ {σ : Type} (source : Source Float σ) (env : String → Option Float),
          g.eval source env = f.eval source env) ∧
      (f.hasSignedBase = true → g.text ≠ f.text) := by
  have hf := isCompiled_of_compile h
  have hg := Formula.compile_text_eq hf
  refine ⟨_, hg, fun hbase => ?_, fun hbase htext => ?_⟩
  · have hsame := Formula.sameProgram_phrase f hf hbase
    exact ⟨hsame.text, hsame.eval⟩
  · -- one text has one phrase, so the formula that is read prints like the first one
    have hsplits := Formula.splits_text _ (isCompiled_of_compile hg)
    rw [htext] at hsplits
    have hphrase : SumPhrase.product (.unary f.phrase.formula.phrase) = .product (.unary f.phrase) :=
      SumPhrase.tokens_injective (hsplits.unique (f.splits_text hf))
    injection hphrase with hphrase
    injection hphrase with hphrase
    rw [f.not_hasSignedBase_of_phrase hphrase] at hbase
    cases hbase

end

/-- Signs in an argument and in an exponent are no signs of a base. -/
theorem absOfMinus_compile_text : ∃ f, compile "abs(-x)^-2" = .ok f ∧ f.text = "(abs(-x) ^ -2.0)" ∧
    f.hasSignedBase = false ∧ ∃ g, compile f.text = .ok g ∧
      (f.hasSignedBase = false →
        g.text = f.text ∧ ∀ {σ : Type} (source : Source Float σ) (env : String → Option Float),
          g.eval source env = f.eval source env) ∧
      (f.hasSignedBase = true → g.text ≠ f.text) := by
  have hprint : (compile "abs(-x)^-2").toOption.map (fun f => (f.text, f.hasSignedBase)) =
      some ("(abs(-x) ^ -2.0)", false) := by decide +kernel
  cases h : compile "abs(-x)^-2" with
  | error => rw [h] at hprint; cases hprint
  | ok f =>
    rw [h] at hprint
    obtain ⟨htext, hbase⟩ := Prod.mk.inj (Option.some.inj hprint)
    exact ⟨f, rfl, htext, hbase, compile_text h⟩

/-- The square of minus one is printed without the parentheses of its base and read as minus a square. -/
theorem squareOfMinusOne_text :
    (compile "(-1)^2").toOption.map (fun f => (f.text, f.toFixed.toOption.map Float.toBits)) =
        some ("(-1.0 ^ 2.0)", some (1.0 : Float).toBits) ∧
      (compile "(-1.0 ^ 2.0)").toOption.map (fun f => (f.text, f.toFixed.toOption.map Float.toBits)) =
        some ("-(1.0 ^ 2.0)", some (-1.0 : Float).toBits) := by
  decide +kernel

end RangeCalc
