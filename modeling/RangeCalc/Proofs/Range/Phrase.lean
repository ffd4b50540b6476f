import RangeCalc.Proofs.Formula.Reprint
import RangeCalc.Proofs.Range.Call

/-!
# Calls and percentages as formulas

* `drawPhrase`: the call that draws between two numbers;
* `quotientChars`, `quotientPhrase`: a percentage that has been written out;
* `compile_sum`: the sum of two texts in which nothing runs on.
-/

namespace RangeCalc

open Text Shorthand Binary64

/-- An operand that is an atom. -/
def atomProduct (a : AtomPhrase) : ProductPhrase :=
  .unary (.power (.atom a))

/-- The call that draws between two numbers. -/
def drawPhrase (a b : Float) : AtomPhrase :=
  callPhrase Function.sample.name [.power (.atom (callPhrase Function.uniform.name
    [.power (.atom (.number (plainChars a))), .power (.atom (.number (plainChars b)))]))]

/-- A percentage that has been written out. -/
def quotientChars (n : List Char) : List Char :=
  '(' :: (n ++ "/100)".toList)

def quotientPhrase (n : List Char) : AtomPhrase :=
  .group (.product (.product (atomProduct (.number n)) .slash (.power (.atom (.number ['1', '0', '0'])))))

section

variable {a b : Float} (ha : a.isFinite = true) (hb : b.isFinite = true) (hua : Unsigned a) (hub : Unsigned b)

include ha hb hua hub

theorem splits_drawCall : Splits (drawCall a b) (drawPhrase a b).tokens := by
  have hnumber : ∀ {x : Float}, x.isFinite = true → Unsigned x → Splits (plainChars x) [.number (plainChars x)] :=
    fun hx h => splits_chars (t := .number _) (.mantissa (literalValue_plainChars hx h).1.isMantissa)
  have huniform := splits_call Function.uniform.isName_name (.cons (hnumber ha hua) (.cons (hnumber hb hub) .nil))
  have hsample := splits_call Function.sample.isName_name (.cons huniform .nil)
  simpa [drawCall, callOpening, drawPhrase, tokens_callPhrase, UnaryPhrase.tokens, PowerPhrase.tokens,
    AtomPhrase.tokens, Function.name] using hsample

theorem formula_drawPhrase : (drawPhrase a b).formula = .sample (.uniform (.number a) (.number b)) := by
  have hnumber : ∀ {x : Float}, x.isFinite = true → Unsigned x →
      (UnaryPhrase.power (.atom (.number (plainChars x)))).formula = .number x :=
    fun hx h => congrArg Formula.number (literalValue_plainChars hx h).2
  rw [drawPhrase, formula_callPhrase, List.map_singleton, UnaryPhrase.formula, PowerPhrase.formula,
    formula_callPhrase, List.map_cons, List.map_singleton, hnumber ha hua, hnumber hb hub]
  rfl

end

theorem callsAdmitted_drawPhrase (a b : Float) : (drawPhrase a b).CallsAdmitted :=
  callsAdmitted_callPhrase .sample rfl (List.forall_mem_singleton.mpr
    (callsAdmitted_callPhrase .uniform rfl
      (List.forall_mem_cons.mpr ⟨trivial, List.forall_mem_singleton.mpr trivial⟩)))

variable {n : List Char}

theorem splits_quotient (hn : IsNumeral n) : Splits (quotientChars n) (quotientPhrase n).tokens := by
  have hnumeral : Splits n [.number n] := splits_chars (t := .number n) (.mantissa hn.isMantissa)
  have hhundred : Splits ['1', '0', '0'] [.number ['1', '0', '0']] :=
    splits_chars (t := .number _) (.mantissa (isNumeral_of_isDigit (by decide) (by decide)).isMantissa)
  have hinner := (hnumeral.append cutsApart_of_slash
    (hhundred.cons_symbol (t := .slash) trivial rfl rfl (by decide))).parenthesized
  simpa [quotientChars, quotientPhrase, atomProduct, SumPhrase.tokens, ProductPhrase.tokens, UnaryPhrase.tokens,
    PowerPhrase.tokens, AtomPhrase.tokens, ProductOp.token] using hinner

theorem formula_quotientPhrase (n : List Char) :
    (quotientPhrase n).formula = .binary .div (.number (literalValue n)) (.number 100) := by
  have hhundred : literalValue ['1', '0', '0'] = 100 := by decide
  rw [← hhundred]
  rfl

/-! ## Sums -/

theorem Splits.gap {rest : List Char} {ts : List Token} (h : Splits rest ts) (u : List Char) :
    Splits (gap u ++ rest) ts := by
  rw [Text.gap]
  split
  · exact h
  · exact .blank (by decide) h

/-- The sum of two atoms, of which the first ends with a parenthesis. -/
theorem compile_sum {x y : List Char} {a b : AtomPhrase} (hx : Splits (x ++ [')']) a.tokens)
    (hy : Splits y b.tokens) (ha : a.CallsAdmitted) (hb : b.CallsAdmitted) (u v : List Char) :
    compile (String.ofList (x ++ [')'] ++ (gap u ++ '+' :: (gap v ++ y)))) =
      .ok (.binary .add a.formula b.formula) := by
  have hplus := ((hy.gap v).cons_symbol (t := .plus) (c := '+') trivial rfl rfl (by decide)).gap u
  have hall := hx.append (cutsApart_behind_mark rfl) hplus
  refine compile_eq_ok_iff.mpr ⟨.sum (.product (atomProduct a)) .plus (atomProduct b), ?_, ⟨ha, hb⟩, rfl⟩
  rw [String.toList_ofList]
  exact hall

end RangeCalc
