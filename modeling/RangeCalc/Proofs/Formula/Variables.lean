import RangeCalc.Proofs.Formula.Phrase

/-!
# The variables of a phrase

The variables of a formula stand in its tokens, in the same order, among the names of constants and functions.

* `writtenNames`: the names among tokens;
* `SumPhrase.filter_vars`: those of them that are variables of the formula.
-/

namespace RangeCalc

/-- The names among some tokens, in order. -/
def writtenNames (ts : List Token) : List String :=
  ts.filterMap fun
    | .name text => some (String.ofList text)
    | _ => none

/-- Names of no constants and no functions. -/
def NamesVariables (P : String → Bool) : Prop :=
  ∀ name, P name = true → Constant.ofName? name = none ∧ Function.ofName? name = none

section

variable {P : String → Bool}

@[simp]
theorem writtenNames_append (ts us : List Token) : writtenNames (ts ++ us) = writtenNames ts ++ writtenNames us :=
  List.filterMap_append

theorem writtenNames_cons {t : Token} (ht : ∀ text, t ≠ .name text) (ts : List Token) :
    writtenNames (t :: ts) = writtenNames ts := by
  cases t with
  | name text => exact absurd rfl (ht text)
  | _ => rfl

theorem writtenNames_name (text : List Char) (ts : List Token) :
    writtenNames (.name text :: ts) = String.ofList text :: writtenNames ts := rfl

/-- What stands between two parts is no name. -/
theorem filter_between {f g : List String} {ts us : List Token} {t : Token} (ht : ∀ text, t ≠ .name text)
    (hf : f.filter P = (writtenNames ts).filter P) (hg : g.filter P = (writtenNames us).filter P) :
    (f ++ g).filter P = (writtenNames (ts ++ t :: us)).filter P := by
  rw [List.filter_append, hf, hg, writtenNames_append, writtenNames_cons ht, List.filter_append]

/-- Nor is what stands around a part. -/
theorem writtenNames_parenthesized (ts : List Token) :
    writtenNames (.leftParen :: ts ++ [.rightParen]) = writtenNames ts := by
  rw [writtenNames_append, writtenNames_cons (t := .leftParen) nofun, writtenNames_cons (t := .rightParen) nofun]
  exact List.append_nil _

theorem Function.vars_onFormulas {f : Function} {args : List (Formula Float)}
    (h : f.arity.admits args.length = true) : (f.onFormulas args).vars = Formula.varsOfAll args := by
  cases f with
  | math f => rfl
  | uniform =>
    rcases args with - | ⟨a, - | ⟨b, - | ⟨c, rest⟩⟩⟩ <;> simp [arity, Arity.admits] at h
    simp [onFormulas, Formula.vars, Formula.varsOfAll]
  | sample =>
    rcases args with - | ⟨a, - | ⟨b, rest⟩⟩ <;> simp [arity, Arity.admits] at h
    simp [onFormulas, Formula.vars, Formula.varsOfAll]

theorem filter_vars_nameFormula (hP : NamesVariables P) (text : List Char) :
    (nameFormula text).vars.filter P = [String.ofList text].filter P := by
  rw [nameFormula]
  cases h : Constant.ofName? (String.ofList text) with
  | none => rfl
  | some c =>
    have hnot : ¬ P (String.ofList text) = true := fun hname => by
      rw [(hP _ hname).1] at h
      cases h
    rw [List.filter_cons_of_neg hnot]
    rfl

theorem filter_vars_callFormula (hP : NamesVariables P) {name : List Char} {args : List (Formula Float)}
    {ts : List Token} (hcall : CallAdmitted name args.length)
    (hargs : (Formula.varsOfAll args).filter P = (writtenNames ts).filter P) :
    (callFormula name args).vars.filter P = (writtenNames (.name name :: ts)).filter P := by
  obtain ⟨f, hname, hadmits⟩ := callAdmitted_iff.mp hcall
  have hformula : callFormula name args = f.onFormulas args := by
    rw [callFormula, hname]
    rfl
  have hnot : ¬ P (String.ofList name) = true := fun h => by
    rw [(hP _ h).2] at hname
    cases hname
  rw [hformula, Function.vars_onFormulas hadmits, hargs, writtenNames_name, List.filter_cons_of_neg hnot]

/-! One lemma for each level of the grammar: the variables of a phrase's formula are names among its tokens, in the
same order. -/

mutual

theorem SumPhrase.filter_vars (hP : NamesVariables P) : ∀ s : SumPhrase, s.CallsAdmitted →
    s.formula.vars.filter P = (writtenNames s.tokens).filter P
  | .product p, h => p.filter_vars hP h
  | .sum lhs op rhs, h =>
    filter_between (by cases op <;> exact nofun) (lhs.filter_vars hP h.1) (rhs.filter_vars hP h.2)

theorem ProductPhrase.filter_vars (hP : NamesVariables P) : ∀ p : ProductPhrase, p.CallsAdmitted →
    p.formula.vars.filter P = (writtenNames p.tokens).filter P
  | .unary u, h => u.filter_vars hP h
  | .product lhs op rhs, h =>
    filter_between (by cases op <;> exact nofun) (lhs.filter_vars hP h.1) (rhs.filter_vars hP h.2)

theorem UnaryPhrase.filter_vars (hP : NamesVariables P) : ∀ u : UnaryPhrase, u.CallsAdmitted →
    u.formula.vars.filter P = (writtenNames u.tokens).filter P
  | .power p, h => p.filter_vars hP h
  | .signed sign operand, h => by
    rw [UnaryPhrase.tokens, writtenNames_cons (by cases sign <;> exact nofun)]
    exact operand.filter_vars hP h

theorem PowerPhrase.filter_vars (hP : NamesVariables P) : ∀ p : PowerPhrase, p.CallsAdmitted →
    p.formula.vars.filter P = (writtenNames p.tokens).filter P
  | .atom a, h => a.filter_vars hP h
  | .power base op exponent, h =>
    filter_between (by cases op <;> exact nofun) (base.filter_vars hP h.1) (exponent.filter_vars hP h.2)

theorem AtomPhrase.filter_vars (hP : NamesVariables P) : ∀ a : AtomPhrase, a.CallsAdmitted →
    a.formula.vars.filter P = (writtenNames a.tokens).filter P
  | .number text, _ => rfl
  | .name text, _ => filter_vars_nameFormula hP text
  | .emptyCall name, h => filter_vars_callFormula hP h rfl
  | .call name args, h =>
    filter_vars_callFormula hP (args.length_formulas ▸ h.1)
      ((args.filter_vars hP h.2).trans (congrArg (List.filter P) (writtenNames_parenthesized _).symm))
  | .group inner, h => by
    rw [AtomPhrase.tokens, writtenNames_parenthesized]
    exact inner.filter_vars hP h

theorem ArgumentsPhrase.filter_vars (hP : NamesVariables P) : ∀ args : ArgumentsPhrase, args.CallsAdmitted →
    (Formula.varsOfAll args.formulas).filter P = (writtenNames args.tokens).filter P
  | .last s, h => by
    rw [ArgumentsPhrase.formulas, Formula.varsOfAll, Formula.varsOfAll, List.append_nil]
    exact s.filter_vars hP h
  | .more s rest, h => filter_between nofun (s.filter_vars hP h.1) (rest.filter_vars hP h.2)

end

end

end RangeCalc
