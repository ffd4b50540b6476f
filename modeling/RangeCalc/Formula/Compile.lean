import RangeCalc.Formula.Fault
import RangeCalc.Formula.Function
import RangeCalc.Text.SmallLetter

/-!
# From trees to formulas

Literals get their values, names become constants or variables, and calls are checked against the
functions. Of several faulty calls the one that is complete first is reported.

* `CompileError`: why a text gives no formula;
* `Formula.apply`: a function on formulas;
* `Tree.resolve`: a tree as a formula;
* `compile`: a text as a formula.
-/

namespace RangeCalc

/-- Why a text gives no formula. -/
inductive CompileError where
  | grammar (fault : GrammarFault)
  | unknownFunction (name : String)
  | argumentCount (function : Function) (count : Nat)

def CompileError.message : CompileError → String
  | .grammar fault => fault.message
  | .unknownFunction name => "unknown function " ++ Text.lowerCase name
  | .argumentCount function count =>
    "'" ++ function.name ++ "' expected " ++ function.arity.text ++ " arguments, got " ++
      toString count

/-- The constant with a name; capitals count as small letters. -/
def Constant.ofName? (name : String) : Option Constant :=
  match name.toLower with
  | "pi" => some .pi
  | "e" => some .e
  | "inf" => some .infinity
  | "nan" => some .undefined
  | _ => none

namespace Formula

/-- A function on formulas, if it takes that many. -/
def apply {α : Type} : Function → List (Formula α) → Except CompileError (Formula α)
  | .uniform, [low, high] => .ok (.uniform low high)
  | .sample, [range] => .ok (.sample range)
  | .math f, args =>
    if f.arity.admits args.length then .ok (.call f args)
    else .error (.argumentCount (.math f) args.length)
  | f, args => .error (.argumentCount f args.length)

/-- The function with a name on formulas. -/
def applyNamed {α : Type} (name : String) (args : List (Formula α)) :
    Except CompileError (Formula α) :=
  match Function.ofName? name with
  | some f => apply f args
  | none => .error (.unknownFunction name)

end Formula

namespace Tree

mutual

/-- A tree with its names looked up, operands before what they are operands of. -/
def resolve : Tree → Except CompileError (Formula Float)
  | number text => .ok (.number (literalValue text))
  | name text =>
    let word := String.ofList text
    .ok ((Constant.ofName? word).elim (.var word) .constant)
  | signed sign operand => do
    return .signed sign (← operand.resolve)
  | binary op lhs rhs => do
    let left ← lhs.resolve
    let right ← rhs.resolve
    return .binary op left right
  | call callee args => do
    let resolved ← resolveAll args
    Formula.applyNamed (String.ofList callee) resolved

/-- Some trees with their names looked up, in order. -/
def resolveAll : List Tree → Except CompileError (List (Formula Float))
  | [] => .ok []
  | t :: ts => do
    let first ← t.resolve
    let rest ← resolveAll ts
    return first :: rest

end

end Tree

/-- A text as a formula. A fault of grammar anywhere goes before a faulty call. -/
def compile (text : String) : Except CompileError (Formula Float) :=
  match parse text.toList with
  | .ok tree => tree.resolve
  | .error fault => .error (.grammar fault)

end RangeCalc
