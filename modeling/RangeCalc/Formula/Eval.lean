import RangeCalc.Scalar

/-!
# Evaluation

A formula is evaluated from left to right. Draws change the state of a random source, and the state is
kept when the evaluation fails.

* `Source`: a random source, and `Source.recorded`, one that writes down its draws;
* `Formula.eval`: the value of a formula, a number or a range;
* `Formula.toNumber`, `Formula.toFinite`: its value as a number, or as a finite one;
* `Formula.toFixed`: its value without a random source.
-/

namespace RangeCalc

/-- A random source with states `σ`: a number between two numbers, and the next state. -/
structure Source (α σ : Type) where
  draw : α → α → σ → α × σ

namespace Source

variable {α σ : Type}

/-- The source that also keeps the bounds of its draws, the latest first. -/
def recorded (source : Source α σ) : Source α (σ × List (α × α)) where
  draw low high state :=
    let (x, next) := source.draw low high state.1
    (x, next, (low, high) :: state.2)

/-- The source that also counts its draws. -/
def counted (source : Source α σ) : Source α (σ × Nat) where
  draw low high state :=
    let (x, next) := source.draw low high state.1
    (x, next, state.2 + 1)

end Source

/-- What a formula may stand for. -/
inductive Value (α : Type) where
  | number (x : α)
  | range (low high : α)

/-- Why an evaluation fails. -/
inductive EvalError (α : Type) where
  | unboundVariable (name : String)
  /-- A range stands where a number is needed. -/
  | rangeAsOperand (low high : α)
  /-- The whole formula is a range. -/
  | rangeAsResult (low high : α)
  | notFinite (x : α)

/-- A computation that draws and may fail. -/
abbrev Draws (α σ β : Type) := ExceptT (EvalError α) (StateM σ) β

namespace Value

variable {α σ : Type} [Scalar α]

/-- A value as an operand. -/
@[inline] def operand : Value α → Draws α σ α
  | number x => pure x
  | range low high => throw (.rangeAsOperand low high)

/-- A draw from a range: the bound itself if both are equal, undefined if they are not in order. A number
is its own draw. -/
@[inline] def sample (source : Source α σ) : Value α → Draws α σ α
  | number x => pure x
  | range low high =>
    if low < high then fun state =>
      let (x, next) := source.draw low high state
      (.ok x, next)
    else if low ≤ high then pure low
    else pure Scalar.undefined

end Value

namespace BinaryOp

/-- A binary operation on numbers. -/
@[inline] def apply {α : Type} [Scalar α] : BinaryOp → α → α → α
  | add, x, y => x + y
  | sub, x, y => x - y
  | mul, x, y => x * y
  | div, x, y => x / y
  | pow, x, y => Scalar.powerOrInfinity x y

end BinaryOp

/-- A sign on a number. -/
@[inline] def Sign.apply {α : Type} [Scalar α] : Sign → α → α
  | .minus, x => -x
  | .plus, x => x

namespace Formula

variable {α σ : Type} [Scalar α]

mutual

/-- The value of a formula, given the values of variables. -/
@[specialize] def eval (source : Source α σ) (env : String → Option α) :
    Formula α → Draws α σ (Value α)
  | number x => pure (.number x)
  | constant c => pure (.number (Scalar.constant c))
  | var name =>
    match env name with
    | some x => pure (.number x)
    | none => throw (.unboundVariable name)
  | signed sign operand => do
    let x ← (← eval source env operand).operand
    return .number (sign.apply x)
  | binary op lhs rhs => do
    let x ← (← eval source env lhs).operand
    let y ← (← eval source env rhs).operand
    return .number (op.apply x y)
  | call f args => do
    let xs ← operands source env args
    return .number (Scalar.recover (Scalar.call? f xs))
  | uniform low high => do
    let x ← (← eval source env low).operand
    let y ← (← eval source env high).operand
    return .range x y
  | sample range => do
    let x ← (← eval source env range).sample source
    return .number x

/-- The values of some formulas as operands, in order. -/
@[specialize] def operands (source : Source α σ) (env : String → Option α) :
    List (Formula α) → Draws α σ (List α)
  | [] => pure []
  | f :: fs => do
    let x ← (← eval source env f).operand
    let xs ← operands source env fs
    return x :: xs

end

/-- The value of a formula as a number. -/
@[specialize] def toNumber (source : Source α σ) (env : String → Option α) (f : Formula α) :
    Draws α σ α := do
  match ← f.eval source env with
  | .number x => return x
  | .range low high => throw (.rangeAsResult low high)

/-- The value of a formula as a finite number. -/
@[specialize] def toFinite (source : Source α σ) (env : String → Option α) (f : Formula α) :
    Draws α σ α := do
  let x ← f.toNumber source env
  if Scalar.isFinite x then return x else throw (.notFinite x)

/-- The value of a formula without variables and draws. -/
def toFixed (f : Formula α) : Except (EvalError α) α :=
  (f.toNumber ⟨fun low _ state => (low, state)⟩ (fun _ => none) ()).1

end Formula

end RangeCalc
