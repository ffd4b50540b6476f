import RangeCalc.Formula.Basic
import RangeCalc.Formula.Token

/-!
# From tokens to trees

Tokens are read one by one. What has been read so far is a stack of open parentheses, and for each
parenthesis the operators that still wait for an operand. Sums and products group to the left, powers
to the right; a power binds tighter than a sign before it, and its exponent may have signs of its own.

* `Tree`: a formula with names not yet looked up;
* `ParserState.step?`: one more token; it is refused exactly where it cannot follow;
* `ParserState.run`: all tokens, or the first one that is refused;
* `parseTokens?`: the tree of a complete sequence of tokens.
-/

namespace RangeCalc

/-- A formula as it is written: literals and names are texts, and parentheses are gone. -/
inductive Tree where
  | number (text : List Char)
  | name (text : List Char)
  | signed (sign : Sign) (operand : Tree)
  | binary (op : BinaryOp) (lhs rhs : Tree)
  | call (name : List Char) (args : List Tree)

/-- What waits for an operand that binds tighter than products: a sign, or the base of a power. -/
inductive Waiting where
  | sign (s : Sign)
  | base (b : Tree)

/-- The operators inside one pair of parentheses that wait for their right operand: at most one sum, at
most one product, and any number of signs and powers, the latest first. -/
structure Level where
  sum : Option (Tree × BinaryOp)
  product : Option (Tree × BinaryOp)
  waiting : List Waiting

namespace Level

def empty : Level := ⟨none, none, []⟩

/-- An operand with the signs and powers that waited for it. -/
def applyWaiting : List Waiting → Tree → Tree
  | [], operand => operand
  | .sign s :: rest, operand => applyWaiting rest (.signed s operand)
  | .base b :: rest, operand => applyWaiting rest (.binary .pow b operand)

/-- The left operand, if one waits, joined with the right one. -/
def join (left : Option (Tree × BinaryOp)) (right : Tree) : Tree :=
  match left with
  | some (lhs, op) => .binary op lhs right
  | none => right

/-- A complete product, given its last operand. -/
def closeProduct (level : Level) (operand : Tree) : Tree :=
  join level.product (applyWaiting level.waiting operand)

/-- A complete sum, given its last operand. -/
def close (level : Level) (operand : Tree) : Tree :=
  join level.sum (level.closeProduct operand)

end Level

/-- An open parenthesis: one that groups, or one of a call with the arguments read so far, the latest
first. -/
inductive Bracket where
  | group
  | call (name : List Char) (args : List Tree)

/-- What may come next. -/
inductive Expectation where
  /-- An operand; right after the parenthesis of a call the call may also end. -/
  | operand (mayClose : Bool)
  /-- An operator or the end of what is open, after an operand; after a name, a call may begin. -/
  | operator (operand : Tree) (callee : Option (List Char))

/-- What has been read: the current level, what may come next, and the open parentheses with the levels
around them. -/
structure ParserState where
  level : Level
  expectation : Expectation
  stack : List (Bracket × Level)

namespace ParserState

def start : ParserState := ⟨.empty, .operand false, []⟩

/-- The state after a token where an operand is expected. -/
def stepOperand? (s : ParserState) (mayClose : Bool) : Token → Option ParserState
  | .number text => some { s with expectation := .operator (.number text) none }
  | .name text => some { s with expectation := .operator (.name text) (some text) }
  | .plus => some ⟨{ s.level with waiting := .sign .plus :: s.level.waiting }, .operand false, s.stack⟩
  | .minus => some ⟨{ s.level with waiting := .sign .minus :: s.level.waiting }, .operand false, s.stack⟩
  | .leftParen => some ⟨.empty, .operand false, (.group, s.level) :: s.stack⟩
  | .rightParen =>
    match mayClose, s.stack with
    | true, (.call name args, level) :: stack => some ⟨level, .operator (.call name args) none, stack⟩
    | _, _ => none
  | _ => none

/-- The state after a sum operator. -/
def afterSum (s : ParserState) (operand : Tree) (op : BinaryOp) : ParserState :=
  ⟨⟨some (s.level.close operand, op), none, []⟩, .operand false, s.stack⟩

/-- The state after a product operator. -/
def afterProduct (s : ParserState) (operand : Tree) (op : BinaryOp) : ParserState :=
  ⟨⟨s.level.sum, some (s.level.closeProduct operand, op), []⟩, .operand false, s.stack⟩

/-- The state after a power operator. -/
def afterPower (s : ParserState) (operand : Tree) : ParserState :=
  ⟨{ s.level with waiting := .base operand :: s.level.waiting }, .operand false, s.stack⟩

/-- The state after a token that follows an operand. -/
def stepOperator? (s : ParserState) (operand : Tree) (callee : Option (List Char)) :
    Token → Option ParserState
  | .plus => some (s.afterSum operand .add)
  | .minus => some (s.afterSum operand .sub)
  | .star => some (s.afterProduct operand .mul)
  | .slash => some (s.afterProduct operand .div)
  | .caret => some (s.afterPower operand)
  | .doubleStar => some (s.afterPower operand)
  | .leftParen => callee.map fun name => ⟨.empty, .operand true, (.call name [], s.level) :: s.stack⟩
  | .rightParen =>
    match s.stack with
    | (.group, level) :: stack => some ⟨level, .operator (s.level.close operand) none, stack⟩
    | (.call name args, level) :: stack =>
      some ⟨level, .operator (.call name (args.reverse ++ [s.level.close operand])) none, stack⟩
    | [] => none
  | .comma =>
    match s.stack with
    | (.call name args, level) :: stack =>
      some ⟨.empty, .operand false, (.call name (s.level.close operand :: args), level) :: stack⟩
    | _ => none
  | .number _ => none
  | .name _ => none

/-- The state after one more token, if the token may follow. -/
def step? (s : ParserState) (token : Token) : Option ParserState :=
  match s.expectation with
  | .operand mayClose => s.stepOperand? mayClose token
  | .operator operand callee => s.stepOperator? operand callee token

/-- The tree, if what has been read is a complete formula. -/
def finish? (s : ParserState) : Option Tree :=
  match s.expectation, s.stack with
  | .operator operand _, [] => some (s.level.close operand)
  | _, _ => none

/-- The state after as many tokens as may follow, and the tokens from the first refused one on. -/
def run (s : ParserState) : List PlacedToken → ParserState × List PlacedToken
  | [] => (s, [])
  | placed :: rest =>
    match s.step? placed.token with
    | some next => next.run rest
    | none => (s, placed :: rest)

end ParserState

/-- The tree of a sequence of tokens that is a formula. -/
def parseTokens? (tokens : List Token) : Option Tree := do
  (← tokens.foldlM ParserState.step? .start).finish?

end RangeCalc
