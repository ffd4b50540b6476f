import RangeCalc.Proofs.Formula.Phrase

/-!
# Reading phrases

The reader of tokens, with phrases in place of trees: what it has read so far is a derivation that is
complete but for the operands that its open parts wait for. Erasing the phrases to their trees gives the
reader of trees.

* `Reading.step?`: one more token;
* `Reading.tokens_of_step`: a step adds its token to the tokens of what has been read;
* `SumPhrase.read`: the tokens of a phrase are read as that phrase;
* `parseTokens?_eq_some_iff`: the trees that are read are those of phrases;
* `SumPhrase.tokens_injective`: a sequence of tokens has at most one derivation.
-/

namespace RangeCalc

/-- A sign, or the base of a power with its operator, that waits for an operand. -/
inductive Pending where
  | sign (s : Sign)
  | base (b : AtomPhrase) (op : PowerOp)

def Pending.erase : Pending → Waiting
  | sign s => .sign s
  | base b _ => .base b.tree

def Pending.tokens : Pending → List Token
  | sign s => [s.token]
  | base b op => b.tokens ++ [op.token]

/-- The operators inside one pair of parentheses that wait for their right operand, with phrases on
their left. -/
structure OpenLevel where
  sum : Option (SumPhrase × SumOp)
  product : Option (ProductPhrase × ProductOp)
  pending : List Pending

namespace OpenLevel

def empty : OpenLevel := ⟨none, none, []⟩

def applyPending : List Pending → UnaryPhrase → UnaryPhrase
  | [], u => u
  | .sign s :: rest, u => applyPending rest (.signed s u)
  | .base b op :: rest, u => applyPending rest (.power (.power b op u))

/-- A complete product, given its last operand. -/
def closeProduct (level : OpenLevel) (a : AtomPhrase) : ProductPhrase :=
  match level.product with
  | some (lhs, op) => .product lhs op (applyPending level.pending (.power (.atom a)))
  | none => .unary (applyPending level.pending (.power (.atom a)))

/-- A complete sum, given its last operand. -/
def close (level : OpenLevel) (a : AtomPhrase) : SumPhrase :=
  match level.sum with
  | some (lhs, op) => .sum lhs op (level.closeProduct a)
  | none => .product (level.closeProduct a)

def erase (level : OpenLevel) : Level :=
  ⟨level.sum.map fun (s, op) => (s.tree, op.op), level.product.map fun (p, op) => (p.tree, op.op),
    level.pending.map Pending.erase⟩

/-- The tokens after the last sum operator. -/
def productTokens (level : OpenLevel) : List Token :=
  (level.product.elim [] fun (p, op) => p.tokens ++ [op.token]) ++
    level.pending.reverse.flatMap Pending.tokens

def tokens (level : OpenLevel) : List Token :=
  (level.sum.elim [] fun (s, op) => s.tokens ++ [op.token]) ++ level.productTokens

theorem tokens_empty : empty.tokens = [] := rfl

theorem tokens_pending (level : OpenLevel) (p : Pending) :
    tokens { level with pending := p :: level.pending } = level.tokens ++ p.tokens := by
  simp [tokens, productTokens]

variable (level : OpenLevel) (a : AtomPhrase)

theorem tokens_applyPending (pending : List Pending) (u : UnaryPhrase) :
    (applyPending pending u).tokens = pending.reverse.flatMap Pending.tokens ++ u.tokens := by
  induction pending generalizing u with
  | nil => rfl
  | cons p rest ih =>
    cases p <;> simp [applyPending, ih, Pending.tokens, UnaryPhrase.tokens, PowerPhrase.tokens]

theorem tree_applyPending (pending : List Pending) (u : UnaryPhrase) :
    (applyPending pending u).tree = Level.applyWaiting (pending.map Pending.erase) u.tree := by
  induction pending generalizing u with
  | nil => rfl
  | cons p rest ih => cases p <;> exact ih _

theorem tokens_closeProduct : (level.closeProduct a).tokens = level.productTokens ++ a.tokens := by
  rw [closeProduct, productTokens]
  split <;> rename_i h <;>
    simp [h, ProductPhrase.tokens, tokens_applyPending, UnaryPhrase.tokens, PowerPhrase.tokens]

theorem tokens_close : (level.close a).tokens = level.tokens ++ a.tokens := by
  rw [close, tokens]
  split <;> rename_i h <;> simp [h, SumPhrase.tokens, tokens_closeProduct]

theorem tokens_sum (op : SumOp) :
    tokens ⟨some (level.close a, op), none, []⟩ = level.tokens ++ a.tokens ++ [op.token] := by
  simp [tokens_close, tokens, productTokens]

theorem tokens_product (op : ProductOp) :
    tokens ⟨level.sum, some (level.closeProduct a, op), []⟩ = level.tokens ++ a.tokens ++ [op.token] := by
  simp [tokens, productTokens, tokens_closeProduct]

theorem tree_closeProduct : (level.closeProduct a).tree = level.erase.closeProduct a.tree := by
  rw [closeProduct]
  split <;> rename_i h <;>
    simp [h, Level.closeProduct, Level.join, erase, ProductPhrase.tree, tree_applyPending,
      UnaryPhrase.tree, PowerPhrase.tree]

theorem tree_close : (level.close a).tree = level.erase.close a.tree := by
  rw [close, Level.close, ← tree_closeProduct]
  split <;> rename_i h <;> simp [h, Level.join, erase, SumPhrase.tree]

end OpenLevel

/-- An open parenthesis: one that groups, or one of a call with the arguments read so far, the latest
first. -/
inductive OpenBracket where
  | group
  | call (name : List Char) (args : List SumPhrase)

def OpenBracket.erase : OpenBracket → Bracket
  | group => .group
  | call name args => .call name (args.map SumPhrase.tree)

def OpenBracket.tokens : OpenBracket → List Token
  | group => [.leftParen]
  | call name args =>
    .name name :: .leftParen :: args.reverse.flatMap fun s => s.tokens ++ [.comma]

/-- Arguments, of which the first ones stand in reverse order. -/
def ArgumentsPhrase.ofReversed : List SumPhrase → ArgumentsPhrase → ArgumentsPhrase
  | [], rest => rest
  | s :: args, rest => ofReversed args (.more s rest)

theorem ArgumentsPhrase.tokens_ofReversed (args : List SumPhrase) (rest : ArgumentsPhrase) :
    (ofReversed args rest).tokens =
      (args.reverse.flatMap fun s => s.tokens ++ [.comma]) ++ rest.tokens := by
  induction args generalizing rest with
  | nil => rfl
  | cons s args ih => simp [ofReversed, ih, ArgumentsPhrase.tokens]

theorem ArgumentsPhrase.trees_ofReversed (args : List SumPhrase) (rest : ArgumentsPhrase) :
    (ofReversed args rest).trees = (args.map SumPhrase.tree).reverse ++ rest.trees := by
  induction args generalizing rest with
  | nil => rfl
  | cons s args ih => simp [ofReversed, ih, ArgumentsPhrase.trees]

/-- What may come next: an operand, right after the parenthesis of a call perhaps the end of the call, or
what may follow an operand. -/
inductive Awaited where
  | operand (mayClose : Bool)
  | operator (operand : AtomPhrase)

/-- What has been read. -/
structure Reading where
  level : OpenLevel
  awaited : Awaited
  stack : List (OpenBracket × OpenLevel)

/-- The name that a call may begin with. -/
def AtomPhrase.callee? : AtomPhrase → Option (List Char)
  | name text => some text
  | _ => none

theorem AtomPhrase.tokens_callee {a : AtomPhrase} {name : List Char} (h : a.callee? = some name) :
    a.tokens = [.name name] := by
  cases a <;> simp_all [callee?, AtomPhrase.tokens]

namespace Reading

def start : Reading := ⟨.empty, .operand false, []⟩

/-- The reading after a token where an operand is expected. -/
def stepOperand? (r : Reading) (mayClose : Bool) : Token → Option Reading
  | .number text => some { r with awaited := .operator (.number text) }
  | .name text => some { r with awaited := .operator (.name text) }
  | .plus => some ⟨{ r.level with pending := .sign .plus :: r.level.pending }, .operand false, r.stack⟩
  | .minus =>
    some ⟨{ r.level with pending := .sign .minus :: r.level.pending }, .operand false, r.stack⟩
  | .leftParen => some ⟨.empty, .operand false, (.group, r.level) :: r.stack⟩
  | .rightParen =>
    match mayClose, r.stack with
    | true, (.call name _, level) :: stack => some ⟨level, .operator (.emptyCall name), stack⟩
    | _, _ => none
  | _ => none

def afterSum (r : Reading) (a : AtomPhrase) (op : SumOp) : Reading :=
  ⟨⟨some (r.level.close a, op), none, []⟩, .operand false, r.stack⟩

def afterProduct (r : Reading) (a : AtomPhrase) (op : ProductOp) : Reading :=
  ⟨⟨r.level.sum, some (r.level.closeProduct a, op), []⟩, .operand false, r.stack⟩

def afterPower (r : Reading) (a : AtomPhrase) (op : PowerOp) : Reading :=
  ⟨{ r.level with pending := .base a op :: r.level.pending }, .operand false, r.stack⟩

/-- The reading after a token that follows an operand. -/
def stepOperator? (r : Reading) (a : AtomPhrase) : Token → Option Reading
  | .plus => some (r.afterSum a .plus)
  | .minus => some (r.afterSum a .minus)
  | .star => some (r.afterProduct a .star)
  | .slash => some (r.afterProduct a .slash)
  | .caret => some (r.afterPower a .caret)
  | .doubleStar => some (r.afterPower a .doubleStar)
  | .leftParen => a.callee?.map fun name => ⟨.empty, .operand true, (.call name [], r.level) :: r.stack⟩
  | .rightParen =>
    match r.stack with
    | (.group, level) :: stack => some ⟨level, .operator (.group (r.level.close a)), stack⟩
    | (.call name args, level) :: stack =>
      some ⟨level, .operator (.call name (.ofReversed args (.last (r.level.close a)))), stack⟩
    | [] => none
  | .comma =>
    match r.stack with
    | (.call name args, level) :: stack =>
      some ⟨.empty, .operand false, (.call name (r.level.close a :: args), level) :: stack⟩
    | _ => none
  | .number _ => none
  | .name _ => none

/-- The reading after one more token, if the token may follow. -/
def step? (r : Reading) (t : Token) : Option Reading :=
  match r.awaited with
  | .operand mayClose => r.stepOperand? mayClose t
  | .operator a => r.stepOperator? a t

/-- The phrase, if what has been read is complete. -/
def finish? (r : Reading) : Option SumPhrase :=
  match r.awaited, r.stack with
  | .operator a, [] => some (r.level.close a)
  | _, _ => none

/-- Where a call may end at once, it has just begun. -/
def Proper (r : Reading) : Prop :=
  r.awaited = .operand true →
    r.level = .empty ∧ ∃ name level stack, r.stack = (.call name [], level) :: stack

def stackTokens : List (OpenBracket × OpenLevel) → List Token
  | [] => []
  | (bracket, level) :: stack => stackTokens stack ++ level.tokens ++ bracket.tokens

def tokens (r : Reading) : List Token :=
  stackTokens r.stack ++ r.level.tokens ++
    match r.awaited with
    | .operand _ => []
    | .operator a => a.tokens

/-- The state of the reader of trees. -/
def erase (r : Reading) : ParserState where
  level := r.level.erase
  expectation :=
    match r.awaited with
    | .operand mayClose => .operand mayClose
    | .operator a => .operator a.tree a.callee?
  stack := r.stack.map fun (bracket, level) => (bracket.erase, level.erase)

/-! ## One step -/

variable {r r' : Reading} {t : Token}

theorem proper_start : start.Proper :=
  fun h => by simp [start] at h

theorem proper_of_step (h : r.step? t = some r') : r'.Proper := by
  intro h'
  rcases r with ⟨level, mayClose | a, stack⟩
  · cases t <;> simp only [step?, stepOperand?] at h <;> grind
  · cases t <;> simp only [step?, stepOperator?, afterSum, afterProduct, afterPower,
      Option.map_eq_some_iff] at h <;> grind

theorem tokens_of_stepOperand {level : OpenLevel} {mayClose : Bool}
    {stack : List (OpenBracket × OpenLevel)}
    (hr : (⟨level, .operand mayClose, stack⟩ : Reading).Proper)
    (h : stepOperand? ⟨level, .operand mayClose, stack⟩ mayClose t = some r') :
    r'.tokens = (⟨level, .operand mayClose, stack⟩ : Reading).tokens ++ [t] := by
  cases t with
  | rightParen =>
    match mayClose, stack, hr, h with
    | true, (.call name args, outer) :: stack, hr, h =>
      obtain ⟨hlevel, name', outer', stack', hstack⟩ := hr rfl
      subst hlevel
      cases hstack
      cases h
      simp [tokens, stackTokens, OpenBracket.tokens, OpenLevel.tokens_empty, AtomPhrase.tokens]
  | number text => cases h; simp [tokens, AtomPhrase.tokens]
  | name text => cases h; simp [tokens, AtomPhrase.tokens]
  | plus => cases h; simp [tokens, OpenLevel.tokens_pending, Pending.tokens, Sign.token]
  | minus => cases h; simp [tokens, OpenLevel.tokens_pending, Pending.tokens, Sign.token]
  | leftParen => cases h; simp [tokens, stackTokens, OpenBracket.tokens, OpenLevel.tokens_empty]
  | _ => cases h

theorem tokens_of_stepOperator {level : OpenLevel} {a : AtomPhrase}
    {stack : List (OpenBracket × OpenLevel)}
    (h : stepOperator? ⟨level, .operator a, stack⟩ a t = some r') :
    r'.tokens = (⟨level, .operator a, stack⟩ : Reading).tokens ++ [t] := by
  cases t with
  | plus => cases h; simp [tokens, afterSum, OpenLevel.tokens_sum, SumOp.token]
  | minus => cases h; simp [tokens, afterSum, OpenLevel.tokens_sum, SumOp.token]
  | star => cases h; simp [tokens, afterProduct, OpenLevel.tokens_product, ProductOp.token]
  | slash => cases h; simp [tokens, afterProduct, OpenLevel.tokens_product, ProductOp.token]
  | caret => cases h; simp [tokens, afterPower, OpenLevel.tokens_pending, Pending.tokens, PowerOp.token]
  | doubleStar =>
    cases h
    simp [tokens, afterPower, OpenLevel.tokens_pending, Pending.tokens, PowerOp.token]
  | leftParen =>
    obtain ⟨name, ha, rfl⟩ := Option.map_eq_some_iff.mp h
    simp [tokens, stackTokens, OpenBracket.tokens, OpenLevel.tokens_empty, AtomPhrase.tokens_callee ha]
  | rightParen =>
    match stack, h with
    | (.group, outer) :: stack, h =>
      cases h
      simp [tokens, stackTokens, OpenBracket.tokens, AtomPhrase.tokens, OpenLevel.tokens_close]
    | (.call name args, outer) :: stack, h =>
      cases h
      simp [tokens, stackTokens, OpenBracket.tokens, AtomPhrase.tokens, ArgumentsPhrase.tokens,
        ArgumentsPhrase.tokens_ofReversed, OpenLevel.tokens_close]
  | comma =>
    match stack, h with
    | (.call name args, outer) :: stack, h =>
      cases h
      simp [tokens, stackTokens, OpenBracket.tokens, OpenLevel.tokens_empty, OpenLevel.tokens_close]
  | number text => cases h
  | name text => cases h

/-- A step adds its token. -/
theorem tokens_of_step (hr : r.Proper) (h : r.step? t = some r') : r'.tokens = r.tokens ++ [t] := by
  rcases r with ⟨level, mayClose | a, stack⟩
  · exact tokens_of_stepOperand hr h
  · exact tokens_of_stepOperator h

theorem erase_afterSum (r : Reading) (a : AtomPhrase) (op : SumOp) :
    (r.afterSum a op).erase = r.erase.afterSum a.tree op.op := by
  simp only [erase, afterSum, ParserState.afterSum, ← OpenLevel.tree_close]
  rfl

theorem erase_afterProduct (r : Reading) (a : AtomPhrase) (op : ProductOp) :
    (r.afterProduct a op).erase = r.erase.afterProduct a.tree op.op := by
  simp only [erase, afterProduct, ParserState.afterProduct, ← OpenLevel.tree_closeProduct]
  rfl

theorem erase_afterPower (r : Reading) (a : AtomPhrase) (op : PowerOp) :
    (r.afterPower a op).erase = r.erase.afterPower a.tree :=
  rfl

/-- Erasing the phrases commutes with a step. -/
theorem erase_step? (hr : r.Proper) (t : Token) : (r.step? t).map erase = r.erase.step? t := by
  rcases r with ⟨level, mayClose | a, stack⟩
  · cases t with
    | rightParen =>
      cases mayClose with
      | false => rfl
      | true =>
        obtain ⟨-, name, outer, stack', hstack⟩ := hr rfl
        cases hstack
        rfl
    | _ => rfl
  · cases t with
    | plus => exact congrArg some (erase_afterSum _ a .plus)
    | minus => exact congrArg some (erase_afterSum _ a .minus)
    | star => exact congrArg some (erase_afterProduct _ a .star)
    | slash => exact congrArg some (erase_afterProduct _ a .slash)
    | caret => exact congrArg some (erase_afterPower _ a .caret)
    | doubleStar => exact congrArg some (erase_afterPower _ a .doubleStar)
    | leftParen =>
      change Option.map _ (a.callee?.map _) = a.callee?.map _
      cases a.callee? <;> rfl
    | rightParen =>
      match stack with
      | [] => rfl
      | (.group, outer) :: stack =>
        simp [step?, stepOperator?, erase, ParserState.step?, ParserState.stepOperator?,
          AtomPhrase.callee?, OpenBracket.erase, AtomPhrase.tree, OpenLevel.tree_close]
      | (.call name args, outer) :: stack =>
        simp [step?, stepOperator?, erase, ParserState.step?, ParserState.stepOperator?,
          AtomPhrase.callee?, OpenBracket.erase, AtomPhrase.tree, ArgumentsPhrase.trees_ofReversed,
          ArgumentsPhrase.trees, OpenLevel.tree_close]
    | comma =>
      match stack with
      | [] => rfl
      | (.group, outer) :: stack => rfl
      | (.call name args, outer) :: stack =>
        simp [step?, stepOperator?, erase, ParserState.step?, ParserState.stepOperator?,
          OpenBracket.erase, OpenLevel.tree_close]
        rfl
    | number text => rfl
    | name text => rfl

theorem erase_finish? (r : Reading) : r.finish?.map SumPhrase.tree = r.erase.finish? := by
  match r with
  | ⟨_, .operand _, _⟩ => rfl
  | ⟨_, .operator _, _ :: _⟩ => rfl
  | ⟨level, .operator a, []⟩ => exact congrArg some (level.tree_close a)

theorem tokens_of_finish {s : SumPhrase} (h : r.finish? = some s) : s.tokens = r.tokens := by
  match r, h with
  | ⟨level, .operator a, []⟩, h =>
    cases h
    exact level.tokens_close a

/-! ## A run -/

def run? (r : Reading) (ts : List Token) : Option Reading :=
  ts.foldlM step? r

theorem run?_append (r : Reading) (ts us : List Token) :
    r.run? (ts ++ us) = (r.run? ts).bind fun r' => r'.run? us :=
  List.foldlM_append

theorem run?_cons (r : Reading) (t : Token) (ts : List Token) :
    r.run? (t :: ts) = (r.step? t).bind fun r' => r'.run? ts :=
  List.foldlM_cons

theorem proper_of_run {ts : List Token} (hr : r.Proper) (h : r.run? ts = some r') : r'.Proper := by
  induction ts generalizing r with
  | nil =>
    cases h
    exact hr
  | cons t ts ih =>
    rw [run?_cons, Option.bind_eq_some_iff] at h
    obtain ⟨next, hnext, h⟩ := h
    exact ih (proper_of_step hnext) h

theorem tokens_of_run {ts : List Token} (hr : r.Proper) (h : r.run? ts = some r') :
    r'.tokens = r.tokens ++ ts := by
  induction ts generalizing r with
  | nil =>
    cases h
    exact (List.append_nil _).symm
  | cons t ts ih =>
    rw [run?_cons, Option.bind_eq_some_iff] at h
    obtain ⟨next, hnext, h⟩ := h
    rw [ih (proper_of_step hnext) h, tokens_of_step hr hnext, List.append_assoc, List.singleton_append]

theorem erase_run? (hr : r.Proper) (ts : List Token) :
    (r.run? ts).map erase = ts.foldlM ParserState.step? r.erase := by
  induction ts generalizing r with
  | nil => rfl
  | cons t ts ih =>
    rw [run?_cons, List.foldlM_cons, ← erase_step? hr t]
    cases hnext : r.step? t with
    | none => rfl
    | some next => exact ih (proper_of_step hnext)

end Reading

/-! ## Every phrase is read

From any place where an operand may come, the tokens of a phrase lead to a place after its last atom, where
what is open closes to the phrase. -/

open Reading OpenLevel

mutual

theorem SumPhrase.read : ∀ (s : SumPhrase) (mayClose : Bool) (stack : List (OpenBracket × OpenLevel)),
    ∃ level a, run? ⟨.empty, .operand mayClose, stack⟩ s.tokens =
    some ⟨level, .operator a, stack⟩ ∧
      level.close a = s
  | .product p, mayClose, stack => by
    obtain ⟨level, a, hrun, hsum, rfl⟩ := p.read none mayClose stack
    exact ⟨level, a, hrun, by simp [close, hsum]⟩
  | .sum lhs op rhs, mayClose, stack => by
    obtain ⟨left, a, hleft, rfl⟩ := lhs.read mayClose stack
    obtain ⟨level, b, hright, hsum, rfl⟩ := rhs.read (some (left.close a, op)) false stack
    refine ⟨level, b, ?_, by simp [close, hsum]⟩
    rw [SumPhrase.tokens, run?_append, hleft, Option.bind_some, run?_cons]
    cases op <;> exact hright

theorem ProductPhrase.read : ∀ (p : ProductPhrase) (sum : Option (SumPhrase × SumOp)) (mayClose : Bool)
    (stack : List (OpenBracket × OpenLevel)),
    ∃ level a, run? ⟨⟨sum, none, []⟩, .operand mayClose, stack⟩ p.tokens =
        some ⟨level, .operator a, stack⟩ ∧
      level.sum = sum ∧ level.closeProduct a = p
  | .unary u, sum, mayClose, stack => by
    obtain ⟨pending, a, hrun, hu⟩ := u.read ⟨sum, none, []⟩ mayClose stack
    exact ⟨_, a, hrun, rfl, by simp [closeProduct, hu, applyPending]⟩
  | .product lhs op rhs, sum, mayClose, stack => by
    obtain ⟨left, a, hleft, rfl, rfl⟩ := lhs.read sum mayClose stack
    obtain ⟨pending, b, hright, hu⟩ :=
      rhs.read ⟨left.sum, some (left.closeProduct a, op), []⟩ false stack
    refine ⟨⟨left.sum, some (left.closeProduct a, op), pending⟩, b, ?_, rfl, ?_⟩
    · rw [ProductPhrase.tokens, run?_append, hleft, Option.bind_some, run?_cons]
      cases op <;> exact hright
    · rw [closeProduct, hu, applyPending]

theorem UnaryPhrase.read : ∀ (u : UnaryPhrase) (level : OpenLevel) (mayClose : Bool)
    (stack : List (OpenBracket × OpenLevel)),
    ∃ pending a, run? ⟨level, .operand mayClose, stack⟩ u.tokens =
        some ⟨{ level with pending := pending }, .operator a, stack⟩ ∧
      applyPending pending (.power (.atom a)) = applyPending level.pending u
  | .power p, level, mayClose, stack => p.read level mayClose stack
  | .signed sign operand, level, mayClose, stack => by
    obtain ⟨pending, a, hrun, hu⟩ :=
      operand.read { level with pending := .sign sign :: level.pending } false stack
    refine ⟨pending, a, ?_, hu⟩
    rw [UnaryPhrase.tokens, run?_cons]
    cases sign <;> exact hrun

theorem PowerPhrase.read : ∀ (p : PowerPhrase) (level : OpenLevel) (mayClose : Bool)
    (stack : List (OpenBracket × OpenLevel)),
    ∃ pending a, run? ⟨level, .operand mayClose, stack⟩ p.tokens =
        some ⟨{ level with pending := pending }, .operator a, stack⟩ ∧
      applyPending pending (.power (.atom a)) = applyPending level.pending (.power p)
  | .atom a, level, mayClose, stack => ⟨level.pending, a, a.read level mayClose stack, rfl⟩
  | .power base op exponent, level, mayClose, stack => by
    obtain ⟨pending, a, hrun, hu⟩ :=
      exponent.read { level with pending := .base base op :: level.pending } false stack
    refine ⟨pending, a, ?_, hu⟩
    rw [PowerPhrase.tokens, run?_append, base.read, Option.bind_some, run?_cons]
    cases op <;> exact hrun

theorem AtomPhrase.read : ∀ (a : AtomPhrase) (level : OpenLevel) (mayClose : Bool)
    (stack : List (OpenBracket × OpenLevel)),
    run? ⟨level, .operand mayClose, stack⟩ a.tokens = some ⟨level, .operator a, stack⟩
  | .number _, _, _, _ => rfl
  | .name _, _, _, _ => rfl
  | .emptyCall _, _, _, _ => rfl
  | .call name args, level, mayClose, stack => args.read true level name [] stack
  | .group inner, level, mayClose, stack => by
    obtain ⟨level', a, hrun, rfl⟩ := inner.read false ((.group, level) :: stack)
    rw [AtomPhrase.tokens, List.cons_append, run?_cons]
    change run? _ _ = _
    rw [run?_append, hrun]
    rfl

theorem ArgumentsPhrase.read : ∀ (args : ArgumentsPhrase) (mayClose : Bool) (level : OpenLevel)
    (name : List Char) (done : List SumPhrase) (stack : List (OpenBracket × OpenLevel)),
    run? ⟨.empty, .operand mayClose, (.call name done, level) :: stack⟩ (args.tokens ++ [.rightParen]) =
      some ⟨level, .operator (.call name (.ofReversed done args)), stack⟩
  | .last s, mayClose, level, name, done, stack => by
    obtain ⟨level', a, hrun, rfl⟩ := s.read mayClose ((.call name done, level) :: stack)
    rw [ArgumentsPhrase.tokens, run?_append, hrun]
    rfl
  | .more s rest, mayClose, level, name, done, stack => by
    obtain ⟨level', a, hrun, rfl⟩ := s.read mayClose ((.call name done, level) :: stack)
    rw [ArgumentsPhrase.tokens, List.append_assoc, run?_append, hrun, Option.bind_some, List.cons_append,
      run?_cons]
    exact rest.read false level name (level'.close a :: done) stack

end

/-- The tokens of a phrase are read as that phrase. -/
theorem SumPhrase.run_tokens (s : SumPhrase) :
    ∃ r, start.run? s.tokens = some r ∧ r.finish? = some s := by
  obtain ⟨level, a, hrun, hs⟩ := s.read false []
  exact ⟨_, hrun, congrArg some hs⟩

/-- A sequence of tokens has at most one derivation. -/
theorem SumPhrase.tokens_injective {s s' : SumPhrase} (h : s.tokens = s'.tokens) : s = s' := by
  obtain ⟨r, hr, hs⟩ := s.run_tokens
  obtain ⟨r', hr', hs'⟩ := s'.run_tokens
  rw [h, hr', Option.some.injEq] at hr
  rw [hr, hs] at hs'
  exact Option.some.inj hs'

/-- The trees that are read are those of the phrases with these tokens. -/
theorem parseTokens?_eq_some_iff {ts : List Token} {tree : Tree} :
    parseTokens? ts = some tree ↔ ∃ s : SumPhrase, s.tokens = ts ∧ s.tree = tree := by
  have herase : parseTokens? ts = (start.run? ts).bind fun r => r.finish?.map SumPhrase.tree := by
    change (ts.foldlM ParserState.step? start.erase).bind ParserState.finish? = _
    rw [← erase_run? proper_start]
    cases start.run? ts with
    | none => rfl
    | some r => exact (erase_finish? r).symm
  rw [herase]
  constructor
  · intro h
    obtain ⟨r, hr, h⟩ := Option.bind_eq_some_iff.mp h
    obtain ⟨s, hs, rfl⟩ := Option.map_eq_some_iff.mp h
    exact ⟨s, (tokens_of_finish hs).trans (tokens_of_run proper_start hr), rfl⟩
  · rintro ⟨s, rfl, rfl⟩
    obtain ⟨r, hr, hs⟩ := s.run_tokens
    rw [hr, Option.bind_some, hs, Option.map_some]

end RangeCalc
