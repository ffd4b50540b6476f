import RangeCalc.Formula.Compile

/-!
# The grammar of formulas

A phrase is a derivation of the grammar: one type for each level of the grammar, one constructor for each
of its rules.

    sum:       product | sum ("+" | "-") product
    product:   unary | product ("*" | "/") unary
    unary:     power | ("-" | "+") unary
    power:     atom | atom ("^" | "**") unary
    atom:      NUMBER | NAME | NAME "(" [arguments] ")" | "(" sum ")"
    arguments: sum ("," sum)*

* `SumPhrase.tokens`: the tokens that a phrase derives;
* `SumPhrase.tree`: the tree it denotes, where parentheses leave no node;
* `SumPhrase.CallsAdmitted`: every call names a function and gives it as many arguments as it takes;
* `SumPhrase.formula`: the formula it denotes if its calls are admitted.
-/

namespace RangeCalc

inductive SumOp where
  | plus
  | minus

inductive ProductOp where
  | star
  | slash

inductive PowerOp where
  | caret
  | doubleStar

def SumOp.token : SumOp → Token
  | plus => .plus
  | minus => .minus

def SumOp.op : SumOp → BinaryOp
  | plus => .add
  | minus => .sub

def ProductOp.token : ProductOp → Token
  | star => .star
  | slash => .slash

def ProductOp.op : ProductOp → BinaryOp
  | star => .mul
  | slash => .div

def PowerOp.token : PowerOp → Token
  | caret => .caret
  | doubleStar => .doubleStar

def Sign.token : Sign → Token
  | minus => .minus
  | plus => .plus

mutual

inductive SumPhrase where
  | product (p : ProductPhrase)
  | sum (lhs : SumPhrase) (op : SumOp) (rhs : ProductPhrase)

inductive ProductPhrase where
  | unary (u : UnaryPhrase)
  | product (lhs : ProductPhrase) (op : ProductOp) (rhs : UnaryPhrase)

inductive UnaryPhrase where
  | power (p : PowerPhrase)
  | signed (sign : Sign) (operand : UnaryPhrase)

inductive PowerPhrase where
  | atom (a : AtomPhrase)
  | power (base : AtomPhrase) (op : PowerOp) (exponent : UnaryPhrase)

inductive AtomPhrase where
  | number (text : List Char)
  | name (text : List Char)
  | emptyCall (name : List Char)
  | call (name : List Char) (args : ArgumentsPhrase)
  | group (inner : SumPhrase)

inductive ArgumentsPhrase where
  | last (s : SumPhrase)
  | more (s : SumPhrase) (rest : ArgumentsPhrase)

end

/-! ## Tokens -/

mutual

def SumPhrase.tokens : SumPhrase → List Token
  | .product p => p.tokens
  | .sum lhs op rhs => lhs.tokens ++ op.token :: rhs.tokens

def ProductPhrase.tokens : ProductPhrase → List Token
  | .unary u => u.tokens
  | .product lhs op rhs => lhs.tokens ++ op.token :: rhs.tokens

def UnaryPhrase.tokens : UnaryPhrase → List Token
  | .power p => p.tokens
  | .signed sign operand => sign.token :: operand.tokens

def PowerPhrase.tokens : PowerPhrase → List Token
  | .atom a => a.tokens
  | .power base op exponent => base.tokens ++ op.token :: exponent.tokens

def AtomPhrase.tokens : AtomPhrase → List Token
  | .number text => [.number text]
  | .name text => [.name text]
  | .emptyCall name => [.name name, .leftParen, .rightParen]
  | .call name args => .name name :: .leftParen :: args.tokens ++ [.rightParen]
  | .group inner => .leftParen :: inner.tokens ++ [.rightParen]

def ArgumentsPhrase.tokens : ArgumentsPhrase → List Token
  | .last s => s.tokens
  | .more s rest => s.tokens ++ .comma :: rest.tokens

end

/-! ## Trees -/

mutual

def SumPhrase.tree : SumPhrase → Tree
  | .product p => p.tree
  | .sum lhs op rhs => .binary op.op lhs.tree rhs.tree

def ProductPhrase.tree : ProductPhrase → Tree
  | .unary u => u.tree
  | .product lhs op rhs => .binary op.op lhs.tree rhs.tree

def UnaryPhrase.tree : UnaryPhrase → Tree
  | .power p => p.tree
  | .signed sign operand => .signed sign operand.tree

def PowerPhrase.tree : PowerPhrase → Tree
  | .atom a => a.tree
  | .power base _ exponent => .binary .pow base.tree exponent.tree

def AtomPhrase.tree : AtomPhrase → Tree
  | .number text => .number text
  | .name text => .name text
  | .emptyCall name => .call name []
  | .call name args => .call name args.trees
  | .group inner => inner.tree

def ArgumentsPhrase.trees : ArgumentsPhrase → List Tree
  | .last s => [s.tree]
  | .more s rest => s.tree :: rest.trees

end

/-! ## Formulas -/

/-- Whether a name is that of a function which takes a number of arguments. -/
def CallAdmitted (name : List Char) (count : Nat) : Prop :=
  ∃ f ∈ Function.all, f.name = (String.ofList name).toLower ∧ f.arity.admits count = true

/-- A function on as many formulas as it takes. -/
def Function.onFormulas : Function → List (Formula Float) → Formula Float
  | .math f, args => .call f args
  | .uniform, [low, high] => .uniform low high
  | .sample, [range] => .sample range
  | _, _ => .constant .undefined

/-- A call of the function with a name. -/
def callFormula (name : List Char) (args : List (Formula Float)) : Formula Float :=
  ((Function.ofName? (String.ofList name)).map fun f => f.onFormulas args).getD (.constant .undefined)

/-- A name is a constant, whatever the case of its letters, or a variable. -/
def nameFormula (text : List Char) : Formula Float :=
  (Constant.ofName? (String.ofList text)).elim (.var (String.ofList text)) .constant

mutual

def SumPhrase.CallsAdmitted : SumPhrase → Prop
  | .product p => p.CallsAdmitted
  | .sum lhs _ rhs => lhs.CallsAdmitted ∧ rhs.CallsAdmitted

def ProductPhrase.CallsAdmitted : ProductPhrase → Prop
  | .unary u => u.CallsAdmitted
  | .product lhs _ rhs => lhs.CallsAdmitted ∧ rhs.CallsAdmitted

def UnaryPhrase.CallsAdmitted : UnaryPhrase → Prop
  | .power p => p.CallsAdmitted
  | .signed _ operand => operand.CallsAdmitted

def PowerPhrase.CallsAdmitted : PowerPhrase → Prop
  | .atom a => a.CallsAdmitted
  | .power base _ exponent => base.CallsAdmitted ∧ exponent.CallsAdmitted

def AtomPhrase.CallsAdmitted : AtomPhrase → Prop
  | .number _ => True
  | .name _ => True
  | .emptyCall name => CallAdmitted name 0
  | .call name args => CallAdmitted name args.trees.length ∧ args.CallsAdmitted
  | .group inner => inner.CallsAdmitted

def ArgumentsPhrase.CallsAdmitted : ArgumentsPhrase → Prop
  | .last s => s.CallsAdmitted
  | .more s rest => s.CallsAdmitted ∧ rest.CallsAdmitted

end

mutual

def SumPhrase.formula : SumPhrase → Formula Float
  | .product p => p.formula
  | .sum lhs op rhs => .binary op.op lhs.formula rhs.formula

def ProductPhrase.formula : ProductPhrase → Formula Float
  | .unary u => u.formula
  | .product lhs op rhs => .binary op.op lhs.formula rhs.formula

def UnaryPhrase.formula : UnaryPhrase → Formula Float
  | .power p => p.formula
  | .signed sign operand => .signed sign operand.formula

def PowerPhrase.formula : PowerPhrase → Formula Float
  | .atom a => a.formula
  | .power base _ exponent => .binary .pow base.formula exponent.formula

def AtomPhrase.formula : AtomPhrase → Formula Float
  | .number text => .number (literalValue text)
  | .name text => nameFormula text
  | .emptyCall name => callFormula name []
  | .call name args => callFormula name args.formulas
  | .group inner => inner.formula

def ArgumentsPhrase.formulas : ArgumentsPhrase → List (Formula Float)
  | .last s => [s.formula]
  | .more s rest => s.formula :: rest.formulas

end

/-! ## Trees with names looked up -/

theorem ArgumentsPhrase.length_formulas : ∀ args : ArgumentsPhrase,
    args.formulas.length = args.trees.length
  | .last _ => rfl
  | .more _ rest => congrArg (· + 1) rest.length_formulas

theorem Formula.apply_eq_ok_iff {f : Function} {args : List (Formula Float)} {g : Formula Float} :
    Formula.apply f args = .ok g ↔ f.arity.admits args.length = true ∧ f.onFormulas args = g := by
  cases f with
  | math f =>
    simp only [Formula.apply, Function.arity, Function.onFormulas]
    split <;> simp_all
  | uniform =>
    rcases args with - | ⟨a, - | ⟨b, - | ⟨c, rest⟩⟩⟩ <;>
      simp [Formula.apply, Function.arity, Function.onFormulas, Arity.admits]
  | sample =>
    rcases args with - | ⟨a, - | ⟨b, rest⟩⟩ <;>
      simp [Formula.apply, Function.arity, Function.onFormulas, Arity.admits]

/-- No two functions have one name. -/
theorem Function.eq_of_name {f g : Function} (hf : f ∈ all) (hg : g ∈ all) (h : f.name = g.name) :
    f = g := by
  have hnodup : ∀ f ∈ all, ∀ g ∈ all, f.name = g.name → f = g := by decide +kernel
  exact hnodup f hf g hg h

theorem Function.ofName?_eq_some_iff {name : String} {f : Function} :
    ofName? name = some f ↔ f ∈ all ∧ f.name = name.toLower := by
  constructor
  · intro h
    exact ⟨List.mem_of_find?_eq_some h, by simpa using List.find?_some h⟩
  · rintro ⟨hf, hname⟩
    cases h : ofName? name with
    | none =>
      have := List.find?_eq_none.mp h f hf
      simp [hname] at this
    | some g =>
      have hg : g.name = name.toLower := by simpa using List.find?_some h
      rw [eq_of_name (List.mem_of_find?_eq_some h) hf (hg.trans hname.symm)]

theorem callAdmitted_iff {name : List Char} {count : Nat} :
    CallAdmitted name count ↔
      ∃ f, Function.ofName? (String.ofList name) = some f ∧ f.arity.admits count = true := by
  simp only [CallAdmitted, Function.ofName?_eq_some_iff, and_assoc]

theorem Formula.applyNamed_eq_ok_iff {name : List Char} {args : List (Formula Float)}
    {g : Formula Float} :
    Formula.applyNamed (String.ofList name) args = .ok g ↔
      CallAdmitted name args.length ∧ callFormula name args = g := by
  rw [Formula.applyNamed, callAdmitted_iff, callFormula]
  cases h : Function.ofName? (String.ofList name) with
  | none => simp
  | some f => simp [Formula.apply_eq_ok_iff]

namespace Tree

variable {f g : Formula Float}

theorem resolve_signed_eq_ok_iff {sign : Sign} {t : Tree} :
    (signed sign t).resolve = .ok f ↔ ∃ x, t.resolve = .ok x ∧ .signed sign x = f := by
  rw [resolve]
  cases t.resolve <;> simp [bind, Except.bind, pure, Except.pure]

theorem resolve_binary_eq_ok_iff {op : BinaryOp} {t u : Tree} :
    (binary op t u).resolve = .ok f ↔
      ∃ x y, t.resolve = .ok x ∧ u.resolve = .ok y ∧ .binary op x y = f := by
  rw [resolve]
  cases t.resolve <;> cases u.resolve <;> simp [bind, Except.bind, pure, Except.pure]

theorem resolve_call_eq_ok_iff {name : List Char} {args : List Tree} :
    (call name args).resolve = .ok f ↔
      ∃ xs, resolveAll args = .ok xs ∧ CallAdmitted name xs.length ∧ callFormula name xs = f := by
  rw [resolve]
  cases resolveAll args <;> simp [bind, Except.bind, Formula.applyNamed_eq_ok_iff]

theorem resolveAll_nil : resolveAll [] = .ok [] := by
  rw [resolveAll]

theorem resolveAll_cons_eq_ok_iff {t : Tree} {ts : List Tree} {fs : List (Formula Float)} :
    resolveAll (t :: ts) = .ok fs ↔
      ∃ x xs, t.resolve = .ok x ∧ resolveAll ts = .ok xs ∧ x :: xs = fs := by
  rw [resolveAll]
  cases t.resolve <;> cases resolveAll ts <;> simp [bind, Except.bind, pure, Except.pure]

end Tree

/-! The tree of a phrase has a formula exactly if all calls are admitted. -/

mutual

theorem SumPhrase.resolve_iff : ∀ (s : SumPhrase) {f : Formula Float},
    s.tree.resolve = .ok f ↔ s.CallsAdmitted ∧ s.formula = f
  | .product p, _ => p.resolve_iff
  | .sum lhs op rhs, f => by
    simp only [SumPhrase.tree, SumPhrase.CallsAdmitted, SumPhrase.formula,
      Tree.resolve_binary_eq_ok_iff, lhs.resolve_iff, rhs.resolve_iff]
    grind

theorem ProductPhrase.resolve_iff : ∀ (p : ProductPhrase) {f : Formula Float},
    p.tree.resolve = .ok f ↔ p.CallsAdmitted ∧ p.formula = f
  | .unary u, _ => u.resolve_iff
  | .product lhs op rhs, f => by
    simp only [ProductPhrase.tree, ProductPhrase.CallsAdmitted, ProductPhrase.formula,
      Tree.resolve_binary_eq_ok_iff, lhs.resolve_iff, rhs.resolve_iff]
    grind

theorem UnaryPhrase.resolve_iff : ∀ (u : UnaryPhrase) {f : Formula Float},
    u.tree.resolve = .ok f ↔ u.CallsAdmitted ∧ u.formula = f
  | .power p, _ => p.resolve_iff
  | .signed sign operand, f => by
    simp only [UnaryPhrase.tree, UnaryPhrase.CallsAdmitted, UnaryPhrase.formula,
      Tree.resolve_signed_eq_ok_iff, operand.resolve_iff]
    grind

theorem PowerPhrase.resolve_iff : ∀ (p : PowerPhrase) {f : Formula Float},
    p.tree.resolve = .ok f ↔ p.CallsAdmitted ∧ p.formula = f
  | .atom a, _ => a.resolve_iff
  | .power base op exponent, f => by
    simp only [PowerPhrase.tree, PowerPhrase.CallsAdmitted, PowerPhrase.formula,
      Tree.resolve_binary_eq_ok_iff, base.resolve_iff, exponent.resolve_iff]
    grind

theorem AtomPhrase.resolve_iff : ∀ (a : AtomPhrase) {f : Formula Float},
    a.tree.resolve = .ok f ↔ a.CallsAdmitted ∧ a.formula = f
  | .number text, f => by
    simp [AtomPhrase.tree, AtomPhrase.CallsAdmitted, AtomPhrase.formula, Tree.resolve]
  | .name text, f => by
    simp [AtomPhrase.tree, AtomPhrase.CallsAdmitted, AtomPhrase.formula, Tree.resolve, nameFormula]
  | .emptyCall name, f => by
    simp [AtomPhrase.tree, AtomPhrase.CallsAdmitted, AtomPhrase.formula, Tree.resolve_call_eq_ok_iff,
      Tree.resolveAll_nil]
  | .call name args, f => by
    simp only [AtomPhrase.tree, AtomPhrase.CallsAdmitted, AtomPhrase.formula,
      Tree.resolve_call_eq_ok_iff, args.resolveAll_iff]
    constructor
    · rintro ⟨xs, ⟨hargs, rfl⟩, hcall, rfl⟩
      exact ⟨⟨args.length_formulas ▸ hcall, hargs⟩, rfl⟩
    · rintro ⟨⟨hcall, hargs⟩, rfl⟩
      exact ⟨_, ⟨hargs, rfl⟩, args.length_formulas ▸ hcall, rfl⟩
  | .group inner, _ => inner.resolve_iff

theorem ArgumentsPhrase.resolveAll_iff : ∀ (args : ArgumentsPhrase) {fs : List (Formula Float)},
    Tree.resolveAll args.trees = .ok fs ↔ args.CallsAdmitted ∧ args.formulas = fs
  | .last s, fs => by
    simp only [ArgumentsPhrase.trees, ArgumentsPhrase.CallsAdmitted, ArgumentsPhrase.formulas,
      Tree.resolveAll_cons_eq_ok_iff, Tree.resolveAll_nil, s.resolve_iff, Except.ok.injEq]
    grind
  | .more s rest, fs => by
    simp only [ArgumentsPhrase.trees, ArgumentsPhrase.CallsAdmitted, ArgumentsPhrase.formulas,
      Tree.resolveAll_cons_eq_ok_iff, s.resolve_iff, rest.resolveAll_iff]
    grind

end

end RangeCalc
