import RangeCalc.Formula.Printer
import RangeCalc.Proofs.Formula.Cut
import RangeCalc.Proofs.Number.Written

/-!
# The phrase of a printed formula

Every operation is printed as an atom, a group or a call, and a sign is printed before its operand without
parentheses. So a sign that was inside the base of a power is read as one around the power.

* `Formula.IsCompiled`: what formulas of texts are made of;
* `Formula.phrase`: the phrase of a formula's text; `UnaryPhrase.raise` puts a power under the signs of its
  base;
* `Formula.splits_text`: the text of a formula that was compiled splits into the tokens of its phrase.
-/

namespace RangeCalc

open Text

/-! ## Compiled formulas -/

namespace Formula

open Binary64

mutual

/-- Formulas of texts: numbers are not negative, variables have names of their own, and calls have as many
arguments as their functions take. -/
def IsCompiled : Formula Float → Prop
  | number x => Unsigned x
  | constant _ => True
  | var name => IsName name.toList ∧ Constant.ofName? name = none
  | signed _ operand => operand.IsCompiled
  | binary _ lhs rhs => lhs.IsCompiled ∧ rhs.IsCompiled
  | call f args => f.arity.admits args.length = true ∧ AllCompiled args
  | uniform low high => low.IsCompiled ∧ high.IsCompiled
  | sample range => range.IsCompiled

def AllCompiled : List (Formula Float) → Prop
  | [] => True
  | f :: fs => f.IsCompiled ∧ AllCompiled fs

end

theorem isCompiled_callFormula {name : List Char} {args : List (Formula Float)}
    (h : CallAdmitted name args.length) (hargs : AllCompiled args) : (callFormula name args).IsCompiled := by
  obtain ⟨f, hf, harity⟩ := callAdmitted_iff.mp h
  rw [callFormula, hf, Option.map_some, Option.getD_some]
  cases f with
  | math f => exact ⟨harity, hargs⟩
  | uniform =>
    rcases args with - | ⟨low, - | ⟨high, - | ⟨third, rest⟩⟩⟩ <;>
      simp [Function.arity, Arity.admits] at harity
    exact ⟨hargs.1, hargs.2.1⟩
  | sample =>
    rcases args with - | ⟨range, - | ⟨second, rest⟩⟩ <;> simp [Function.arity, Arity.admits] at harity
    exact hargs.1

end Formula

/-! What a phrase of terminals denotes is compiled. -/

mutual

theorem SumPhrase.isCompiled : ∀ s : SumPhrase, (∀ t ∈ s.tokens, t.IsTerminal) → s.CallsAdmitted →
    s.formula.IsCompiled
  | .product p, ht, hcalls => p.isCompiled ht hcalls
  | .sum lhs _ rhs, ht, hcalls => by
    rw [SumPhrase.tokens, List.forall_mem_append, List.forall_mem_cons] at ht
    exact ⟨lhs.isCompiled ht.1 hcalls.1, rhs.isCompiled ht.2.2 hcalls.2⟩

theorem ProductPhrase.isCompiled : ∀ p : ProductPhrase, (∀ t ∈ p.tokens, t.IsTerminal) → p.CallsAdmitted →
    p.formula.IsCompiled
  | .unary u, ht, hcalls => u.isCompiled ht hcalls
  | .product lhs _ rhs, ht, hcalls => by
    rw [ProductPhrase.tokens, List.forall_mem_append, List.forall_mem_cons] at ht
    exact ⟨lhs.isCompiled ht.1 hcalls.1, rhs.isCompiled ht.2.2 hcalls.2⟩

theorem UnaryPhrase.isCompiled : ∀ u : UnaryPhrase, (∀ t ∈ u.tokens, t.IsTerminal) → u.CallsAdmitted →
    u.formula.IsCompiled
  | .power p, ht, hcalls => p.isCompiled ht hcalls
  | .signed _ operand, ht, hcalls => operand.isCompiled (List.forall_mem_cons.mp ht).2 hcalls

theorem PowerPhrase.isCompiled : ∀ p : PowerPhrase, (∀ t ∈ p.tokens, t.IsTerminal) → p.CallsAdmitted →
    p.formula.IsCompiled
  | .atom a, ht, hcalls => a.isCompiled ht hcalls
  | .power base _ exponent, ht, hcalls => by
    rw [PowerPhrase.tokens, List.forall_mem_append, List.forall_mem_cons] at ht
    exact ⟨base.isCompiled ht.1 hcalls.1, exponent.isCompiled ht.2.2 hcalls.2⟩

theorem AtomPhrase.isCompiled : ∀ a : AtomPhrase, (∀ t ∈ a.tokens, t.IsTerminal) → a.CallsAdmitted →
    a.formula.IsCompiled
  | .number text, _, _ => unsigned_literalValue text
  | .name text, ht, _ => by
    have hname : IsName text := ht (.name text) (List.mem_singleton_self _)
    rw [AtomPhrase.formula, nameFormula]
    cases h : Constant.ofName? (String.ofList text) with
    | some c => trivial
    | none => exact ⟨by rwa [String.toList_ofList], h⟩
  | .emptyCall _, _, hcalls => Formula.isCompiled_callFormula hcalls trivial
  | .call _ args, ht, hcalls => by
    rw [AtomPhrase.tokens, List.cons_append, List.cons_append, List.forall_mem_cons, List.forall_mem_cons,
      List.forall_mem_append] at ht
    rw [AtomPhrase.CallsAdmitted, ← args.length_formulas] at hcalls
    exact Formula.isCompiled_callFormula hcalls.1 (args.allCompiled ht.2.2.1 hcalls.2)
  | .group inner, ht, hcalls => by
    rw [AtomPhrase.tokens, List.cons_append, List.forall_mem_cons, List.forall_mem_append] at ht
    exact inner.isCompiled ht.2.1 hcalls

theorem ArgumentsPhrase.allCompiled : ∀ args : ArgumentsPhrase, (∀ t ∈ args.tokens, t.IsTerminal) →
    args.CallsAdmitted → Formula.AllCompiled args.formulas
  | .last s, ht, hcalls => ⟨s.isCompiled ht hcalls, trivial⟩
  | .more s rest, ht, hcalls => by
    rw [ArgumentsPhrase.tokens, List.forall_mem_append, List.forall_mem_cons] at ht
    exact ⟨s.isCompiled ht.1 hcalls.1, rest.allCompiled ht.2.2 hcalls.2⟩

end

theorem isCompiled_of_compile {text : String} {f : Formula Float} (h : compile text = .ok f) :
    f.IsCompiled := by
  obtain ⟨s, hs, hcalls, rfl⟩ := compile_eq_ok_iff.mp h
  exact s.isCompiled hs.isTerminal hcalls

/-! ## Phrases -/

/-- A power that is written behind a phrase: its base is the last atom of the phrase. -/
def UnaryPhrase.raise : UnaryPhrase → UnaryPhrase → UnaryPhrase
  | .signed sign operand, exponent => .signed sign (operand.raise exponent)
  | .power (.atom a), exponent => .power (.power a .caret exponent)
  | .power (.power base op last), exponent => .power (.power base op (last.raise exponent))

/-- What is written between the parentheses of a binary operation. -/
def BinaryOp.phrase : BinaryOp → UnaryPhrase → UnaryPhrase → SumPhrase
  | .add, lhs, rhs => .sum (.product (.unary lhs)) .plus (.unary rhs)
  | .sub, lhs, rhs => .sum (.product (.unary lhs)) .minus (.unary rhs)
  | .mul, lhs, rhs => .product (.product (.unary lhs) .star rhs)
  | .div, lhs, rhs => .product (.product (.unary lhs) .slash rhs)
  | .pow, lhs, rhs => .product (.unary (lhs.raise rhs))

def argumentsPhrase (first : UnaryPhrase) : List UnaryPhrase → ArgumentsPhrase
  | [] => .last (.product (.unary first))
  | second :: rest => .more (.product (.unary first)) (argumentsPhrase second rest)

def callPhrase (name : String) : List UnaryPhrase → AtomPhrase
  | [] => .emptyCall name.toList
  | first :: rest => .call name.toList (argumentsPhrase first rest)

/-- A number that is not finite is printed as a name. -/
def numberPhrase (x : Float) : AtomPhrase :=
  if x.isFinite then .number (numberText x).toList else .name (numberText x).toList

namespace Formula

mutual

/-- The phrase of a formula's text. -/
def phrase : Formula Float → UnaryPhrase
  | number x => .power (.atom (numberPhrase x))
  | constant c => .power (.atom (.name c.name.toList))
  | var name => .power (.atom (.name name.toList))
  | signed sign operand => .signed sign operand.phrase
  | binary op lhs rhs => .power (.atom (.group (op.phrase lhs.phrase rhs.phrase)))
  | call f args => .power (.atom (callPhrase f.name (phrases args)))
  | uniform low high => .power (.atom (callPhrase Function.uniform.name [low.phrase, high.phrase]))
  | sample range => .power (.atom (callPhrase Function.sample.name [range.phrase]))

/-- The phrases of some formulas' texts. -/
def phrases : List (Formula Float) → List UnaryPhrase
  | [] => []
  | f :: fs => f.phrase :: phrases fs

end

end Formula

/-! ### Their tokens -/

def BinaryOp.token : BinaryOp → Token
  | add => .plus
  | sub => .minus
  | mul => .star
  | div => .slash
  | pow => .caret

theorem UnaryPhrase.tokens_raise : ∀ u e : UnaryPhrase, (u.raise e).tokens = u.tokens ++ .caret :: e.tokens
  | .signed sign operand, e => by
    rw [raise, UnaryPhrase.tokens, operand.tokens_raise e]
    rfl
  | .power (.atom _), _ => rfl
  | .power (.power base op last), e => by
    rw [raise, UnaryPhrase.tokens, PowerPhrase.tokens, last.tokens_raise e, UnaryPhrase.tokens,
      PowerPhrase.tokens, List.append_assoc, List.cons_append]

theorem BinaryOp.tokens_phrase (op : BinaryOp) (u v : UnaryPhrase) :
    (op.phrase u v).tokens = u.tokens ++ op.token :: v.tokens := by
  cases op with
  | pow => exact u.tokens_raise v
  | _ => rfl

/-! ## Texts that are cut at a character -/

theorem Splits.append_mark {cs rest : List Char} {ts us : List Token} {c : Char} (hc : isMark c = true)
    (h : Splits cs ts) (h' : Splits (c :: rest) us) : Splits (cs ++ c :: rest) (ts ++ us) :=
  .append (cutsApart_of_mark hc) h h'

/-- The text of a token. -/
theorem splits_chars {t : Token} (ht : t.IsTerminal) : Splits t.chars [t] :=
  .token ht ⟨⟨t, ht, rfl⟩, (List.append_nil _).symm, fun _ _ h => h.length_le⟩ .nil

/-- A symbol before a text. -/
theorem Splits.cons_symbol {t : Token} {c : Char} {rest : List Char} {ts : List Token} (ht : t.IsTerminal)
    (hchars : t.chars = [c]) (hc : isSymbol c = true) (hstar : c ≠ '*') (h : Splits rest ts) :
    Splits (c :: rest) (t :: ts) :=
  .token ht (front_symbol ht hchars hc (absurd · hstar)).2 h

/-- Parentheses around a text. -/
theorem Splits.parenthesized {cs : List Char} {ts : List Token} (h : Splits cs ts) :
    Splits ('(' :: (cs ++ [')'])) (.leftParen :: (ts ++ [.rightParen])) := by
  have hclose : Splits [')'] [.rightParen] := splits_chars (t := .rightParen) trivial
  exact .cons_symbol trivial rfl rfl (by decide) (h.append_mark rfl hclose)

/-- Two texts with the symbol of an operation between them. -/
theorem Splits.between {cs ds : List Char} {ts us : List Token} (op : BinaryOp) (h : Splits cs ts)
    (h' : Splits ds us) : Splits (cs ++ ' ' :: (op.symbol.toList ++ ' ' :: ds)) (ts ++ op.token :: us) := by
  have hsymbol : op.token.IsTerminal ∧ op.token.chars = op.symbol.toList := by
    cases op <;> exact ⟨trivial, rfl⟩
  rw [← hsymbol.2]
  exact h.append_mark rfl (.blank rfl ((splits_chars hsymbol.1).append_mark rfl (.blank rfl h')))

/-- Texts with commas between them. -/
theorem splits_intercalate {css : List (List Char)} {tss : List (List Token)}
    (h : List.Forall₂ Splits css tss) : Splits ([',', ' '].intercalate css) ([.comma].intercalate tss) := by
  induction h with
  | nil => exact .nil
  | @cons cs ts css tss h hrest ih =>
    cases hrest with
    | nil => simpa using h
    | cons =>
      rw [List.intercalate_cons_cons, List.intercalate_cons_cons, List.append_assoc, List.append_assoc]
      exact h.append_mark rfl (.cons_symbol trivial rfl rfl (by decide) (.blank rfl ih))

/-- A call of a function. -/
theorem splits_call {name : List Char} {css : List (List Char)} {tss : List (List Token)}
    (hname : IsName name) (h : List.Forall₂ Splits css tss) :
    Splits (name ++ '(' :: ([',', ' '].intercalate css ++ [')']))
      (.name name :: .leftParen :: ([.comma].intercalate tss ++ [.rightParen])) :=
  (splits_chars (t := .name name) hname).append_mark rfl (splits_intercalate h).parenthesized

/-! ## The text of a formula -/

theorem tokens_argumentsPhrase (u : UnaryPhrase) (us : List UnaryPhrase) :
    (argumentsPhrase u us).tokens = [Token.comma].intercalate ((u :: us).map UnaryPhrase.tokens) := by
  induction us generalizing u with
  | nil => simp [argumentsPhrase, ArgumentsPhrase.tokens, SumPhrase.tokens, ProductPhrase.tokens]
  | cons v us ih =>
    rw [argumentsPhrase, ArgumentsPhrase.tokens, ih, List.map_cons, List.map_cons, List.map_cons,
      List.intercalate_cons_cons, List.append_assoc]
    rfl

theorem tokens_callPhrase (name : String) (us : List UnaryPhrase) :
    (callPhrase name us).tokens = .name name.toList :: .leftParen ::
      ([Token.comma].intercalate (us.map UnaryPhrase.tokens) ++ [.rightParen]) := by
  cases us with
  | nil => rfl
  | cons u us => rw [callPhrase, AtomPhrase.tokens, tokens_argumentsPhrase, List.cons_append, List.cons_append]

theorem isName_of_chars {cs : List Char} (h : (cs.head?.any isNameStart && cs.tail.all isNameChar) = true) :
    IsName cs := by
  rw [Bool.and_eq_true] at h
  rcases cs with - | ⟨c, rest⟩
  · exact absurd h.1 Bool.false_ne_true
  · exact ⟨h.1, List.all_eq_true.mp h.2⟩

theorem Constant.isName_name (c : Constant) : IsName c.name.toList := by
  cases c <;> exact isName_of_chars (by decide +kernel)

theorem Function.isName_name (f : Function) : IsName f.name.toList := by
  cases f with
  | math f => cases f <;> exact isName_of_chars (by decide +kernel)
  | _ => exact isName_of_chars (by decide +kernel)

open Binary64 in
theorem splits_numberText {x : Float} (h : Unsigned x) :
    Splits (numberText x).toList (numberPhrase x).tokens := by
  rw [numberPhrase]
  split
  next hx => exact splits_chars (t := .number _) (literalValue_numberText h hx).1
  next hx =>
    rw [h.eq_infinity (Bool.of_not_eq_true hx), numberText_infinity]
    exact splits_chars (t := .name _) Constant.infinity.isName_name

namespace Formula

mutual

/-- The text of a compiled formula splits into the tokens of its phrase. -/
theorem splits_text : ∀ f : Formula Float, f.IsCompiled → Splits f.text.toList f.phrase.tokens
  | number x, h => splits_numberText h
  | constant c, _ => splits_chars (t := .name _) c.isName_name
  | var name, h => splits_chars (t := .name _) h.1
  | signed sign operand, h => by
    have := operand.splits_text h
    rw [text, String.toList_append]
    cases sign <;> exact .cons_symbol trivial rfl rfl (by decide) this
  | binary op lhs rhs, h => by
    have := (Splits.between op (lhs.splits_text h.1) (rhs.splits_text h.2)).parenthesized
    simpa [text, phrase, UnaryPhrase.tokens, PowerPhrase.tokens, AtomPhrase.tokens, op.tokens_phrase] using this
  | call f args, h => by
    have := splits_call (Function.math f).isName_name (splits_texts args h.2)
    simpa [text, phrase, UnaryPhrase.tokens, PowerPhrase.tokens, tokens_callPhrase,
      Function.name, String.toList_intercalate] using this
  | uniform low high, h => by
    have := splits_call Function.uniform.isName_name
      (.cons (low.splits_text h.1) (.cons (high.splits_text h.2) .nil))
    simpa [text, phrase, UnaryPhrase.tokens, PowerPhrase.tokens, tokens_callPhrase,
      Function.name] using this
  | sample range, h => by
    have := splits_call Function.sample.isName_name (.cons (range.splits_text h) .nil)
    simpa [text, phrase, UnaryPhrase.tokens, PowerPhrase.tokens, tokens_callPhrase,
      Function.name] using this

theorem splits_texts : ∀ fs : List (Formula Float), AllCompiled fs →
    List.Forall₂ Splits ((texts fs).map String.toList) ((phrases fs).map UnaryPhrase.tokens)
  | [], _ => .nil
  | f :: fs, h => .cons (f.splits_text h.1) (splits_texts fs h.2)

end

end Formula

end RangeCalc
