import Mathlib.Data.List.Chain
import RangeCalc.Proofs.Formula.Language
import RangeCalc.Proofs.Formula.Substitute

/-!
# Other words for names

A name that nobody calls may be written in other words that are an operand of their own. Such words are read
exactly where the name is read, and put their tree where the name stood.

* `Tree.replace`: a tree with trees in place of some names;
* `Tree.resolve_replace`: its formula has formulas in place of variables;
* `Wording`: for some names, other words and the tree that they are read as;
* `ParserState.run_reword`: a run over other words for names;
* `Wording.parseTokens?_reword`, `Wording.compile_reword`: the trees and the formulas that are read from them.
-/

namespace RangeCalc

/-! ## Trees -/

namespace Tree

mutual

/-- A tree with trees in place of some names. The names of calls stay. -/
def replace (trees : List Char → Option Tree) : Tree → Tree
  | number text => number text
  | name text => (trees text).getD (name text)
  | signed sign operand => signed sign (replace trees operand)
  | binary op lhs rhs => binary op (replace trees lhs) (replace trees rhs)
  | call callee args => call callee (replaceAll trees args)

/-- Some trees with trees in place of some names. -/
def replaceAll (trees : List Char → Option Tree) : List Tree → List Tree
  | [] => []
  | t :: ts => replace trees t :: replaceAll trees ts

end

variable {trees : List Char → Option Tree}

theorem replaceAll_eq_map (ts : List Tree) : replaceAll trees ts = ts.map (replace trees) := by
  induction ts with
  | nil => rfl
  | cons t ts ih => rw [replaceAll, ih, List.map_cons]

end Tree

/-- Formulas for the variables that some trees stand for: each tree has its formula, and the names that the trees
replace are those of variables. -/
structure Tree.Denote (trees : List Char → Option Tree) (formulas : String → Option (Formula Float)) : Prop where
  resolve : ∀ text tree, trees text = some tree →
    ∃ f, tree.resolve = .ok f ∧ formulas (String.ofList text) = some f
  isVar : ∀ text, (trees text).isSome = true → Constant.ofName? (String.ofList text) = none
  none : ∀ text, trees text = none → formulas (String.ofList text) = none

namespace Formula

variable {formulas : String → Option (Formula Float)}

theorem substituteAll_eq_map (fs : List (Formula Float)) :
    substituteAll formulas fs = fs.map (substitute formulas) := by
  induction fs with
  | nil => rfl
  | cons f fs ih => rw [substituteAll, ih, List.map_cons]

theorem apply_map_substitute (f : Function) (args : List (Formula Float)) :
    apply f (args.map (substitute formulas)) = (apply f args).map (substitute formulas) := by
  cases f with
  | math f =>
    simp only [apply, List.length_map]
    split
    · rw [Except.map, substitute, substituteAll_eq_map]
    · rfl
  | uniform =>
    rcases args with - | ⟨low, - | ⟨high, - | ⟨extra, args⟩⟩⟩
    · rfl
    · rfl
    · simp only [List.map_cons, List.map_nil, apply, Except.map, substitute]
    · simp [apply, Except.map]
  | sample =>
    rcases args with - | ⟨range, - | ⟨extra, args⟩⟩
    · rfl
    · simp only [List.map_cons, List.map_nil, apply, Except.map, substitute]
    · simp [apply, Except.map]

theorem applyNamed_map_substitute (name : String) (args : List (Formula Float)) :
    applyNamed name (args.map (substitute formulas)) = (applyNamed name args).map (substitute formulas) := by
  rw [applyNamed, applyNamed]
  split
  · exact apply_map_substitute _ args
  · rfl

end Formula

namespace Tree

variable {trees : List Char → Option Tree} {formulas : String → Option (Formula Float)}

mutual

/-- Trees in place of names become formulas in place of variables. -/
theorem resolve_replace (h : Denote trees formulas) : ∀ t : Tree,
    (t.replace trees).resolve = t.resolve.map (Formula.substitute formulas)
  | number text => by
    rw [replace, resolve, Except.map, Formula.substitute]
  | name text => by
    rw [replace, resolve, Except.map]
    cases htree : trees text with
    | none =>
      rw [Option.getD_none, resolve]
      cases Constant.ofName? (String.ofList text) with
      | none => simp only [Option.elim_none, Formula.substitute, h.none text htree, Option.getD_none]
      | some c => simp only [Option.elim_some, Formula.substitute]
    | some tree =>
      obtain ⟨f, hf, hformula⟩ := h.resolve text tree htree
      simp only [Option.getD_some, hf, h.isVar text (by rw [htree]; rfl), Option.elim_none, Formula.substitute,
        hformula]
  | signed sign operand => by
    rw [replace, resolve, resolve, resolve_replace h operand]
    cases operand.resolve with
    | error e => rfl
    | ok f => simp only [Except.map, Formula.substitute, bind, Except.bind, pure, Except.pure]
  | binary op lhs rhs => by
    rw [replace, resolve, resolve, resolve_replace h lhs, resolve_replace h rhs]
    cases lhs.resolve with
    | error e => rfl
    | ok f =>
      cases rhs.resolve with
      | error e => rfl
      | ok g => simp only [Except.map, Formula.substitute, bind, Except.bind, pure, Except.pure]
  | call callee args => by
    rw [replace, resolve, resolve, resolveAll_replaceAll h args]
    cases resolveAll args with
    | error e => rfl
    | ok fs => exact Formula.applyNamed_map_substitute _ fs

theorem resolveAll_replaceAll (h : Denote trees formulas) : ∀ ts : List Tree,
    resolveAll (replaceAll trees ts) = (resolveAll ts).map (List.map (Formula.substitute formulas))
  | [] => by rw [replaceAll, resolveAll, Except.map, List.map_nil]
  | t :: ts => by
    rw [replaceAll, resolveAll, resolveAll, resolve_replace h t, resolveAll_replaceAll h ts]
    cases t.resolve with
    | error e => rfl
    | ok f =>
      cases resolveAll ts with
      | error e => rfl
      | ok fs => rfl

end

end Tree

/-! ## States -/

section

variable (trees : List Char → Option Tree)

def Waiting.replace : Waiting → Waiting
  | sign s => .sign s
  | base b => .base (b.replace trees)

def Level.replace (level : Level) : Level where
  sum := level.sum.map fun (lhs, op) => (lhs.replace trees, op)
  product := level.product.map fun (lhs, op) => (lhs.replace trees, op)
  waiting := level.waiting.map (·.replace trees)

def Bracket.replace : Bracket → Bracket
  | group => .group
  | call name args => .call name (args.map (·.replace trees))

/-- A name that is replaced cannot be called. -/
def Expectation.replace : Expectation → Expectation
  | operand mayClose => .operand mayClose
  | operator t callee => .operator (t.replace trees) (callee.filter fun text => (trees text).isNone)

def ParserState.replace (s : ParserState) : ParserState where
  level := s.level.replace trees
  expectation := s.expectation.replace trees
  stack := s.stack.map fun (bracket, level) => (bracket.replace trees, level.replace trees)

end

section

variable {trees : List Char → Option Tree}

theorem Level.replace_applyWaiting (waiting : List Waiting) (operand : Tree) :
    (applyWaiting waiting operand).replace trees =
      applyWaiting (waiting.map (·.replace trees)) (operand.replace trees) := by
  induction waiting generalizing operand with
  | nil => rfl
  | cons w waiting ih => cases w <;> exact ih _

theorem Level.replace_join (left : Option (Tree × BinaryOp)) (right : Tree) :
    (join left right).replace trees =
      join (left.map fun (lhs, op) => (lhs.replace trees, op)) (right.replace trees) := by
  cases left <;> rfl

theorem Level.replace_closeProduct (level : Level) (operand : Tree) :
    (level.closeProduct operand).replace trees = (level.replace trees).closeProduct (operand.replace trees) := by
  rw [closeProduct, replace_join, replace_applyWaiting]
  rfl

theorem Level.replace_close (level : Level) (operand : Tree) :
    (level.close operand).replace trees = (level.replace trees).close (operand.replace trees) := by
  rw [close, replace_join, replace_closeProduct]
  rfl

namespace ParserState

variable {s : ParserState}

/-- A step over a token that stays. -/
theorem replace_step? {t : Token} (hname : ∀ text, t = .name text → trees text = none)
    (hcall : t = .leftParen → ∀ operand callee, s.expectation = .operator operand (some callee) →
      trees callee = none) :
    (s.replace trees).step? t = (s.step? t).map (replace trees) := by
  rcases s with ⟨level, mayClose | ⟨operand, callee⟩, stack⟩
  · cases t with
    | name text =>
      have htext := hname text rfl
      simp [step?, stepOperand?, replace, Expectation.replace, Tree.replace, htext, Option.filter_some]
    | rightParen =>
      cases mayClose with
      | false => rfl
      | true =>
        rcases stack with - | ⟨⟨- | ⟨name, args⟩, outer⟩, stack⟩
        · rfl
        · rfl
        · simp [step?, stepOperand?, replace, Expectation.replace, Bracket.replace, Tree.replace,
            Tree.replaceAll_eq_map]
    | _ => rfl
  · cases t with
    | leftParen =>
      cases callee with
      | none => rfl
      | some callee =>
        have hcallee := hcall rfl operand callee rfl
        simp [step?, stepOperator?, replace, Expectation.replace, Bracket.replace, hcallee]
        rfl
    | rightParen =>
      rcases stack with - | ⟨⟨- | ⟨name, args⟩, outer⟩, stack⟩
      · rfl
      · simp [step?, stepOperator?, replace, Expectation.replace, Bracket.replace, Level.replace_close]
      · simp [step?, stepOperator?, replace, Expectation.replace, Bracket.replace, Tree.replace,
            Tree.replaceAll_eq_map, Level.replace_close]
    | comma =>
      rcases stack with - | ⟨⟨- | ⟨name, args⟩, outer⟩, stack⟩
      · rfl
      · rfl
      · simp [step?, stepOperator?, replace, Expectation.replace, Bracket.replace, Level.replace_close]
        rfl
    | number text => rfl
    | name text => rfl
    | _ =>
      simp [step?, stepOperator?, replace, Expectation.replace, afterSum, afterProduct, afterPower,
        Level.replace, Level.replace_close, Level.replace_closeProduct, Waiting.replace]

theorem finish?_replace (s : ParserState) : (s.replace trees).finish? = s.finish?.map (Tree.replace trees) := by
  rcases s with ⟨level, mayClose | ⟨operand, callee⟩, - | ⟨top, stack⟩⟩
  · rfl
  · rfl
  · exact congrArg some (Level.replace_close level operand).symm
  · rfl

/-- A call may begin after a name only. -/
theorem eq_name_of_step? {s' : ParserState} {t : Token} {operand : Tree} {callee : List Char}
    (h : s.step? t = some s') (h' : s'.expectation = .operator operand (some callee)) : t = .name callee := by
  rcases s with ⟨level, mayClose | ⟨operand, callee⟩, stack⟩
  · cases t <;> simp only [step?, stepOperand?] at h <;> grind
  · cases t <;> simp only [step?, stepOperator?, afterSum, afterProduct, afterPower,
      Option.map_eq_some_iff] at h <;> grind

end ParserState

end

/-! ## Words -/

/-- For some names, other words and the tree that they are read as. -/
abbrev Wording := List Char → Option (List Token × Tree)

/-- Tokens that are read as an operand which no call can begin with, and refused where no operand may stand. -/
structure IsOperand (ts : List Token) (tree : Tree) : Prop where
  read : ∀ level mayClose stack, ts.foldlM ParserState.step? ⟨level, .operand mayClose, stack⟩ =
    some ⟨level, .operator tree none, stack⟩
  refused : ∀ level operand callee stack,
    ts.foldlM ParserState.step? ⟨level, .operator operand callee, stack⟩ = none

namespace Wording

variable (w : Wording)

/-- The trees in place of names. -/
def tree? (text : List Char) : Option Tree :=
  (w text).map (·.2)

/-- A token in other words, if there are any. -/
def reword : Token → List Token
  | .name text => (w text).elim [.name text] (·.1)
  | t => [t]

/-- A token without other words. -/
def Keeps (t : Token) : Prop :=
  ∀ text, t = .name text → w text = none

/-- Where a token stands before another, it is no name with other words that is called. -/
def Uncalled (t u : Token) : Prop :=
  ∀ text, t = .name text → (w text).isSome = true → u ≠ .leftParen

/-- The words for each name are an operand. -/
def Readable : Prop :=
  ∀ text ts tree, w text = some (ts, tree) → IsOperand ts tree

variable {w} {ts us : List Token}

theorem Keeps.reword_eq {t : Token} (h : w.Keeps t) : w.reword t = [t] := by
  cases t with
  | name text => rw [reword, h text rfl, Option.elim_none]
  | _ => rfl

theorem flatMap_reword_of_keeps (hts : ∀ t ∈ ts, w.Keeps t) : ts.flatMap w.reword = ts := by
  rw [List.flatMap_def, List.map_congr_left fun t ht => (hts t ht).reword_eq, ← List.flatMap_def,
    List.flatMap_singleton']

theorem isChain_append_of_keeps (hts : ∀ t ∈ ts, w.Keeps t) (hus : us.IsChain w.Uncalled) :
    (ts ++ us).IsChain w.Uncalled := by
  induction ts with
  | nil => exact hus
  | cons t ts ih =>
    obtain ⟨ht, hts⟩ := List.forall_mem_cons.mp hts
    refine (ih hts).cons fun u _ text htext hsome => ?_
    rw [ht text htext] at hsome
    cases hsome

/-- A step over a name with other words is a run over these. -/
theorem foldlM_reword_name (hw : w.Readable) {text : List Char} {ts : List Token} {tree : Tree}
    (htext : w text = some (ts, tree)) (s : ParserState) :
    ts.foldlM ParserState.step? (s.replace w.tree?) = (s.step? (.name text)).map (·.replace w.tree?) := by
  rcases s with ⟨level, mayClose | ⟨operand, callee⟩, stack⟩
  · rw [ParserState.replace, Expectation.replace, (hw text ts tree htext).read]
    simp [ParserState.step?, ParserState.stepOperand?, ParserState.replace, Expectation.replace, Tree.replace,
      tree?, htext, Option.filter_some]
  · rw [ParserState.replace, Expectation.replace, (hw text ts tree htext).refused]
    rfl

theorem foldlM_reword_token (hw : w.Readable) {s : ParserState} {t : Token}
    (hcall : t = .leftParen → ∀ operand callee, s.expectation = .operator operand (some callee) →
      w.tree? callee = none) :
    (w.reword t).foldlM ParserState.step? (s.replace w.tree?) = (s.step? t).map (·.replace w.tree?) := by
  have hstays : (∀ text, t = .name text → w.tree? text = none) →
      [t].foldlM ParserState.step? (s.replace w.tree?) = (s.step? t).map (·.replace w.tree?) := by
    intro hname
    rw [List.foldlM_cons, ParserState.replace_step? hname hcall]
    cases s.step? t <;> rfl
  cases t with
  | name text =>
    rw [reword]
    cases htext : w text with
    | none =>
      refine hstays fun text' h => ?_
      cases h
      rw [tree?, htext, Option.map_none]
    | some words => exact foldlM_reword_name hw htext s
  | _ => exact hstays fun text h => by cases h

/-- A run over other words for names ends where the run over the names does, with trees in place of names. -/
theorem foldlM_reword (hw : w.Readable) {ts : List Token} (hts : ts.IsChain w.Uncalled) {s : ParserState}
    (hs : ∀ operand callee, s.expectation = .operator operand (some callee) → (w.tree? callee).isSome = true →
      ts.head? ≠ some .leftParen) :
    (ts.flatMap w.reword).foldlM ParserState.step? (s.replace w.tree?) =
      (ts.foldlM ParserState.step? s).map (·.replace w.tree?) := by
  induction ts generalizing s with
  | nil => rfl
  | cons t ts ih =>
    rw [List.flatMap_cons, List.foldlM_append, List.foldlM_cons, foldlM_reword_token hw]
    · cases hstep : s.step? t with
      | none => rfl
      | some next =>
        refine ih hts.of_cons fun operand callee hnext hcallee hhead => ?_
        obtain ⟨rest, rfl⟩ := List.head?_eq_some_iff.mp hhead
        obtain rfl := ParserState.eq_name_of_step? hstep hnext
        rw [tree?, Option.isSome_map] at hcallee
        exact (List.isChain_cons_cons.mp hts).1 callee rfl hcallee rfl
    · rintro rfl operand callee hexpect
      exact Option.not_isSome_iff_eq_none.mp fun hcallee => hs operand callee hexpect hcallee rfl

/-- The tree of other words for names is the tree of the names, with trees in their place. -/
theorem parseTokens?_reword (hw : w.Readable) {ts : List Token} (hts : ts.IsChain w.Uncalled) :
    parseTokens? (ts.flatMap w.reword) = (parseTokens? ts).map (Tree.replace w.tree?) := by
  have hrun := foldlM_reword hw hts (s := .start) (fun _ _ h => by cases h)
  have hstart : ParserState.start.replace w.tree? = .start := rfl
  rw [hstart] at hrun
  rw [parseTokens?, parseTokens?, hrun]
  cases ts.foldlM ParserState.step? .start with
  | none => rfl
  | some s => exact ParserState.finish?_replace s

end Wording

/-! ## Formulas -/

/-- A text is compiled by its tokens. -/
theorem compile_eq_ok_iff_tokens {text : String} {f : Formula Float} :
    compile text = .ok f ↔
      ∃ ts tree, Splits text.toList ts ∧ parseTokens? ts = some tree ∧ tree.resolve = .ok f := by
  rw [compile_eq_ok_iff]
  constructor
  · rintro ⟨s, hs, hcalls, rfl⟩
    exact ⟨_, _, hs, parseTokens?_eq_some_iff.mpr ⟨s, rfl, rfl⟩, s.resolve_iff.mpr ⟨hcalls, rfl⟩⟩
  · rintro ⟨ts, tree, hts, htree, hf⟩
    obtain ⟨s, rfl, rfl⟩ := parseTokens?_eq_some_iff.mp htree
    obtain ⟨hcalls, rfl⟩ := s.resolve_iff.mp hf
    exact ⟨s, hts, hcalls, rfl⟩

/-- The formula of a text in other words is that of the text, with formulas in place of variables. -/
theorem Wording.compile_reword {w : Wording} (hw : w.Readable) {formulas : String → Option (Formula Float)}
    (hdenote : Tree.Denote w.tree? formulas) {text other : String}
    (hother : ∀ us, Splits other.toList us ↔ ∃ ts, Splits text.toList ts ∧ ts.flatMap w.reword = us)
    (hchain : ∀ ts, Splits text.toList ts → ts.IsChain w.Uncalled) {g : Formula Float} :
    compile other = .ok g ↔ ∃ f, compile text = .ok f ∧ f.substitute formulas = g := by
  simp only [compile_eq_ok_iff_tokens]
  constructor
  · rintro ⟨us, tree, hus, htree, hresolve⟩
    obtain ⟨ts, hts, rfl⟩ := (hother us).mp hus
    rw [parseTokens?_reword hw (hchain ts hts), Option.map_eq_some_iff] at htree
    obtain ⟨tree, htree, rfl⟩ := htree
    rw [Tree.resolve_replace hdenote] at hresolve
    cases hf : tree.resolve with
    | error e =>
      rw [hf] at hresolve
      cases hresolve
    | ok f =>
      rw [hf] at hresolve
      exact ⟨f, ⟨ts, tree, hts, htree, hf⟩, Except.ok.inj hresolve⟩
  · rintro ⟨f, ⟨ts, tree, hts, htree, hf⟩, rfl⟩
    refine ⟨_, tree.replace w.tree?, (hother _).mpr ⟨ts, hts, rfl⟩, ?_, ?_⟩
    · rw [parseTokens?_reword hw (hchain ts hts), htree]
      rfl
    · rw [Tree.resolve_replace hdenote, hf]
      rfl

end RangeCalc
