import RangeCalc.Proofs.Formula.Lexing
import RangeCalc.Proofs.Formula.Reading

/-!
# The language of formulas

A text is a formula exactly if it splits into the tokens of a phrase whose calls are all admitted.

* `parse_eq_ok_iff`: a text has a tree exactly if its tokens are those of a phrase;
* `compile_iff_phrase`: a text has a formula exactly if, moreover, the calls are admitted, and the phrase
  is unique.
-/

namespace RangeCalc

/-- A run without a refused token is a fold of steps. -/
theorem ParserState.run_eq_nil_iff {s s' : ParserState} {placed : List PlacedToken} :
    s.run placed = (s', []) ↔ (placed.map (·.token)).foldlM step? s = some s' := by
  induction placed generalizing s with
  | nil => simp [run, pure]
  | cons p placed ih =>
    rw [run, List.map_cons, List.foldlM_cons]
    cases s.step? p.token with
    | none => simp
    | some next => exact ih

/-- A text has a tree exactly if it is cut into tokens throughout and the tokens have that tree. -/
theorem parse_eq_ok_iff_tokens {text : List Char} {tree : Tree} :
    parse text = .ok tree ↔
      (Lexed.ofChars text).stray = none ∧
        parseTokens? ((Lexed.ofChars text).tokens.map (·.token)) = some tree := by
  have hrun := fun s' =>
    @ParserState.run_eq_nil_iff .start s' (Lexed.ofChars text).tokens
  rw [parse, parseTokens?]
  rcases h : ParserState.start.run (Lexed.ofChars text).tokens with ⟨state, - | ⟨p, refused⟩⟩
  · rw [(hrun state).mp h]
    cases (Lexed.ofChars text).stray with
    | some offset => simp
    | none => cases hfinish : state.finish? <;> simp [hfinish]
  · have hrefused : ((Lexed.ofChars text).tokens.map (·.token)).foldlM ParserState.step? .start = none := by
      refine Option.eq_none_iff_forall_ne_some.mpr fun s' hs' => ?_
      rw [← hrun, h] at hs'
      cases hs'
    rw [hrefused]
    simp

theorem parse_eq_ok_iff {text : List Char} {tree : Tree} :
    parse text = .ok tree ↔ ∃ s : SumPhrase, Splits text s.tokens ∧ s.tree = tree := by
  rw [parse_eq_ok_iff_tokens, parseTokens?_eq_some_iff]
  constructor
  · rintro ⟨hstray, s, hs, htree⟩
    exact ⟨s, Lexed.splits_iff.mpr ⟨hstray, hs.symm⟩, htree⟩
  · rintro ⟨s, hs, htree⟩
    obtain ⟨hstray, hs⟩ := Lexed.splits_iff.mp hs
    exact ⟨hstray, s, hs.symm, htree⟩

theorem compile_eq_ok_iff {text : String} {f : Formula Float} :
    compile text = .ok f ↔
      ∃ s : SumPhrase, Splits text.toList s.tokens ∧ s.CallsAdmitted ∧ s.formula = f := by
  have hcompile : compile text = .ok f ↔ ∃ tree, parse text.toList = .ok tree ∧
    tree.resolve = .ok f := by
    rw [compile]
    cases parse text.toList <;> simp
  simp only [hcompile, parse_eq_ok_iff]
  constructor
  · rintro ⟨_, ⟨s, hs, rfl⟩, hf⟩
    exact ⟨s, hs, s.resolve_iff.mp hf⟩
  · rintro ⟨s, hs, hf⟩
    exact ⟨_, ⟨s, hs, rfl⟩, s.resolve_iff.mpr hf⟩

/-- A text has a formula exactly if it splits into the tokens of a phrase whose calls are all admitted; that
phrase is unique and the formula is the one that it denotes. Every other text is refused. -/
theorem compile_iff_phrase (text : String) :
    (∀ f, compile text = .ok f ↔
      ∃ s : SumPhrase, Splits text.toList s.tokens ∧ s.CallsAdmitted ∧ s.formula = f) ∧
    (∀ s s' : SumPhrase, Splits text.toList s.tokens → Splits text.toList s'.tokens → s = s') ∧
    ((∃ e, compile text = .error e) ↔
      ¬ ∃ s : SumPhrase, Splits text.toList s.tokens ∧ s.CallsAdmitted) := by
  refine ⟨fun f => compile_eq_ok_iff, fun s s' hs hs' => SumPhrase.tokens_injective (hs.unique hs'), ?_⟩
  cases h : compile text with
  | error e =>
    simp only [Except.error.injEq, exists_eq', true_iff]
    rintro ⟨s, hs, hcalls⟩
    rw [compile_eq_ok_iff.mpr ⟨s, hs, hcalls, rfl⟩] at h
    cases h
  | ok f =>
    obtain ⟨s, hs, hcalls, -⟩ := compile_eq_ok_iff.mp h
    simp only [reduceCtorEq, exists_false, false_iff, not_not]
    exact ⟨s, hs, hcalls⟩

end RangeCalc
