import RangeCalc.Proofs.Fallible
import RangeCalc.Proofs.Formula.Language

/-!
# Where a text is refused

A text that is no formula is refused at the first place where it cannot go on.

* `Reading.completes`: from any place the reader may come to, some tokens lead to a phrase;
* `IsViable`, `viable_of_foldlM`: some phrase starts with the tokens that have been read;
* `StopsAt`: what is met at a place of a text after some tokens, such that no phrase goes on;
* `Text.IsPlace`: the line and column of a place;
* `grammar_fault_first`: every fault of grammar is at such a place, and the tokens before it are viable.
-/

namespace RangeCalc

/-! ## Completing what has been read -/

namespace Reading

/-- Where an operator may come, closing every open parenthesis makes a phrase. -/
theorem close_all (stack : List (OpenBracket × OpenLevel)) : ∀ (level : OpenLevel) (a : AtomPhrase),
    ∃ r s, run? ⟨level, .operator a, stack⟩ (List.replicate stack.length .rightParen) = some r ∧
      r.finish? = some s := by
  induction stack with
  | nil => exact fun level a => ⟨_, level.close a, rfl, rfl⟩
  | cons entry stack ih =>
    obtain ⟨bracket, outer⟩ := entry
    intro level a
    rw [List.length_cons, List.replicate_succ]
    cases bracket with
    | group => exact ih outer (.group (level.close a))
    | call name args => exact ih outer (.call name (.ofReversed args (.last (level.close a))))

/-- A literal, where an operand is expected, and the parentheses that close what is open make a phrase. -/
theorem completes (r : Reading) : ∃ ts r' s, (∀ t ∈ ts, t.IsTerminal) ∧ r.run? ts = some r' ∧
    r'.finish? = some s := by
  have hclose : ∀ n, ∀ t ∈ List.replicate n Token.rightParen, t.IsTerminal := fun n t ht => by
    rw [List.eq_of_mem_replicate ht]
    trivial
  obtain ⟨level, mayClose | a, stack⟩ := r
  · have hzero : (Token.number ['0']).IsTerminal :=
      .mantissa (.whole ⟨List.cons_ne_nil _ _, List.forall_mem_singleton.mpr (by decide)⟩)
    obtain ⟨r, s, hr, hs⟩ := close_all stack level (.number ['0'])
    exact ⟨.number ['0'] :: List.replicate stack.length .rightParen, r, s,
      List.forall_mem_cons.mpr ⟨hzero, hclose _⟩, hr, hs⟩
  · obtain ⟨r, s, hr, hs⟩ := close_all stack level a
    exact ⟨_, r, s, hclose _, hr, hs⟩

end Reading

/-! ## Viable tokens -/

/-- Some phrase of terminals starts with the tokens. -/
def IsViable (ts : List Token) : Prop :=
  ∃ s : SumPhrase, (∀ t ∈ s.tokens, t.IsTerminal) ∧ ts <+: s.tokens

/-- What a phrase starts with is read. -/
theorem exists_run_of_prefix {s : SumPhrase} {ts : List Token} (h : ts <+: s.tokens) :
    ∃ r, Reading.start.run? ts = some r := by
  obtain ⟨us, hus⟩ := h
  obtain ⟨r, hr, -⟩ := s.run_tokens
  rw [← hus, Reading.run?_append, Option.bind_eq_some_iff] at hr
  obtain ⟨r', hr', -⟩ := hr
  exact ⟨r', hr'⟩

/-- What the reader of trees has read is what the reader of phrases has. -/
theorem exists_run_of_foldlM {ts : List Token} {state : ParserState}
    (h : ts.foldlM ParserState.step? .start = some state) :
    ∃ r, Reading.start.run? ts = some r ∧ r.Proper ∧ r.erase = state := by
  have herase := Reading.erase_run? Reading.proper_start ts
  rw [show Reading.start.erase = .start from rfl, h, Option.map_eq_some_iff] at herase
  obtain ⟨r, hr, hstate⟩ := herase
  exact ⟨r, hr, Reading.proper_of_run Reading.proper_start hr, hstate⟩

/-- Some phrase starts with the tokens that have been read. -/
theorem viable_of_foldlM {ts : List Token} {state : ParserState}
    (h : ts.foldlM ParserState.step? .start = some state) (hts : ∀ t ∈ ts, t.IsTerminal) : IsViable ts := by
  obtain ⟨r, hr, hproper, -⟩ := exists_run_of_foldlM h
  obtain ⟨us, r', s, hus, hr', hs⟩ := r.completes
  have htokens : s.tokens = ts ++ us := by
    rw [Reading.tokens_of_finish hs, Reading.tokens_of_run hproper hr',
      Reading.tokens_of_run Reading.proper_start hr]
    rfl
  exact ⟨s, htokens ▸ List.forall_mem_append.mpr ⟨hts, hus⟩, us, htokens.symm⟩

/-- No phrase goes on with a token that is refused. -/
theorem not_prefix_of_refused {before : List Token} {t : Token} {state : ParserState}
    (h : before.foldlM ParserState.step? .start = some state) (hstep : state.step? t = none)
    (s : SumPhrase) : ¬ before ++ [t] <+: s.tokens := by
  obtain ⟨r, hr, hproper, rfl⟩ := exists_run_of_foldlM h
  intro hprefix
  obtain ⟨r', hr'⟩ := exists_run_of_prefix hprefix
  rw [Reading.run?_append, hr, Option.bind_some, Reading.run?_cons, Option.bind_eq_some_iff] at hr'
  obtain ⟨next, hnext, -⟩ := hr'
  rw [← Reading.erase_step? hproper, hnext] at hstep
  cases hstep

/-- No phrase ends where the end of the text is refused. -/
theorem tokens_ne_of_unfinished {before : List Token} {state : ParserState}
    (h : before.foldlM ParserState.step? .start = some state) (hfinish : state.finish? = none)
    (s : SumPhrase) : s.tokens ≠ before := by
  obtain ⟨r, hr, -, rfl⟩ := exists_run_of_foldlM h
  rintro rfl
  obtain ⟨r', hr', hs⟩ := s.run_tokens
  obtain rfl := Option.some.inj (hr.symm.trans hr')
  rw [← Reading.erase_finish?, hs] at hfinish
  cases hfinish

/-- A run is a fold of steps up to the first token that is refused. -/
theorem ParserState.run_eq_cons {state final : ParserState} {placed rest : List PlacedToken}
    {p : PlacedToken} (h : state.run placed = (final, p :: rest)) :
    ∃ before, placed = before ++ p :: rest ∧
      (before.map (·.token)).foldlM step? state = some final ∧ final.step? p.token = none := by
  induction placed generalizing state with
  | nil => simp [run] at h
  | cons q placed ih =>
    rw [run] at h
    cases hnext : state.step? q.token with
    | none =>
      rw [hnext] at h
      cases h
      exact ⟨[], rfl, rfl, hnext⟩
    | some next =>
      rw [hnext] at h
      obtain ⟨before, rfl, hfold, hstep⟩ := ih h
      refine ⟨q :: before, rfl, ?_, hstep⟩
      rw [List.map_cons, List.foldlM_cons, hnext]
      exact hfold

/-! ## Places of a text -/

theorem Splits.isTerminal {cs : List Char} {ts : List Token} (h : Splits cs ts) :
    ∀ t ∈ ts, t.IsTerminal := by
  induction h with
  | nil => exact List.forall_mem_nil _
  | blank _ _ ih => exact ih
  | token ht _ _ ih => exact List.forall_mem_cons.mpr ⟨ht, ih⟩

/-- The longest part at the front of a text is the longest one without the end of the text, too. -/
theorem Front.of_append {P : List Char → Prop} {front rest tail : List Char}
    (h : Front P (front ++ (rest ++ tail)) front (rest ++ tail)) : Front P (front ++ rest) front rest where
  holds := h.holds
  split := rfl
  longest other hother hprefix :=
    h.longest other hother (by rw [← List.append_assoc]; exact hprefix.trans (List.prefix_append _ _))

/-- What stands at a place of a text after some tokens. -/
def After (text : List Char) (before : List Token) (offset : Nat) (back : List Char) : Prop :=
  ∃ front, text = front ++ back ∧ front.length = offset ∧ Splits front before

namespace After

variable {text rest back : List Char} {before : List Token} {offset : Nat}

theorem refl (text : List Char) : After text [] 0 text :=
  ⟨[], rfl, rfl, .nil⟩

theorem blank {c : Char} (hc : isTokenBlank c = true) (h : After rest before offset back) :
    After (c :: rest) before (offset + 1) back := by
  obtain ⟨front, rfl, rfl, hsplits⟩ := h
  exact ⟨c :: front, rfl, rfl, .blank hc hsplits⟩

theorem token {t : Token} (ht : t.IsTerminal) (hfront : Front IsTokenText text t.chars rest)
    (h : After rest before offset back) : After text (t :: before) (t.chars.length + offset) back := by
  obtain ⟨front, rfl, rfl, hsplits⟩ := h
  obtain rfl := hfront.split
  exact ⟨t.chars ++ front, (List.append_assoc ..).symm, List.length_append, .token ht hfront.of_append hsplits⟩

theorem isTerminal (h : After text before offset back) : ∀ t ∈ before, t.IsTerminal := by
  obtain ⟨front, -, -, hsplits⟩ := h
  exact hsplits.isTerminal

end After

/-- The token at a place of a text, after some tokens. -/
def TokenAfter (text : List Char) (before : List Token) (offset : Nat) (t : Token) : Prop :=
  t.IsTerminal ∧ ∃ back rest, After text before offset back ∧ Front IsTokenText back t.chars rest

/-- The character at a place of a text, after some tokens, that starts no token. -/
def StrayAfter (text : List Char) (before : List Token) (offset : Nat) (c : Char) : Prop :=
  isTokenBlank c = false ∧ ∃ rest, After text before offset (c :: rest) ∧ NoFront IsTokenText (c :: rest)

/-! ## The places of tokens -/

namespace Lexed

/-- Every token stands at its place, and so does the character that starts none. -/
theorem places_fromOffset (start : Nat) (text : List Char) :
    (∀ before p after, (fromOffset start 0 text).tokens = before ++ p :: after →
      ∃ offset, p.offset = start + offset ∧ TokenAfter text (before.map (·.token)) offset p.token) ∧
    (∀ place, (fromOffset start 0 text).stray = some place →
      ∃ offset c, place = start + offset ∧
        StrayAfter text ((fromOffset start 0 text).tokens.map (·.token)) offset c) := by
  induction hn : text.length using Nat.strongRecOn generalizing text start with
  | ind n ih =>
    subst hn
    rcases text with - | ⟨c, rest⟩
    · simp [fromOffset]
    by_cases hc : isTokenBlank c = true
    · obtain ⟨htokens, hstray⟩ := ih _ (Nat.lt_succ_self _) (start + 1) rest rfl
      rw [fromOffset_blank hc]
      constructor
      · intro before p after h
        obtain ⟨offset, hoffset, ht, back, rest', hafter, hfront⟩ := htokens before p after h
        exact ⟨offset + 1, by omega, ht, back, rest', hafter.blank hc, hfront⟩
      · intro place h
        obtain ⟨offset, d, hoffset, hd, rest', hafter, hno⟩ := hstray place h
        exact ⟨offset + 1, d, by omega, hd, rest', hafter.blank hc, hno⟩
    · have hc := Bool.of_not_eq_true hc
      cases h : token? (c :: rest) with
      | none =>
        rw [fromOffset_stray start hc h]
        refine ⟨by simp, fun place hplace => ?_⟩
        obtain rfl := Option.some.inj hplace
        exact ⟨0, c, rfl, hc, rest, .refl _, token?_eq_none_iff.mp h⟩
      | some result =>
        obtain ⟨t, after⟩ := result
        obtain ⟨ht, hfront⟩ := token?_eq_some_iff.mp h
        have hlength : after.length < (c :: rest).length := by
          rw [hfront.split, List.length_append]
          have := List.length_pos_iff.mpr ht.chars_ne_nil
          omega
        obtain ⟨htokens, hstray⟩ := ih _ hlength (start + t.chars.length) after rfl
        rw [fromOffset_token start hc h]
        constructor
        · intro before p following heq
          rcases before with - | ⟨q, before⟩
          · obtain ⟨rfl, -⟩ := List.cons.inj heq
            exact ⟨0, rfl, ht, _, after, .refl _, hfront⟩
          · obtain ⟨rfl, hrest⟩ := List.cons.inj heq
            obtain ⟨offset, hoffset, hp, back, rest', hafter, hfront'⟩ := htokens before p following hrest
            exact ⟨t.chars.length + offset, by rw [hoffset, Nat.add_assoc], hp, back, rest',
              hafter.token ht hfront, hfront'⟩
        · intro place hplace
          obtain ⟨offset, d, hoffset, hd, rest', hafter, hno⟩ := hstray place hplace
          exact ⟨t.chars.length + offset, d, by rw [hoffset, Nat.add_assoc], hd, rest',
            hafter.token ht hfront, hno⟩

theorem tokenAfter {text : List Char} {before after : List PlacedToken} {p : PlacedToken}
    (h : (ofChars text).tokens = before ++ p :: after) :
    TokenAfter text (before.map (·.token)) p.offset p.token := by
  obtain ⟨offset, hoffset, htoken⟩ := (places_fromOffset 0 text).1 before p after h
  rw [hoffset, Nat.zero_add]
  exact htoken

theorem strayAfter {text : List Char} {offset : Nat} (h : (ofChars text).stray = some offset) :
    ∃ c, StrayAfter text ((ofChars text).tokens.map (·.token)) offset c := by
  obtain ⟨place, c, hplace, hstray⟩ := (places_fromOffset 0 text).2 offset h
  rw [hplace, Nat.zero_add]
  exact ⟨c, hstray⟩

end Lexed

/-! ## Faults of grammar -/

/-- What is met at a place of a text after some tokens, so that no phrase goes on. The end of a text is
placed at its last token, or at the start of the text. -/
inductive StopsAt (text : List Char) (before : List Token) : Unexpected → Nat → Prop where
  | token {t : Token} {offset : Nat} (ht : TokenAfter text before offset t)
      (hno : ∀ s : SumPhrase, ¬ before ++ [t] <+: s.tokens) : StopsAt text before (.token t) offset
  | char {c : Char} {offset : Nat} (hc : StrayAfter text before offset c) :
      StopsAt text before (.char c) offset
  | endOfText {offset : Nat} (hsplits : Splits text before) (hno : ∀ s : SumPhrase, s.tokens ≠ before)
      (hplace : (before = [] ∧ offset = 0) ∨
        ∃ init t, before = init ++ [t] ∧ TokenAfter text init offset t) :
      StopsAt text before .endOfText offset

theorem StrayAfter.getD {text : List Char} {before : List Token} {offset : Nat} {c : Char}
    (h : StrayAfter text before offset c) : text[offset]?.getD ' ' = c := by
  obtain ⟨-, rest, ⟨front, rfl, rfl, -⟩, -⟩ := h
  rw [List.getElem?_append_right (Nat.le_refl _), Nat.sub_self]
  rfl

/-- The end of a text stands at its last token. -/
theorem Lexed.endPlace (text : List Char) :
    let before := (ofChars text).tokens.map (·.token)
    let offset := ((ofChars text).tokens.getLast?.map (·.offset)).getD 0
    (before = [] ∧ offset = 0) ∨ ∃ init t, before = init ++ [t] ∧ TokenAfter text init offset t := by
  rcases List.eq_nil_or_concat (ofChars text).tokens with hnil | ⟨init, p, hlast⟩
  · left
    simp [hnil]
  · right
    rw [List.concat_eq_append] at hlast
    refine ⟨init.map (·.token), p.token, by simp [hlast], ?_⟩
    simpa [hlast] using tokenAfter hlast

/-- A fault of grammar is at the first place where no phrase goes on. -/
theorem viable_and_stops {text : List Char} {fault : GrammarFault} (h : parse text = .error fault) :
    fault.text = text ∧
      ∃ before, IsViable before ∧ StopsAt text before fault.unexpected fault.offset := by
  rw [parse] at h
  rcases hrun : ParserState.start.run (Lexed.ofChars text).tokens with ⟨state, - | ⟨p, refused⟩⟩
  · have hfold := ParserState.run_eq_nil_iff.mp hrun
    rw [hrun] at h
    cases hstray : (Lexed.ofChars text).stray with
    | some offset =>
      rw [hstray] at h
      obtain rfl := Except.error.inj h
      obtain ⟨c, hc⟩ := Lexed.strayAfter hstray
      have hgetD := hc.getD
      obtain ⟨hblank, rest, hafter, hno⟩ := hc
      refine ⟨rfl, _, viable_of_foldlM hfold hafter.isTerminal, ?_⟩
      dsimp only
      rw [hgetD]
      exact .char ⟨hblank, rest, hafter, hno⟩
    | none =>
      rw [hstray] at h
      dsimp only at h
      have hsplits : Splits text _ := Lexed.splits_iff.mpr ⟨hstray, rfl⟩
      cases hfinish : state.finish? with
      | some tree =>
        rw [hfinish] at h
        cases h
      | none =>
        rw [hfinish] at h
        obtain rfl := Except.error.inj h
        exact ⟨rfl, _, viable_of_foldlM hfold hsplits.isTerminal,
          .endOfText hsplits (tokens_ne_of_unfinished hfold hfinish) (Lexed.endPlace text)⟩
  · obtain ⟨before, hbefore, hfold, hstep⟩ := ParserState.run_eq_cons hrun
    rw [hrun] at h
    obtain rfl := Except.error.inj h
    obtain ⟨ht, back, rest, hafter, hfront⟩ := Lexed.tokenAfter hbefore
    exact ⟨rfl, _, viable_of_foldlM hfold hafter.isTerminal,
      .token ⟨ht, back, rest, hafter, hfront⟩ (not_prefix_of_refused hfold hstep)⟩

/-! ## Faults of texts -/

/-- A place of a text is at a line and column, both counted from one: as many line feeds end lines before
it, and so many characters stand before it on its own line. -/
def Text.IsPlace (text : List Char) (offset line column : Nat) : Prop :=
  ∃ earlier current, text.take offset = earlier ++ current ∧ '\n' ∉ current ∧
    (earlier = [] ∨ ∃ init, earlier = init ++ ['\n']) ∧
    line = earlier.count '\n' + 1 ∧ column = current.length + 1

theorem Text.isPlace (text : List Char) (offset : Nat) :
    IsPlace text offset (lineAt text offset) (columnAt text offset) := by
  generalize hbefore : text.take offset = before
  have hnot : '\n' ∉ lineBefore before := fun h => by
    simpa using List.mem_takeWhile_imp (List.mem_reverse.mp h)
  have hsplit : before = (before.reverse.dropWhile (· != '\n')).reverse ++ lineBefore before := by
    rw [lineBefore, ← List.reverse_append, List.takeWhile_append_dropWhile, List.reverse_reverse]
  refine ⟨_, _, hbefore.trans hsplit, hnot, ?_, ?_, by rw [columnAt, hbefore]⟩
  · cases hrest : before.reverse.dropWhile (· != '\n') with
    | nil => exact .inl rfl
    | cons c rest =>
      have hc := List.head?_dropWhile_not (· != '\n') before.reverse
      rw [hrest] at hc
      obtain rfl : c = '\n' := by simpa using hc
      exact .inr ⟨rest.reverse, List.reverse_cons⟩
  · rw [lineAt, hbefore]
    conv_lhs => rw [hsplit]
    rw [List.count_append, List.count_eq_zero_of_not_mem hnot, Nat.add_zero]

/-! Looking up names gives no fault of grammar. -/

theorem Formula.applyNamed_ne_grammar (name : String) (args : List (Formula Float))
    (fault : GrammarFault) : applyNamed name args ≠ .error (.grammar fault) := by
  intro h
  rw [applyNamed] at h
  split at h
  · rw [apply.eq_def] at h
    split at h
    · cases h
    · cases h
    · split at h <;> cases h
    · cases h
  · cases h

mutual

theorem Tree.resolve_ne_grammar (fault : GrammarFault) : ∀ t : Tree, t.resolve ≠ .error (.grammar fault)
  | number _ => by
    rw [resolve]
    rintro ⟨⟩
  | name _ => by
    rw [resolve]
    rintro ⟨⟩
  | signed _ operand => by
    rw [resolve, Ne, bind_eq_error]
    rintro (h | ⟨_, -, ⟨⟩⟩)
    exact operand.resolve_ne_grammar fault h
  | binary _ lhs rhs => by
    rw [resolve, Ne, bind_eq_error]
    rintro (h | ⟨_, -, h⟩)
    · exact lhs.resolve_ne_grammar fault h
    · rw [bind_eq_error] at h
      rcases h with h | ⟨_, -, ⟨⟩⟩
      exact rhs.resolve_ne_grammar fault h
  | call _ args => by
    rw [resolve, Ne, bind_eq_error]
    rintro (h | ⟨_, -, h⟩)
    · exact resolveAll_ne_grammar fault args h
    · exact Formula.applyNamed_ne_grammar _ _ fault h

theorem Tree.resolveAll_ne_grammar (fault : GrammarFault) :
    ∀ ts : List Tree, resolveAll ts ≠ .error (.grammar fault)
  | [] => by
    rw [resolveAll]
    rintro ⟨⟩
  | t :: ts => by
    rw [resolveAll, Ne, bind_eq_error]
    rintro (h | ⟨_, -, h⟩)
    · exact t.resolve_ne_grammar fault h
    · rw [bind_eq_error] at h
      rcases h with h | ⟨_, -, ⟨⟩⟩
      exact resolveAll_ne_grammar fault ts h

end

theorem compile_eq_grammar_iff {text : String} {fault : GrammarFault} :
    compile text = .error (.grammar fault) ↔ parse text.toList = .error fault := by
  rw [compile]
  cases parse text.toList with
  | error other => simp
  | ok tree => exact iff_of_false (tree.resolve_ne_grammar fault) (by rintro ⟨⟩)

/-- A text that is refused for its grammar is refused at the first place where it cannot go on: some phrase
starts with the tokens before that place and none goes on with what stands there. The report names the
line and column of the place. -/
theorem grammar_fault_first {text : String} {fault : GrammarFault}
    (h : compile text = .error (.grammar fault)) :
    fault.text = text.toList ∧
      (∃ before, IsViable before ∧ StopsAt text.toList before fault.unexpected fault.offset) ∧
      Text.IsPlace text.toList fault.offset fault.line fault.column := by
  obtain ⟨htext, hstops⟩ := viable_and_stops (compile_eq_grammar_iff.mp h)
  refine ⟨htext, hstops, ?_⟩
  rw [GrammarFault.line, GrammarFault.column, htext]
  exact Text.isPlace _ _

/-- The second of two literals beside each other is refused. -/
theorem besideLiteral_fault_first : ∃ fault, compile "1 +\n2 3" = .error (.grammar fault) ∧
    fault.unexpected = .token (.number ['3']) ∧ fault.line = 2 ∧ fault.column = 3 ∧
    fault.text = "1 +\n2 3".toList ∧
      (∃ before, IsViable before ∧ StopsAt "1 +\n2 3".toList before fault.unexpected fault.offset) ∧
      Text.IsPlace "1 +\n2 3".toList fault.offset fault.line fault.column :=
  ⟨_, rfl, by decide +kernel, by decide +kernel, by decide +kernel, grammar_fault_first rfl⟩

end RangeCalc
