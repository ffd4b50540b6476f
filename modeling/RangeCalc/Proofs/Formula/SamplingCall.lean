import Mathlib
import RangeCalc.Proofs.Formula.Language

/-!
# Sampling calls in a text

A formula is probabilistic exactly if a name of a sampling function stands before an opening parenthesis
in its text, in any case of its letters and with or without white space between the two.

* `calledNames`: the names before opening parentheses among some tokens;
* `SumPhrase.calls`: those of a phrase name functions, and decide whether its formula is probabilistic;
* `WritesCall`: a text writes a name before an opening parenthesis;
* `Splits.mem_calledNames_iff`: what is called among the tokens of a text is what its text writes so;
* `compile_isProbabilistic_iff`: the formulas that are probabilistic.
-/

namespace RangeCalc

open Text

/-- The names directly before opening parentheses. -/
def calledNames : List Token → List (List Char)
  | [] => []
  | .name n :: rest =>
    if rest.head? = some .leftParen then n :: calledNames rest else calledNames rest
  | _ :: rest => calledNames rest

theorem calledNames_cons {t : Token} (ht : ∀ n, t ≠ .name n) (ts : List Token) :
    calledNames (t :: ts) = calledNames ts := by
  cases t with
  | name n => exact absurd rfl (ht n)
  | _ => rfl

theorem calledNames_append (ts : List Token) {us : List Token} (hus : us.head? ≠ some .leftParen) :
    calledNames (ts ++ us) = calledNames ts ++ calledNames us := by
  induction ts with
  | nil => rfl
  | cons t ts ih =>
    cases t with
    | name n =>
      have hhead : (ts ++ us).head? = some .leftParen ↔ ts.head? = some .leftParen := by
        cases ts with
        | nil => simpa using hus
        | cons u ts => rfl
      simp only [List.cons_append, calledNames, hhead, ih]
      split <;> rfl
    | _ => exact ih

theorem mem_calledNames_cons (t : Token) {ts : List Token} {name : List Char}
    (h : name ∈ calledNames ts) : name ∈ calledNames (t :: ts) := by
  cases t with
  | name n =>
    rw [calledNames]
    split
    · exact List.mem_cons_of_mem n h
    · exact h
  | _ => exact h

/-! ## Phrases -/

/-- Whether a function is one that draws or speaks of a range. -/
def Function.isSampling : Function → Bool
  | .math _ => false
  | .uniform => true
  | .sample => true

/-- Whether a name is that of a sampling function. -/
def isSamplingName (name : List Char) : Bool :=
  (Function.ofName? (String.ofList name)).any Function.isSampling

/-- All calls among some tokens are of functions, and one of them samples if a formula does. -/
structure Calls (ts : List Token) (isProbabilistic : Bool) : Prop where
  known : ∀ n ∈ calledNames ts, (Function.ofName? (String.ofList n)).isSome = true
  sampling : isProbabilistic = (calledNames ts).any isSamplingName

namespace Calls

variable {ts us : List Token} {p q : Bool}

theorem single {t : Token} : Calls [t] false := by
  have hnil : calledNames [t] = [] := by
    cases t <;> rfl
  exact ⟨by simp [hnil], by simp [hnil]⟩

theorem cons {t : Token} (ht : ∀ n, t ≠ .name n) (h : Calls ts p) : Calls (t :: ts) p := by
  constructor
  · rw [calledNames_cons ht]
    exact h.known
  · rw [calledNames_cons ht]
    exact h.sampling

theorem append (hus : us.head? ≠ some .leftParen) (h : Calls ts p) (h' : Calls us q) :
    Calls (ts ++ us) (p || q) := by
  constructor
  · rw [calledNames_append ts hus]
    exact List.forall_mem_append.mpr ⟨h.known, h'.known⟩
  · rw [calledNames_append ts hus, List.any_append, h.sampling, h'.sampling]

/-- Two phrases with an operator or a comma between them. -/
theorem between {t : Token} (ht : ∀ n, t ≠ .name n) (hparen : t ≠ .leftParen) (h : Calls ts p)
    (h' : Calls us q) : Calls (ts ++ t :: us) (p || q) :=
  h.append (by simpa using hparen) (h'.cons ht)

theorem group (h : Calls ts p) : Calls (.leftParen :: ts ++ [.rightParen]) p := by
  have hclose : [Token.rightParen].head? ≠ some .leftParen := by decide
  have hopen : Calls (.leftParen :: ts) p := h.cons nofun
  rw [← Bool.or_false p]
  exact hopen.append hclose .single

/-- A call is probabilistic if its function samples or an argument is. -/
theorem call {name : List Char} {f : Function} (hname : Function.ofName? (String.ofList name) = some f)
    (h : Calls (.leftParen :: ts) p) : Calls (.name name :: .leftParen :: ts) (f.isSampling || p) := by
  have hnames : calledNames (.name name :: .leftParen :: ts) = name :: calledNames (.leftParen :: ts) :=
    if_pos rfl
  constructor
  · rw [hnames]
    exact List.forall_mem_cons.mpr ⟨by rw [hname]; rfl, h.known⟩
  · rw [hnames, List.any_cons, ← h.sampling, isSamplingName, hname]
    rfl

end Calls

theorem nameFormula_isProbabilistic (text : List Char) : (nameFormula text).isProbabilistic = false := by
  rw [nameFormula]
  cases Constant.ofName? (String.ofList text) <;> rfl

theorem Function.onFormulas_isProbabilistic {f : Function} {args : List (Formula Float)}
    (h : f.arity.admits args.length = true) :
    (f.onFormulas args).isProbabilistic = (f.isSampling || Formula.anyProbabilistic args) := by
  cases f with
  | math f => rfl
  | uniform =>
    rcases args with - | ⟨a, - | ⟨b, - | ⟨c, rest⟩⟩⟩ <;> simp [arity, Arity.admits] at h
    rfl
  | sample =>
    rcases args with - | ⟨a, - | ⟨b, rest⟩⟩ <;> simp [arity, Arity.admits] at h
    rfl

theorem calls_callFormula {name : List Char} {args : List (Formula Float)} {ts : List Token}
    (hcall : CallAdmitted name args.length)
    (h : Calls (.leftParen :: ts) (Formula.anyProbabilistic args)) :
    Calls (.name name :: .leftParen :: ts) (callFormula name args).isProbabilistic := by
  obtain ⟨f, hname, hadmits⟩ := callAdmitted_iff.mp hcall
  have hformula : callFormula name args = f.onFormulas args := by
    rw [callFormula, hname]
    rfl
  rw [hformula, Function.onFormulas_isProbabilistic hadmits]
  exact h.call hname

/-! One lemma for each level of the grammar: the calls of a phrase decide whether its formula is
probabilistic. -/

mutual

theorem SumPhrase.calls : ∀ s : SumPhrase, s.CallsAdmitted → Calls s.tokens s.formula.isProbabilistic
  | .product p, h => p.calls h
  | .sum lhs op rhs, h =>
    (lhs.calls h.1).between (by cases op <;> exact nofun) (by cases op <;> exact nofun) (rhs.calls h.2)

theorem ProductPhrase.calls : ∀ p : ProductPhrase, p.CallsAdmitted →
    Calls p.tokens p.formula.isProbabilistic
  | .unary u, h => u.calls h
  | .product lhs op rhs, h =>
    (lhs.calls h.1).between (by cases op <;> exact nofun) (by cases op <;> exact nofun) (rhs.calls h.2)

theorem UnaryPhrase.calls : ∀ u : UnaryPhrase, u.CallsAdmitted →
    Calls u.tokens u.formula.isProbabilistic
  | .power p, h => p.calls h
  | .signed sign operand, h => (operand.calls h).cons (by cases sign <;> exact nofun)

theorem PowerPhrase.calls : ∀ p : PowerPhrase, p.CallsAdmitted →
    Calls p.tokens p.formula.isProbabilistic
  | .atom a, h => a.calls h
  | .power base op exponent, h =>
    (base.calls h.1).between (by cases op <;> exact nofun) (by cases op <;> exact nofun)
      (exponent.calls h.2)

theorem AtomPhrase.calls : ∀ a : AtomPhrase, a.CallsAdmitted →
    Calls a.tokens a.formula.isProbabilistic
  | .number text, _ => .single
  | .name text, _ => by
    rw [AtomPhrase.formula, nameFormula_isProbabilistic]
    exact .single
  | .emptyCall name, h => calls_callFormula h (Calls.single.cons nofun)
  | .call name args, h =>
    calls_callFormula (args.length_formulas ▸ h.1) (args.calls h.2).group
  | .group inner, h => (inner.calls h).group

theorem ArgumentsPhrase.calls : ∀ args : ArgumentsPhrase, args.CallsAdmitted →
    Calls args.tokens (Formula.anyProbabilistic args.formulas)
  | .last s, h => by
    rw [ArgumentsPhrase.formulas, Formula.anyProbabilistic, Formula.anyProbabilistic, Bool.or_false]
    exact s.calls h
  | .more s rest, h => (s.calls h.1).between nofun nofun (rest.calls h.2)

end

/-! ## Texts -/

/-- A text writes a name, white space and an opening parenthesis. -/
def WritesCall (name text : List Char) : Prop :=
  ∃ pre blanks post, (∀ c ∈ blanks, isTokenBlank c = true) ∧
    text = pre ++ (name ++ (blanks ++ '(' :: post))

theorem not_isNameChar_of_blank {c : Char} (h : isTokenBlank c = true ∨ c = '(') :
    isNameChar c = false := by
  rcases h with h | rfl
  · simp only [isTokenBlank, Bool.or_eq_true, beq_iff_eq] at h
    rcases h with (((rfl | rfl) | rfl) | rfl) | rfl <;> decide
  · decide

/-- The first token of a text is an opening parenthesis if that is its first character but for white
space. -/
theorem splits_leftParen_iff {text : List Char} {ts : List Token} (h : Splits text ts) :
    ts.head? = some .leftParen ↔
      ∃ blanks post, (∀ c ∈ blanks, isTokenBlank c = true) ∧ text = blanks ++ '(' :: post := by
  induction h with
  | nil => simp
  | @blank c rest ts hc _ ih =>
    rw [ih]
    constructor
    · rintro ⟨blanks, post, hblanks, rfl⟩
      exact ⟨c :: blanks, post, List.forall_mem_cons.mpr ⟨hc, hblanks⟩, rfl⟩
    · rintro ⟨blanks, post, hblanks, heq⟩
      rcases blanks with - | ⟨b, blanks⟩
      · rw [(List.cons.inj heq).1] at hc
        cases hc
      · exact ⟨blanks, post, (List.forall_mem_cons.mp hblanks).2, (List.cons.inj heq).2⟩
  | @token t cs rest ts ht hfront _ _ =>
    constructor
    · intro hhead
      obtain rfl : t = .leftParen := by simpa using hhead
      exact ⟨[], rest, nofun, hfront.split⟩
    · rintro ⟨blanks, post, hblanks, rfl⟩
      rcases blanks with - | ⟨b, blanks⟩
      · have hparen : Front IsTokenText ('(' :: post) Token.leftParen.chars post :=
          (front_symbol (t := .leftParen) trivial rfl (by decide) (by simp)).2
        rw [ht.eq_of_chars (u := .leftParen) trivial (hfront.unique hparen).1]
        rfl
      · exact absurd (noFront_blank (List.forall_mem_cons.mp hblanks).1 _) hfront.not_noFront

/-- What is called among the tokens of a text is written in it as a call. -/
theorem Splits.writesCall {text : List Char} {ts : List Token} (h : Splits text ts) {name : List Char}
    (hname : name ∈ calledNames ts) : WritesCall name text := by
  induction h with
  | nil => cases hname
  | @blank c rest ts _ _ ih =>
    obtain ⟨pre, blanks, post, hblanks, rfl⟩ := ih hname
    exact ⟨c :: pre, blanks, post, hblanks, rfl⟩
  | @token t cs rest ts _ hfront h ih =>
    have hlater : name ∈ calledNames ts → WritesCall name cs := by
      intro hmem
      obtain ⟨pre, blanks, post, hblanks, hrest⟩ := ih hmem
      exact ⟨t.chars ++ pre, blanks, post, hblanks, by rw [hfront.split, hrest, List.append_assoc]⟩
    by_cases ht : ∃ n, t = .name n
    · obtain ⟨n, rfl⟩ := ht
      rw [calledNames] at hname
      split at hname
      next hparen =>
        rcases List.mem_cons.mp hname with rfl | hmem
        · obtain ⟨blanks, post, hblanks, hrest⟩ := (splits_leftParen_iff h).mp hparen
          exact ⟨[], blanks, post, hblanks, by rw [hfront.split, hrest]; rfl⟩
        · exact hlater hmem
      next => exact hlater hname
    · rw [calledNames_cons fun n hn => ht ⟨n, hn⟩] at hname
      exact hlater hname

/-- Where a text is cut inside its front, the character after the cut is one of the front. -/
theorem Front.exists_inside {P : List Char → Prop} {pre tail l rest : List Char} {d : Char}
    (hfront : Front P (pre ++ d :: tail) l rest) (hinside : pre.length < l.length) :
    ∃ z, l = pre ++ d :: z := by
  obtain ⟨z, rfl⟩ : pre <+: l :=
    List.prefix_of_prefix_length_le (List.prefix_append ..) ⟨rest, hfront.split.symm⟩ hinside.le
  rcases z with - | ⟨d', z⟩
  · rw [List.append_nil] at hinside
    exact absurd hinside (lt_irrefl _)
  · have hsplit := hfront.split
    rw [List.append_assoc] at hsplit
    obtain ⟨rfl, -⟩ := List.cons.inj (List.append_cancel_left hsplit)
    exact ⟨z, rfl⟩

/-- Names go as far as they can, so one that is read ends where the characters of names do. -/
theorem Front.name_eq {chars l rest post : List Char} {c : Char}
    (hfront : Front IsTokenText (chars ++ c :: post) l rest) (hname : IsName l)
    (hchars : ∀ x ∈ chars, isNameChar x = true) (hc : isNameChar c = false) :
    l = chars ∧ rest = c :: post := by
  obtain @⟨a, l, hfirst, -⟩ := hname
  have ha : isNameChar a = true := by simp [isNameChar, hfirst]
  have htext : chars ++ c :: post = a :: (l ++ rest) := hfront.split
  have hlongest := (front_name hfirst (l ++ rest)).2
  rw [← htext] at hlongest
  obtain ⟨hl, hrest⟩ := hfront.unique hlongest
  rw [← List.takeWhile_cons_of_pos ha, ← htext, takeWhile_append_stop hchars hc] at hl
  rw [← List.dropWhile_cons_of_pos (a := a) ha, ← htext, dropWhile_append_stop hchars hc] at hrest
  exact ⟨hl, hrest⟩

/-- A word that starts inside a token and is followed by no character of names is the end of that token,
which is a name. -/
theorem Front.name_of_word {t : Token} {pre word rest post : List Char} {d c : Char} (ht : t.IsTerminal)
    (hfront : Front IsTokenText (pre ++ (d :: word ++ c :: post)) t.chars rest)
    (hinside : pre.length < t.chars.length) (hword : ∀ x ∈ d :: word, isNameStart x = true)
    (hd : d ≠ 'e' ∧ d ≠ 'E') (hc : isNameChar c = false) :
    t = .name (pre ++ d :: word) ∧ rest = c :: post := by
  have hstart : isNameStart d = true := hword d List.mem_cons_self
  obtain ⟨z, hz⟩ := hfront.exists_inside hinside
  have hmem : d ∈ t.chars := by
    rw [hz]
    simp
  have hsymbol : ∀ x, isNameStart x = false → d ≠ x := by
    rintro x hx rfl
    rw [hstart] at hx
    cases hx
  cases t with
  | number l =>
    rcases IsNumber.mem ht hmem with (h | h) | h | h | h
    · simpa [isNumberStart, h] using not_isNumberStart_of_isNameStart hstart
    · exact absurd h (hsymbol '.' (by decide))
    · tauto
    · exact absurd h (hsymbol '+' (by decide))
    · exact absurd h (hsymbol '-' (by decide))
  | name l =>
    have hchars : ∀ x ∈ pre ++ d :: word, isNameChar x = true := by
      have hl : ∀ x ∈ l, isNameChar x = true := by
        obtain ⟨hfirst, hothers⟩ := ht
        exact List.forall_mem_cons.mpr ⟨by simp [isNameChar, hfirst], hothers⟩
      have hpre : ∀ x ∈ pre, isNameChar x = true := fun x hx =>
        hl x (by rw [show l = pre ++ d :: z from hz]; exact List.mem_append_left _ hx)
      exact List.forall_mem_append.mpr ⟨hpre, fun x hx => by simp [isNameChar, hword x hx]⟩
    rw [← List.append_assoc] at hfront
    obtain ⟨hname, hrest⟩ := hfront.name_eq ht hchars hc
    exact ⟨congrArg Token.name hname, hrest⟩
  | doubleStar =>
    rcases List.mem_cons.mp hmem with h | h
    · exact absurd h (hsymbol '*' (by decide))
    · exact absurd (List.mem_singleton.mp h) (hsymbol '*' (by decide))
  | _ => exact absurd (List.mem_singleton.mp hmem) (hsymbol _ (by decide))

/-- A word of letters that is written in a text as a call is the end of a name called among its tokens. -/
theorem Splits.exists_called {text : List Char} {ts : List Token} (h : Splits text ts) {d : Char}
    {word : List Char} (hword : ∀ x ∈ d :: word, isNameStart x = true) (hd : d ≠ 'e' ∧ d ≠ 'E')
    (hcall : WritesCall (d :: word) text) : ∃ name ∈ calledNames ts, d :: word <:+ name := by
  obtain ⟨pre, blanks, post, hblanks, htext⟩ := hcall
  induction h generalizing pre with
  | nil => simp at htext
  | @blank b rest ts hb _ ih =>
    rcases pre with - | ⟨p, pre⟩
    · obtain ⟨rfl, -⟩ := List.cons.inj htext
      have := not_isNameChar_of_blank (.inl hb)
      simp [isNameChar, hword b List.mem_cons_self] at this
    · exact ih pre (List.cons.inj htext).2
  | @token t cs rest ts ht hfront h ih =>
    by_cases hinside : pre.length < t.chars.length
    · obtain ⟨c, tail, htail, hc⟩ : ∃ c tail, blanks ++ '(' :: post = c :: tail ∧ isNameChar c = false := by
        rcases blanks with - | ⟨b, blanks⟩
        · exact ⟨_, _, rfl, by decide⟩
        · exact ⟨_, _, rfl, not_isNameChar_of_blank (.inl (hblanks b List.mem_cons_self))⟩
      rw [htext, htail] at hfront
      obtain ⟨rfl, rfl⟩ := Front.name_of_word ht hfront hinside hword hd hc
      have hparen : ts.head? = some .leftParen :=
        (splits_leftParen_iff h).mpr ⟨blanks, post, hblanks, htail.symm⟩
      refine ⟨pre ++ d :: word, ?_, List.suffix_append ..⟩
      rw [calledNames, if_pos hparen]
      exact List.mem_cons_self
    · obtain ⟨pre', rfl⟩ : t.chars <+: pre :=
        List.prefix_of_prefix_length_le ⟨rest, hfront.split.symm⟩ ⟨_, htext.symm⟩ (not_lt.mp hinside)
      have hrest : rest = pre' ++ (d :: word ++ (blanks ++ '(' :: post)) := by
        have hsplit := hfront.split
        rw [htext, List.append_assoc] at hsplit
        exact (List.append_cancel_left hsplit).symm
      obtain ⟨name, hname, hsuffix⟩ := ih pre' hrest
      exact ⟨name, mem_calledNames_cons t hname, hsuffix⟩

/-! ## Names of sampling functions -/

/-- The names of the sampling functions. -/
def samplingWords : List (List Char) :=
  ["sample".toList, "uniform".toList]

theorem toLower_of_not_isAlpha {c d : Char} (hd : d.isAlpha = false) : c.toLower = d ↔ c = d := by
  have hlower : ∀ x : Char, x.isAlpha = false → x.toLower = x := fun x hx =>
    Char.toLower_eq_of_not_isUpper fun hupper => by simp [Char.isAlpha, hupper] at hx
  constructor
  · intro h
    have hc : c.isAlpha = false := by rw [← Char.isAlpha_toLower_eq_isAlpha, h, hd]
    rw [← h, hlower c hc]
  · rintro rfl
    exact hlower c hd

theorem isNameStart_of_isAlpha {c : Char} (h : c.isAlpha = true) : isNameStart c = true := by
  simp only [Char.isAlpha, Char.isUpper, Char.isLower, Bool.or_eq_true, Bool.and_eq_true,
    decide_eq_true_eq, ge_iff_le, UInt32.le_iff_toNat_le] at h
  simp only [isNameStart, isAsciiLetter, Bool.or_eq_true, Bool.and_eq_true, decide_eq_true_eq]
  exact .inr h.symm

theorem toList_toLower (name : List Char) : (String.ofList name).toLower.toList = lowerAscii name := by
  rw [String.toLower, String.toList_map, String.toList_ofList]
  rfl

/-- A function is known to sample by the end of its name. -/
theorem Function.isSampling_iff {f : Function} (hf : f ∈ all) :
    f.isSampling = true ↔ ∃ word ∈ samplingWords, word <:+ f.name.toList := by
  have hall : ∀ f ∈ all, f.isSampling = true ↔ ∃ word ∈ samplingWords, word <:+ f.name.toList := by
    decide +kernel
  exact hall f hf

/-- The names of sampling functions are the sampling words, in any case. -/
theorem isSamplingName_iff {name : List Char} :
    isSamplingName name = true ↔
      (Function.ofName? (String.ofList name)).isSome = true ∧
        ∃ word ∈ samplingWords, word <:+ lowerAscii name := by
  rw [isSamplingName]
  cases h : Function.ofName? (String.ofList name) with
  | none => simp
  | some f =>
    obtain ⟨hf, hname⟩ := Function.ofName?_eq_some_iff.mp h
    simp only [Option.any_some, Option.isSome_some, true_and, Function.isSampling_iff hf, hname,
      toList_toLower]

theorem lowerAscii_mem_samplingWords {name : List Char} (h : isSamplingName name = true) :
    lowerAscii name ∈ samplingWords := by
  have hall : ∀ f ∈ Function.all, f.isSampling = true → f.name.toList ∈ samplingWords := by
    decide +kernel
  rw [isSamplingName, Option.any_eq_true] at h
  obtain ⟨f, hsome, hf⟩ := h
  obtain ⟨hmem, hname⟩ := Function.ofName?_eq_some_iff.mp hsome
  rw [← toList_toLower, ← hname]
  exact hall f hmem hf

/-- What sampling words are made of. -/
theorem samplingWord_letters {name : List Char} (h : lowerAscii name ∈ samplingWords) :
    ∃ d rest, name = d :: rest ∧ (∀ c ∈ d :: rest, isNameStart c = true) ∧ d ≠ 'e' ∧ d ≠ 'E' := by
  have hall : ∀ word ∈ samplingWords, word ≠ [] ∧ word.head? ≠ some 'e' ∧ ∀ c ∈ word, c.isAlpha = true := by
    simp [samplingWords, Char.isAlpha, Char.isUpper, Char.isLower]
  obtain ⟨hne, hfirst, hletters⟩ := hall _ h
  have hstart : ∀ c ∈ name, isNameStart c = true := fun c hc =>
    isNameStart_of_isAlpha (by
      rw [← Char.isAlpha_toLower_eq_isAlpha]
      exact hletters _ (List.mem_map_of_mem hc))
  obtain ⟨d, rest, rfl⟩ : ∃ d rest, name = d :: rest :=
    List.exists_cons_of_ne_nil fun hnil => hne (by rw [hnil]; rfl)
  have hnot : ∀ c : Char, c.toLower = 'e' → d ≠ c := by
    rintro c hc rfl
    exact hfirst (congrArg some hc)
  exact ⟨d, rest, rfl, hstart, hnot 'e' (by decide), hnot 'E' (by decide)⟩

/-! ## Formulas of a text -/

/-- A formula is probabilistic exactly if its text writes a call of a sampling function, in any case of
the letters and with any white space before the parenthesis. -/
theorem compile_isProbabilistic_iff {text : String} {f : Formula Float} (h : compile text = .ok f) :
    f.isProbabilistic = true ↔
      ∃ name, lowerAscii name ∈ samplingWords ∧ WritesCall name text.toList := by
  obtain ⟨s, hsplits, hadmitted, rfl⟩ := compile_eq_ok_iff.mp h
  obtain ⟨hknown, hsampling⟩ := s.calls hadmitted
  rw [hsampling, List.any_eq_true]
  constructor
  · rintro ⟨name, hmem, hname⟩
    exact ⟨name, lowerAscii_mem_samplingWords hname, hsplits.writesCall hmem⟩
  · rintro ⟨name, hname, hcall⟩
    obtain ⟨d, rest, rfl, hstart, hd⟩ := samplingWord_letters hname
    obtain ⟨called, hmem, hsuffix⟩ := hsplits.exists_called hstart hd hcall
    exact ⟨called, hmem, isSamplingName_iff.mpr ⟨hknown called hmem, _, hname, hsuffix.map _⟩⟩

end RangeCalc
