import RangeCalc.Formula.Token
import RangeCalc.Proofs.Number.Literal
import RangeCalc.Proofs.Text.Character

/-!
# Splitting a text into tokens

* `Token.IsTerminal`: the tokens of the grammar;
* `token?_eq_some_iff`, `token?_eq_none_iff`: the longest token at the front of a text is read;
* `Splits`: a text as tokens, each as long as possible, with white space between them;
* `Lexed.splits_iff`: the tokens of a text.
-/

namespace RangeCalc

open Text

inductive IsName : List Char → Prop where
  | intro {c : Char} {rest : List Char} (hc : isNameStart c = true)
      (hr : ∀ d ∈ rest, isNameChar d = true) : IsName (c :: rest)

def Token.IsTerminal : Token → Prop
  | number text => IsNumber text
  | name text => IsName text
  | _ => True

/-- The texts of tokens. -/
def IsTokenText (cs : List Char) : Prop :=
  ∃ t : Token, t.IsTerminal ∧ t.chars = cs

/-! ## Which characters start which token -/

def isSymbol (c : Char) : Bool :=
  ['*', '+', '-', '/', '^', '(', ')', ','].elem c

theorem not_isNumberStart_of_isNameStart {c : Char} (h : isNameStart c = true) :
    isNumberStart c = false := by
  have hpoint : c ≠ '.' := by
    rintro rfl
    revert h
    decide
  simp [isNumberStart, not_isDigit_of_isNameStart h, hpoint]

theorem not_isName_cons {c : Char} {rest : List Char} (h : isNameStart c = false) :
    ¬ IsName (c :: rest) := by
  rintro ⟨hc, -⟩
  rw [h] at hc
  cases hc

theorem IsNumber.not_isName {l : List Char} (hl : IsNumber l) : ¬ IsName l := by
  rintro ⟨hc, -⟩
  exact not_isNumber_cons (not_isNumberStart_of_isNameStart hc) hl

theorem IsName.ne_nil {l : List Char} (hl : IsName l) : l ≠ [] := by
  obtain ⟨-, -⟩ := hl
  exact List.cons_ne_nil _ _

theorem Token.IsTerminal.chars_ne_nil {t : Token} (ht : t.IsTerminal) : t.chars ≠ [] := by
  cases t with
  | number text => exact IsNumber.ne_nil ht
  | name text => exact IsName.ne_nil ht
  | _ => exact List.cons_ne_nil _ _

/-- The first character of a token tells its kind. -/
theorem Token.IsTerminal.kind {t : Token} {c : Char} {rest : List Char} (ht : t.IsTerminal)
    (h : t.chars <+: c :: rest) :
    (∃ l, t = .number l ∧ isNumberStart c = true) ∨ (∃ l, t = .name l ∧ isNameStart c = true) ∨
      isSymbol c = true ∧
        (t.chars = [c] ∨ t = .doubleStar ∧ c = '*' ∧ ∃ tail, rest = '*' :: tail) := by
  cases t with
  | number l =>
    obtain ⟨d, tail, rfl⟩ := List.exists_cons_of_ne_nil (IsNumber.ne_nil ht)
    obtain ⟨rfl, -⟩ := List.cons_prefix_cons.mp h
    exact .inl ⟨_, rfl, Bool.of_not_eq_false fun hd => not_isNumber_cons hd ht⟩
  | name l =>
    obtain ⟨d, tail, rfl⟩ := List.exists_cons_of_ne_nil (IsName.ne_nil ht)
    obtain ⟨rfl, -⟩ := List.cons_prefix_cons.mp h
    exact .inr (.inl ⟨_, rfl, Bool.of_not_eq_false fun hd => not_isName_cons hd ht⟩)
  | doubleStar =>
    obtain ⟨rfl, tail, rfl⟩ := List.cons_prefix_cons.mp h
    exact .inr (.inr ⟨rfl, .inr ⟨rfl, rfl, tail, rfl⟩⟩)
  | _ =>
    obtain ⟨rfl, -⟩ := List.cons_prefix_cons.mp h
    exact .inr (.inr ⟨rfl, .inl rfl⟩)

/-- A token is known by its text. -/
theorem Token.IsTerminal.eq_of_chars {t u : Token} (ht : t.IsTerminal) (hu : u.IsTerminal)
    (h : t.chars = u.chars) : t = u := by
  cases t with
  | number a =>
    cases u with
    | number b => exact congrArg _ h
    | name b =>
      obtain rfl : a = b := h
      exact absurd hu (IsNumber.not_isName ht)
    | _ =>
      obtain rfl : a = _ := h
      exact absurd ht (not_isNumber_cons (by decide +kernel))
  | name a =>
    cases u with
    | number b =>
      obtain rfl : a = b := h
      exact absurd ht (IsNumber.not_isName hu)
    | name b => exact congrArg _ h
    | _ =>
      obtain rfl : a = _ := h
      exact absurd ht (not_isName_cons (by decide +kernel))
  | _ =>
    cases u with
    | number b =>
      obtain rfl : _ = b := h
      exact absurd hu (not_isNumber_cons (by decide +kernel))
    | name b =>
      obtain rfl : _ = b := h
      exact absurd hu (not_isName_cons (by decide +kernel))
    | _ => first | rfl | simp [Token.chars] at h

/-! ## One token -/

theorem token?_of_not_symbol {c : Char} (hc : isSymbol c = false) (rest : List Char) :
    token? (c :: rest) =
      if isNameStart c then some (.name (c :: rest.takeWhile isNameChar), rest.dropWhile isNameChar)
      else (spanLiteral? (c :: rest)).map fun (l, after) => (.number l, after) := by
  rw [token?.eq_def]
  split
  case h_11 c rest _ _ _ _ _ _ _ _ _ heq =>
    obtain ⟨rfl, rfl⟩ := List.cons.inj heq
    simp only [List.span_eq_takeWhile_dropWhile]
  all_goals simp_all [isSymbol]

theorem isSymbol_cases {c : Char} (hc : isSymbol c = true) :
    isNumberStart c = false ∧ isNameStart c = false := by
  have hmem := List.elem_iff.mp hc
  simp only [List.mem_cons, List.not_mem_nil, or_false] at hmem
  rcases hmem with rfl | rfl | rfl | rfl | rfl | rfl | rfl | rfl <;> decide +kernel

/-- A symbol of one character is read where it does not start a longer one. -/
theorem front_symbol {t : Token} {c : Char} {rest : List Char} (ht : t.IsTerminal) (hchars : t.chars = [c])
    (hc : isSymbol c = true) (hstar : c = '*' → ∀ tail, rest ≠ '*' :: tail) :
    t.IsTerminal ∧ Front IsTokenText (c :: rest) t.chars rest := by
  refine ⟨ht, ⟨t, ht, rfl⟩, by rw [hchars, List.singleton_append], ?_⟩
  rintro _ ⟨u, hu, rfl⟩ hpre
  rcases hu.kind hpre with ⟨l, rfl, h⟩ | ⟨l, rfl, h⟩ | ⟨-, h | ⟨rfl, rfl, tail, rfl⟩⟩
  · rw [(isSymbol_cases hc).1] at h
    cases h
  · rw [(isSymbol_cases hc).2] at h
    cases h
  · rw [h, hchars]
  · exact absurd rfl (hstar rfl tail)

theorem front_doubleStar (rest : List Char) :
    Token.doubleStar.IsTerminal ∧ Front IsTokenText ('*' :: '*' :: rest) Token.doubleStar.chars rest := by
  refine ⟨trivial, ⟨.doubleStar, trivial, rfl⟩, rfl, ?_⟩
  rintro _ ⟨u, hu, rfl⟩ hpre
  rcases hu.kind hpre with ⟨l, rfl, h⟩ | ⟨l, rfl, h⟩ | ⟨-, h | ⟨rfl, -⟩⟩
  · exact absurd h (by decide +kernel)
  · exact absurd h (by decide +kernel)
  · rw [h]
    decide
  · exact Nat.le_refl _

theorem front_name {c : Char} (hc : isNameStart c = true) (rest : List Char) :
    IsName (c :: rest.takeWhile isNameChar) ∧
      Front IsTokenText (c :: rest) (c :: rest.takeWhile isNameChar) (rest.dropWhile isNameChar) := by
  have hname : IsName (c :: rest.takeWhile isNameChar) := ⟨hc, fun _ hd => List.mem_takeWhile_imp hd⟩
  refine ⟨hname, ⟨.name _, hname, rfl⟩, by simp [List.takeWhile_append_dropWhile], ?_⟩
  rintro _ ⟨u, hu, rfl⟩ hpre
  rcases hu.kind hpre with ⟨l, rfl, h⟩ | ⟨l, rfl, -⟩ | ⟨h, -⟩
  · rw [not_isNumberStart_of_isNameStart hc] at h
    cases h
  · obtain ⟨-, hr⟩ := hu
    obtain ⟨rfl, hpre'⟩ := List.cons_prefix_cons.mp hpre
    have := (prefix_takeWhile hr hpre').length_le
    simp only [Token.chars, List.length_cons]
    omega
  · rw [(isSymbol_cases h).2] at hc
    cases hc

/-- What is read at the front of a text is the longest token there, and there is none if nothing is
read. -/
def ReadsLongest (cs : List Char) : Option (Token × List Char) → Prop
  | some (t, rest) => t.IsTerminal ∧ Front IsTokenText cs t.chars rest
  | none => NoFront IsTokenText cs

theorem readsLongest_literal {c : Char} (hsymbol : isSymbol c = false) (hname : isNameStart c = false)
    (rest : List Char) :
    ReadsLongest (c :: rest) ((spanLiteral? (c :: rest)).map fun (l, after) => (.number l, after)) := by
  have hnumber : ∀ u : Token, u.IsTerminal → u.chars <+: c :: rest → IsNumber u.chars := by
    intro u hu hpre
    rcases hu.kind hpre with ⟨l, rfl, -⟩ | ⟨l, rfl, h⟩ | ⟨h, -⟩
    · exact hu
    · rw [hname] at h
      cases h
    · rw [hsymbol] at h
      cases h
  cases hl : spanLiteral? (c :: rest) with
  | none =>
    rintro _ ⟨u, hu, rfl⟩ hpre
    exact readsFront_spanLiteral?.eq_none_iff.mp hl _ (hnumber u hu hpre) hpre
  | some result =>
    have hfront := readsFront_spanLiteral?.eq_some_iff.mp hl
    refine ⟨hfront.holds, ⟨.number _, hfront.holds, rfl⟩, hfront.split, ?_⟩
    rintro _ ⟨u, hu, rfl⟩ hpre
    exact hfront.longest _ (hnumber u hu hpre) hpre

theorem readsLongest_star (rest : List Char) : ReadsLongest ('*' :: rest) (token? ('*' :: rest)) := by
  by_cases h : ∃ tail, rest = '*' :: tail
  · obtain ⟨tail, rfl⟩ := h
    exact front_doubleStar tail
  · have hstar : token? ('*' :: rest) = some (.star, rest) := by
      rw [token?.eq_def]
      split <;> grind
    rw [hstar]
    exact front_symbol trivial rfl rfl fun _ tail heq => h ⟨tail, heq⟩

/-- The longest token is read. -/
theorem readsLongest_token? (cs : List Char) : ReadsLongest cs (token? cs) := by
  rcases cs with - | ⟨c, rest⟩
  · rintro _ ⟨t, ht, rfl⟩ hpre
    exact ht.chars_ne_nil (List.prefix_nil.mp hpre)
  by_cases hc : isSymbol c = true
  · have hmem := List.elem_iff.mp hc
    simp only [List.mem_cons, List.not_mem_nil, or_false] at hmem
    rcases hmem with rfl | rfl | rfl | rfl | rfl | rfl | rfl | rfl
    · exact readsLongest_star rest
    all_goals exact front_symbol trivial rfl rfl (by simp)
  · rw [token?_of_not_symbol (Bool.of_not_eq_true hc)]
    split
    · rename_i hname
      exact front_name hname rest
    · rename_i hname
      exact readsLongest_literal (Bool.of_not_eq_true hc) (Bool.of_not_eq_true hname) rest

theorem token?_eq_some_iff {cs rest : List Char} {t : Token} :
    token? cs = some (t, rest) ↔ t.IsTerminal ∧ Front IsTokenText cs t.chars rest := by
  have hspec := readsLongest_token? cs
  constructor
  · intro h
    rwa [h] at hspec
  · rintro ⟨ht, hfront⟩
    cases hread : token? cs with
    | none =>
      rw [hread] at hspec
      exact absurd hspec hfront.not_noFront
    | some result =>
      rw [hread] at hspec
      obtain ⟨hchars, hrest⟩ := hspec.2.unique hfront
      rw [← hspec.1.eq_of_chars ht hchars, ← hrest]

theorem token?_eq_none_iff {cs : List Char} : token? cs = none ↔ NoFront IsTokenText cs := by
  have hspec := readsLongest_token? cs
  constructor
  · intro h
    rwa [h] at hspec
  · intro hno
    cases hread : token? cs with
    | none => rfl
    | some result =>
      rw [hread] at hspec
      exact absurd hno hspec.2.not_noFront

/-! ## Whole texts -/

/-- A text as tokens, each the longest that starts at its place, with white space between them. -/
inductive Splits : List Char → List Token → Prop where
  | nil : Splits [] []
  | blank {c : Char} {rest : List Char} {ts : List Token} (hc : isTokenBlank c = true)
      (h : Splits rest ts) : Splits (c :: rest) ts
  | token {t : Token} {cs rest : List Char} {ts : List Token} (ht : t.IsTerminal)
      (hfront : Front IsTokenText cs t.chars rest) (h : Splits rest ts) : Splits cs (t :: ts)

theorem noFront_blank {c : Char} (hc : isTokenBlank c = true) (rest : List Char) :
    NoFront IsTokenText (c :: rest) := by
  have hkinds : isNumberStart c = false ∧ isNameStart c = false ∧ isSymbol c = false := by
    simp only [isTokenBlank, Bool.or_eq_true, beq_iff_eq] at hc
    rcases hc with (((rfl | rfl) | rfl) | rfl) | rfl <;> decide +kernel
  rintro _ ⟨t, ht, rfl⟩ hpre
  rcases ht.kind hpre with ⟨l, -, h⟩ | ⟨l, -, h⟩ | ⟨h, -⟩ <;> simp [hkinds] at h

section

variable {c : Char} {cs rest : List Char} {t : Token} {ts : List Token}

theorem splits_nil_iff : Splits [] ts ↔ ts = [] := by
  constructor
  · intro h
    cases h with
    | nil => rfl
    | token ht hfront _ =>
      exact absurd (List.append_eq_nil_iff.mp hfront.split.symm).1 ht.chars_ne_nil
  · rintro rfl
    exact .nil

theorem splits_blank_iff (hc : isTokenBlank c = true) : Splits (c :: rest) ts ↔ Splits rest ts := by
  constructor
  · intro h
    cases h with
    | blank _ h => exact h
    | token _ hfront _ => exact absurd (noFront_blank hc rest) hfront.not_noFront
  · exact .blank hc

theorem splits_token_iff (ht : t.IsTerminal) (hfront : Front IsTokenText cs t.chars rest) :
    Splits cs ts ↔ ∃ us, Splits rest us ∧ t :: us = ts := by
  constructor
  · intro h
    cases h with
    | nil => exact absurd (List.append_eq_nil_iff.mp hfront.split.symm).1 ht.chars_ne_nil
    | blank hc _ => exact absurd (noFront_blank hc _) hfront.not_noFront
    | token hu hfront' h =>
      obtain ⟨hchars, rfl⟩ := hfront.unique hfront'
      rw [ht.eq_of_chars hu hchars]
      exact ⟨_, h, rfl⟩
  · rintro ⟨us, h, rfl⟩
    exact .token ht hfront h

theorem not_splits (hc : isTokenBlank c = false) (hno : NoFront IsTokenText (c :: rest)) :
    ¬ Splits (c :: rest) ts := by
  intro h
  cases h with
  | blank hc' _ =>
    rw [hc] at hc'
    cases hc'
  | token _ hfront _ => exact hfront.not_noFront hno

end

namespace Lexed

theorem fromOffset_skip (offset : Nat) (front rest : List Char) :
    fromOffset offset front.length (front ++ rest) = fromOffset (offset + front.length) 0 rest := by
  induction front generalizing offset with
  | nil => rfl
  | cons c front ih =>
    rw [List.length_cons, List.cons_append, fromOffset, ih, Nat.add_right_comm, Nat.add_assoc]

theorem fromOffset_blank {c : Char} (hc : isTokenBlank c = true) (offset : Nat) (rest : List Char) :
    fromOffset offset 0 (c :: rest) = fromOffset (offset + 1) 0 rest := by
  rw [fromOffset, if_pos hc]

theorem fromOffset_token {c : Char} {rest after : List Char} {t : Token} (offset : Nat)
    (hc : isTokenBlank c = false) (h : token? (c :: rest) = some (t, after)) :
    fromOffset offset 0 (c :: rest) =
      ⟨⟨t, offset⟩ :: (fromOffset (offset + t.chars.length) 0 after).tokens,
        (fromOffset (offset + t.chars.length) 0 after).stray⟩ := by
  obtain ⟨ht, hfront⟩ := token?_eq_some_iff.mp h
  have hsplit := hfront.split
  obtain ⟨d, front, hchars⟩ := List.exists_cons_of_ne_nil ht.chars_ne_nil
  rw [hchars, List.cons_append, List.cons.injEq] at hsplit
  obtain ⟨-, rfl⟩ := hsplit
  rw [fromOffset, if_neg (by simp [hc]), h, hchars]
  simp only [List.length_append, Nat.add_sub_cancel, List.length_cons, fromOffset_skip]
  rw [Nat.add_right_comm, Nat.add_assoc]

theorem fromOffset_stray {c : Char} {rest : List Char} (offset : Nat) (hc : isTokenBlank c = false)
    (h : token? (c :: rest) = none) : fromOffset offset 0 (c :: rest) = ⟨[], some offset⟩ := by
  rw [fromOffset, if_neg (by simp [hc]), h]

theorem splits_fromOffset_iff (offset : Nat) (cs : List Char) (ts : List Token) :
    Splits cs ts ↔
      (fromOffset offset 0 cs).stray = none ∧ (fromOffset offset 0 cs).tokens.map (·.token) = ts := by
  induction hn : cs.length using Nat.strongRecOn generalizing cs offset ts with
  | ind n ih =>
    subst hn
    rcases cs with - | ⟨c, rest⟩
    · simp [splits_nil_iff, fromOffset, eq_comm]
    by_cases hc : isTokenBlank c = true
    · rw [splits_blank_iff hc, fromOffset_blank hc]
      exact ih _ (Nat.lt_succ_self _) _ _ _ rfl
    · have hc := Bool.of_not_eq_true hc
      cases h : token? (c :: rest) with
      | none =>
        rw [fromOffset_stray offset hc h]
        simpa using not_splits hc (token?_eq_none_iff.mp h)
      | some result =>
        obtain ⟨t, after⟩ := result
        obtain ⟨ht, hfront⟩ := token?_eq_some_iff.mp h
        have hlength : after.length < (c :: rest).length := by
          rw [hfront.split, List.length_append]
          have := List.length_pos_iff.mpr ht.chars_ne_nil
          omega
        rw [fromOffset_token offset hc h, splits_token_iff ht hfront]
        simp only [ih _ hlength (offset + t.chars.length) after _ rfl, List.map_cons]
        exact ⟨fun ⟨us, ⟨hstray, hus⟩, hts⟩ => ⟨hstray, by rw [hus, hts]⟩,
          fun ⟨hstray, hts⟩ => ⟨_, ⟨hstray, rfl⟩, hts⟩⟩

/-- The tokens of a text are those that it splits into. -/
theorem splits_iff {cs : List Char} {ts : List Token} :
    Splits cs ts ↔ (ofChars cs).stray = none ∧ (ofChars cs).tokens.map (·.token) = ts :=
  splits_fromOffset_iff 0 cs ts

end Lexed

/-- A text splits into tokens in at most one way. -/
theorem Splits.unique {cs : List Char} {ts us : List Token} (h : Splits cs ts) (h' : Splits cs us) :
    ts = us :=
  (Lexed.splits_iff.mp h).2.symm.trans (Lexed.splits_iff.mp h').2

end RangeCalc
