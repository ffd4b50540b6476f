import Mathlib.Data.List.Basic
import RangeCalc.Proofs.Range.Token
import RangeCalc.Proofs.Text.Character
import RangeCalc.Range.Normal

/-!
# Literals beside ranges and percentages

Ranges and percentages are recognised on numerals, while literals may have exponents.

* `KeepsWhole`: no occurrence replaces a proper part of a stretch of text;
* `LiteralKept`: neither the ranges of a text nor its percentages cut a literal;
* `literal_kept_iff`: what cuts a literal is a range that ends inside it, and a range or a percentage that
  starts at the digits of its signed exponent.
-/

namespace RangeCalc

open Text Shorthand

/-- Of each occurrence all but the first `kept` characters are replaced. The replaced part has no
character of the stretch of text from `start` to `stop`, or all of them. -/
def KeepsWhole {α : Type} (kept : α → Nat) (ps : List (Piece α)) (start stop : Nat) : Prop :=
  ∀ front a covered back, ps = front ++ .found a covered :: back →
    (textOf front).length + covered.length ≤ start ∨ stop ≤ (textOf front).length + kept a ∨
      (textOf front).length + kept a ≤ start ∧ stop ≤ (textOf front).length + covered.length

/-- A literal whose exponent has a sign, cut before the digits of the exponent. -/
inductive SignedExponent : (literal front digits : List Char) → Prop where
  | intro {m ds : List Char} {e sign : Char} (hm : IsMantissa m) (he : e = 'e' ∨ e = 'E')
      (hs : sign = '+' ∨ sign = '-') (hd : IsDigits ds) :
      SignedExponent (m ++ [e, sign] ++ ds) (m ++ [e, sign]) ds

/-! ## Characters of literals -/

theorem isWordChar_of_letter {c : Char} (h : c = 'e' ∨ c = 'E') : isWordChar c = true := by
  rcases h with rfl | rfl <;> decide +kernel

theorem IsMantissa.mem_word {m : List Char} (hm : IsMantissa m) {c : Char} (hc : c ∈ m) :
    isWordChar c = true ∨ c = '.' :=
  (hm.mem hc).imp_left isWordChar_of_isDigit

/-- Where a character of a literal belongs to no word and is no point, it is the sign of the exponent. -/
theorem IsNumber.signedExponent {l x y : List Char} {c : Char} (hl : IsNumber l) (h : l = x ++ c :: y)
    (hc : ¬ (isWordChar c = true ∨ c = '.')) : SignedExponent l (x ++ [c]) y := by
  have hmantissa : ∀ m, IsMantissa m → c ∉ m := fun m hm hmem => hc (hm.mem_word hmem)
  cases hl with
  | mantissa hm => exact absurd (by simp [h]) (hmantissa l hm)
  | @scientific m _ hm hx =>
    obtain ⟨he, hs, hd⟩ := hx
    rename_i e sign ds
    have hdigits : c ∉ ds := fun hmem => hc (.inl (isWordChar_of_isDigit (hd.2 c hmem)))
    have hletter : c ≠ e := by
      rintro rfl
      exact hc (.inl (isWordChar_of_letter he))
    have hsign : ∀ s, s = '+' ∨ s = '-' → m ++ e :: ([s] ++ ds) = x ++ c :: y →
        SignedExponent (x ++ c :: y) (x ++ [c]) y := by
      intro s hs h
      have hsplit : m ++ [e] ++ s :: ds = x ++ c :: y := by simpa using h
      have hfront : c ∉ m ++ [e] := by simp [hmantissa m hm, hletter]
      obtain ⟨rfl, rfl, rfl⟩ := (List.append_cons_inj_of_notMem hfront hdigits).mp hsplit
      simpa using SignedExponent.intro hm he hs hd
    rcases hs with rfl | rfl | rfl
    · have hmem : c ∈ m ++ e :: ([] ++ ds) := h ▸ (by simp)
      simp [hmantissa m hm, hletter, hdigits] at hmem
    · rw [h]
      exact hsign '+' (.inl rfl) h
    · rw [h]
      exact hsign '-' (.inr rfl) h

/-- A literal starts with a digit or a point. -/
theorem IsNumber.first {l : List Char} (hl : IsNumber l) {c : Char} (hc : l.head? = some c) :
    isDigit c = true ∨ c = '.' := by
  have hmantissa : ∀ m, IsMantissa m → ∀ tail, (m ++ tail).head? = some c →
    isDigit c = true ∨ c = '.' := by
    intro m hm tail hc
    obtain ⟨d, m, rfl⟩ := List.exists_cons_of_ne_nil hm.ne_nil
    obtain rfl := Option.some.inj hc
    exact hm.mem (List.mem_cons_self ..)
  cases hl with
  | mantissa hm => exact hmantissa l hm [] (by simpa using hc)
  | scientific hm _ => exact hmantissa _ hm _ hc

theorem not_digit_of_isBlank {c : Char} (h : isBlank c = true) : ¬ (isDigit c = true ∨ c = '.') := by
  rintro (hdigit | rfl)
  · have hword := isWordChar_of_isDigit hdigit
    rw [not_isWordChar_of_isBlank h] at hword
    cases hword
  · revert h
    decide +kernel

theorem not_digit_of_sign {c : Char} (h : c = '+' ∨ c = '-') : ¬ (isDigit c = true ∨ c = '.') := by
  rintro (hdigit | rfl)
  · rw [not_isDigit_sign h] at hdigit
    cases hdigit
  · exact absurd h (by decide)

/-! ## Characters of ranges and percentages -/

theorem mem_percentChars {percent : Bool} {c : Char} (hc : c ∈ percentChars percent) : c = '%' := by
  cases percent
  · cases hc
  · exact List.mem_singleton.mp hc

theorem IsSign.mem {sign : List Char} (hs : IsSign sign) {c : Char} (hc : c ∈ sign) :
  c = '+' ∨ c = '-' := by
  rcases hs with rfl | rfl | rfl
  · cases hc
  · exact .inl (List.mem_singleton.mp hc)
  · exact .inr (List.mem_singleton.mp hc)

/-- A range has no letters. -/
theorem RangeShape.not_mem_letter {covered : List Char} {r : FoundRange} (shape : RangeShape covered r)
    {c : Char} (hletter : c = 'e' ∨ c = 'E') : c ∉ covered := by
  have hblank : isBlank c = false := by rcases hletter with rfl | rfl <;> decide +kernel
  have hdigit := not_isDigit_of_letter hletter
  have hnumeral : ∀ n, IsNumeral n → c ∉ n := by
    intro n hn hc
    rcases hn.mem hc with h | rfl
    · rw [hdigit] at h
      cases h
    · exact absurd hletter (by decide)
  have hsign : ∀ s, IsSign s → c ∉ s := by
    intro s hs hc
    rcases hs.mem hc with rfl | rfl <;> exact absurd hletter (by decide)
  have hpercent : ∀ p, c ∉ percentChars p := by
    intro p hc
    obtain rfl := mem_percentChars hc
    exact absurd hletter (by decide)
  have htilde : c ≠ '~' := by
    rintro rfl
    exact absurd hletter (by decide)
  have hblanks : ∀ bs : List Char, (∀ b ∈ bs, isBlank b = true) → c ∉ bs := by
    intro bs hbs hc
    rw [hbs c hc] at hblank
    cases hblank
  rw [shape.text_eq]
  simp only [List.mem_append, List.mem_cons, not_or]
  exact ⟨⟨⟨⟨hsign _ shape.isSign_low, hnumeral _ shape.isNumeral_low⟩, hpercent _⟩,
    hblanks _ shape.isBlank_left⟩, htilde, ⟨⟨hblanks _ shape.isBlank_right,
      hsign _ shape.isSign_high⟩,
    hnumeral _ shape.isNumeral_high⟩, hpercent _⟩

theorem percent_eq_some {before text after replacement : List Char}
    (h : percent before text = some (replacement, after)) :
    standsAlone before = true ∧
      ∃ n, IsNumeral n ∧ text = n ++ '%' :: after ∧ replacement = '(' :: n ++ "/100)".toList := by
  simp only [percent, guard, bind, Option.bind_eq_some_iff] at h
  obtain ⟨_, halone, ⟨n, rest⟩, hn, after', hpercent, h⟩ := h
  obtain ⟨hreplacement, rfl⟩ := Prod.mk.inj (Option.some.inj h)
  have hfront := readsFront_numeral?.eq_some_iff.mp hn
  refine ⟨?_, n, hfront.holds, ?_, hreplacement.symm⟩
  · by_contra hno
    simp [hno, failure] at halone
  · rw [hfront.split]
    exact congrArg _ (RangeToken.expect?_eq_some hpercent)

theorem percent_covers : Finder.Covers percent := by
  intro before text replacement after h
  obtain ⟨-, n, -, rfl, -⟩ := percent_eq_some h
  exact ⟨n ++ ['%'], by simp, by simp⟩

theorem percent_isSome_iff {before text : List Char} :
    (percent before text).isSome = true ↔
      standsAlone before = true ∧ ∃ n rest, IsNumeral n ∧ text = n ++ '%' :: rest := by
  constructor
  · intro h
    obtain ⟨⟨replacement, after⟩, h⟩ := Option.isSome_iff_exists.mp h
    obtain ⟨halone, n, hn, htext, -⟩ := percent_eq_some h
    exact ⟨halone, n, after, hn, htext⟩
  · rintro ⟨halone, n, rest, hn, rfl⟩
    have hstop : ∀ x, ('%' :: rest).head? = some x → ¬ (isDigit x = true ∨ x = '.') := by
      rintro x hx
      obtain rfl := Option.some.inj hx
      decide +kernel
    have hread := readsFront_numeral?.eq_some_iff.mpr (hn.front hstop)
    simp [percent, guard, halone, hread, expect?]

theorem not_mem_letter_percent {n : List Char} (hn : IsNumeral n) {c : Char} (hletter : c = 'e' ∨ c = 'E') :
    c ∉ n ++ ['%'] := by
  intro hc
  rcases List.mem_append.mp hc with hc | hc
  · rcases hn.mem hc with h | rfl
    · rw [not_isDigit_of_letter hletter] at h
      cases h
    · exact absurd hletter (by decide)
  · obtain rfl := List.mem_singleton.mp hc
    exact absurd hletter (by decide)

/-! ## Occurrences that start inside a literal -/

/-- A finder whose occurrences stand alone and have no letters. -/
structure NumericFinder {α : Type} (find : Finder α) : Prop where
  alone : ∀ before text a after, find before text = some (a, after) → standsAlone before = true
  no_letter : ∀ before covered a after, find before (covered ++ after) = some (a, after) →
    ∀ c, (c = 'e' ∨ c = 'E') → c ∉ covered

theorem numericFinder_range : NumericFinder RangeToken.find where
  alone _ _ _ _ h := (RangeToken.find_eq_some h).1
  no_letter _ covered _ _ h c hc := by
    obtain ⟨-, covered', hcovered, ⟨shape⟩⟩ := RangeToken.find_eq_some h
    rw [List.append_cancel_right hcovered]
    exact shape.not_mem_letter hc

theorem numericFinder_percent : NumericFinder percent where
  alone _ _ _ _ h := (percent_eq_some h).1
  no_letter _ covered _ after h c hc := by
    obtain ⟨-, n, hn, htext, -⟩ := percent_eq_some h
    rw [show n ++ '%' :: after = n ++ ['%'] ++ after by simp] at htext
    rw [List.append_cancel_right htext]
    exact not_mem_letter_percent hn hc

section

variable {α : Type} {find : Finder α} {pre lit post x y : List Char} {ps : List (Piece α)}

/-- An occurrence that starts inside a literal starts at the digits of its signed exponent. -/
theorem NumericFinder.starts_inside (hfind : NumericFinder find) (hlit : IsNumber lit)
    {front back : List (Piece α)} {a : α} {covered : List Char}
    (h : Scans find [] (pre ++ (lit ++ post)) (front ++ .found a covered :: back))
    (hstart : pre.length < (textOf front).length)
    (hstop : (textOf front).length < pre.length + lit.length) :
    ∃ x y, textOf front = pre ++ x ∧ SignedExponent lit x y ∧ covered ++ textOf back = y ++ post := by
  obtain ⟨-, hfound⟩ := h.at_found
  have htext := h.textOf_eq
  rw [textOf_append, textOf_found] at htext
  obtain ⟨x, hx, hrest⟩ : ∃ x, textOf front = pre ++ x ∧
    lit ++ post = x ++ (covered ++ textOf back) := by
    rcases List.append_eq_append_iff.mp htext with ⟨z, hz, -⟩ | ⟨x, hx, hrest⟩
    · rw [hz, List.length_append] at hstart
      omega
    · exact ⟨x, hx, hrest⟩
  obtain ⟨y, hy, hback⟩ : ∃ y, lit = x ++ y ∧ covered ++ textOf back = y ++ post := by
    rcases List.append_eq_append_iff.mp hrest with ⟨z, rfl, -⟩ | ⟨y, hy, hback⟩
    · simp only [hx, List.length_append] at hstop
      omega
    · exact ⟨y, hy, hback⟩
  refine ⟨x, y, hx, ?_, hback⟩
  rcases List.eq_nil_or_concat x with rfl | ⟨x', c, rfl⟩
  · simp [hx] at hstart
  have halone := hfind.alone _ _ _ _ hfound
  rw [List.concat_eq_append] at hx hy ⊢
  simp only [hx, List.reverse_append, List.reverse_singleton, List.cons_append, standsAlone,
    Bool.not_eq_true', Bool.or_eq_false_iff, beq_eq_false_iff_ne] at halone
  refine hlit.signedExponent (by simpa using hy) ?_
  rintro (hword | hpoint)
  · rw [halone.1] at hword
    cases hword
  · exact halone.2 hpoint

/-- What is recognised at the digits of a signed exponent is an occurrence. -/
theorem NumericFinder.exists_found (hfind : NumericFinder find) (hcovers : find.Covers)
    (hexp : SignedExponent lit x y) (h : Scans find [] (pre ++ (lit ++ post)) ps)
    (hsome : (find (x.reverse ++ pre.reverse) (y ++ post)).isSome = true) :
    ∃ front a covered back, ps = front ++ .found a covered :: back ∧ textOf front = pre ++ x := by
  obtain ⟨⟨a, after⟩, ha⟩ := Option.isSome_iff_exists.mp hsome
  cases hexp with
  | @intro m _ e sign hm he hs hd =>
    have htext : pre ++ (m ++ [e, sign] ++ y ++ post) = pre ++ (m ++ [e, sign]) ++ (y ++ post) := by simp
    rw [htext] at h
    have hfree : ∀ front b covered back, ps = front ++ .found b covered :: back →
        (textOf front).length < (pre ++ (m ++ [e, sign])).length →
        (textOf front).length + covered.length ≤ (pre ++ (m ++ [e, sign])).length := by
      intro front b covered back hps hlt
      by_contra hlong
      rw [hps] at h
      obtain ⟨-, hfound⟩ := h.at_found
      have heq := h.textOf_eq
      rw [textOf_append, textOf_found] at heq
      -- `u` is what the occurrence has before the digits of the exponent
      obtain ⟨u, hu, hrest⟩ : ∃ u, pre ++ (m ++ [e, sign]) = textOf front ++ u ∧
          covered ++ textOf back = u ++ (y ++ post) := by
        rcases List.append_eq_append_iff.mp heq with ⟨u, hu, hrest⟩ | ⟨u, hu, -⟩
        · exact ⟨u, hu, hrest⟩
        · rw [hu, List.length_append] at hlt
          omega
      obtain ⟨v, rfl⟩ : ∃ v, covered = u ++ v := by
        rcases List.append_eq_append_iff.mp hrest with ⟨z, rfl, -⟩ | ⟨v, hv, -⟩
        · simp only [hu, List.length_append] at hlong
          omega
        · exact ⟨v, hv⟩
      rcases List.eq_nil_or_concat u with rfl | ⟨u, c, rfl⟩
      · simp [hu] at hlt
      have hsplit : pre ++ m ++ [e] ++ [sign] = textOf front ++ u ++ [c] := by simpa using hu
      have hletter : pre ++ m ++ [e] = textOf front ++ u := (List.append_inj' hsplit rfl).1
      rcases List.eq_nil_or_concat u with rfl | ⟨u, d, rfl⟩
      · have halone := hfind.alone _ _ _ _ hfound
        rw [List.append_nil] at hletter
        simp [← hletter, standsAlone, isWordChar_of_letter he] at halone
      · have hd : pre ++ m ++ [e] = textOf front ++ u ++ [d] := by simpa using hletter
        obtain rfl : e = d := by simpa using (List.append_inj' hd rfl).2
        exact hfind.no_letter _ _ _ _ hfound _ he (by simp)
    obtain ⟨front, covered, back, hps, hfront⟩ := h.exists_found hcovers (by simpa using ha) hfree
    exact ⟨front, a, covered, back, hps, hfront⟩

end

/-! ## Ranges that end inside a literal -/

theorem IsNumber.not_mem_mark {l : List Char} (hl : IsNumber l) {c : Char} (hc : c = '~' ∨ c = '%') :
  c ∉ l := by
  intro hmem
  rcases hl.mem hmem with (h | rfl) | (rfl | rfl) | (rfl | rfl)
  · rcases hc with rfl | rfl <;> revert h <;> decide +kernel
  all_goals simp at hc

/-- The part of a literal that a range ends with belongs to its upper bound. -/
theorem RangeShape.suffix_maxText {covered z head : List Char} {r : FoundRange}
    (shape : RangeShape covered r) (hsplit : covered = z ++ head) (hne : head ≠ [])
    (htilde : '~' ∉ head) (hpercent : '%' ∉ head)
    (hfirst : ∀ c, head.head? = some c → isDigit c = true ∨ c = '.') : head <:+ r.token.maxText := by
  obtain ⟨w, hw⟩ : ∃ w, shape.blanks' ++ shape.highSign ++ shape.high ++ percentChars r.token.maxPercent =
      w ++ head := by
    rcases List.append_eq_append_iff.mp (shape.text_eq.symm.trans hsplit) with ⟨w, hz, hw⟩ | ⟨w, -, hw⟩
    · rcases w with - | ⟨d, w⟩
      · rw [List.nil_append] at hw
        exact absurd (by simp [← hw]) htilde
      · exact ⟨w, (List.cons.inj hw).2⟩
    · exact absurd (by simp [hw]) htilde
  have hnone : percentChars r.token.maxPercent = [] := by
    cases hp : r.token.maxPercent with
    | false => rfl
    | true =>
      obtain ⟨head, c, rfl⟩ := (List.eq_nil_or_concat head).resolve_left hne
      rw [hp, List.concat_eq_append, ← List.append_assoc] at hw
      obtain rfl : '%' = c := List.singleton_inj.mp (List.append_inj' hw rfl).2
      exact absurd (by simp) hpercent
  rw [hnone, List.append_nil] at hw
  rw [shape.maxText_eq]
  rcases List.append_eq_append_iff.mp hw with ⟨k, rfl, hhigh⟩ | ⟨k, hk, hhead⟩
  · rw [hhigh]
    exact ⟨shape.highSign ++ k, by simp⟩
  · rcases k with - | ⟨c, k⟩
    · rw [hhead]
      exact ⟨shape.highSign, by simp⟩
    · have hc := hfirst c (by rw [hhead]; rfl)
      have hmem : c ∈ shape.blanks' ++ shape.highSign := by simp [hk]
      rcases List.mem_append.mp hmem with hblank | hsign
      · exact absurd hc (not_digit_of_isBlank (shape.isBlank_right c hblank))
      · exact absurd hc (not_digit_of_sign (shape.isSign_high.mem hsign))

/-- A range that ends inside a literal has the front of the literal in its upper bound. -/
theorem range_ends_inside {pre lit post covered : List Char} {r : FoundRange}
    {front back : List (Piece FoundRange)} (hlit : IsNumber lit)
    (h : Scans RangeToken.find [] (pre ++ (lit ++ post)) (front ++ .found r covered :: back))
    (hbefore : (textOf front).length ≤ pre.length)
    (hstart : pre.length < (textOf front).length + covered.length)
    (hstop : (textOf front).length + covered.length < pre.length + lit.length) :
    ∃ head tail, lit = head ++ tail ∧ head ≠ [] ∧ tail ≠ [] ∧
    textOf front ++ covered = pre ++ head ∧
      head <:+ r.token.maxText := by
  obtain ⟨z, head, tail, rfl, hz, rfl, hhead, htail⟩ := h.ends_inside hbefore hstart hstop
  obtain ⟨-, hfound⟩ := h.at_found
  obtain ⟨-, covered', hcovered, ⟨shape⟩⟩ := RangeToken.find_eq_some hfound
  refine ⟨head, tail, rfl, hhead, htail, by rw [← hz, List.append_assoc], ?_⟩
  refine shape.suffix_maxText (List.append_cancel_right hcovered).symm hhead
    (fun hmem => hlit.not_mem_mark (.inl rfl) (List.mem_append_left _ hmem))
    (fun hmem => hlit.not_mem_mark (.inr rfl) (List.mem_append_left _ hmem)) fun c hc => hlit.first ?_
  rw [List.head?_append, hc]
  rfl

/-! ## What cuts a literal -/

/-- The number of characters of a range that stay: its sign, if that is an operator. -/
def operatorLength (r : FoundRange) : Nat :=
  r.operator.toList.length

/-- A range of the text ends inside the literal: its upper bound goes no further than a front of it. -/
def RangeEndsInside (text pre lit : List Char) : Prop :=
  ∃ front r covered back head tail,
    Scans RangeToken.find [] text (front ++ .found r covered :: back) ∧
      lit = head ++ tail ∧ head ≠ [] ∧ tail ≠ [] ∧ textOf front ++ covered = pre ++ head ∧
      head <:+ r.token.maxText

/-- A range starts at the digits of the signed exponent of the literal. -/
def RangeStartsInside (pre lit post : List Char) : Prop :=
  ∃ front digits, SignedExponent lit front digits ∧
    (RangeToken.find (front.reverse ++ pre.reverse) (digits ++ post)).isSome = true

/-- The digits of the signed exponent of the literal, perhaps with decimal places, have a percent sign. -/
def PercentStartsInside (lit post : List Char) : Prop :=
  ∃ front digits places rest, SignedExponent lit front digits ∧ IsNumeral (digits ++ places) ∧
    post = places ++ '%' :: rest

theorem SignedExponent.split {l x y : List Char} (h : SignedExponent l x y) : l = x ++ y := by
  cases h with
  | intro _ _ _ _ => rfl

theorem SignedExponent.exists_letter {l x y : List Char} (h : SignedExponent l x y) :
    ∃ c, (c = 'e' ∨ c = 'E') ∧ c ∈ l := by
  cases h with
  | intro _ he _ _ => exact ⟨_, he, by simp⟩

theorem SignedExponent.isDigits {l x y : List Char} (h : SignedExponent l x y) : IsDigits y := by
  cases h with
  | intro _ _ _ hd => exact hd

theorem SignedExponent.standsAlone {l x y : List Char} (h : SignedExponent l x y) (before : List Char) :
    standsAlone (x.reverse ++ before) = true := by
  cases h with
  | intro _ _ hs _ =>
    simp only [List.reverse_append, List.reverse_cons, List.reverse_nil, List.nil_append,
      List.cons_append, Shorthand.standsAlone]
    rcases hs with rfl | rfl <;> decide +kernel

theorem SignedExponent.front_length {l x y : List Char} (h : SignedExponent l x y) :
    0 < x.length ∧ x.length < l.length := by
  cases h with
  | intro hm he hs hd =>
    have := List.length_pos_iff.mpr hd.1
    simp only [List.length_append, List.length_cons, List.length_nil]
    omega

theorem operatorLength_le (r : FoundRange) : operatorLength r ≤ 1 := by
  rw [operatorLength]
  cases r.operator <;> simp

/-- A range that starts with a digit or a point has no operator. -/
theorem operatorLength_eq_zero {before text after : List Char} {r : FoundRange}
    (h : RangeToken.find before text = some (r, after))
    (hfirst : ∀ c, text.head? = some c → isDigit c = true ∨ c = '.') : operatorLength r = 0 := by
  obtain ⟨-, covered, htext, ⟨shape⟩⟩ := RangeToken.find_eq_some h
  cases hoperator : r.operator with
  | none => simp [operatorLength, hoperator]
  | some sign =>
    have hsign := shape.operator_eq sign hoperator
    have hc := hfirst sign (by rw [htext, shape.text_eq, hsign]; rfl)
    exact absurd hc (not_digit_of_sign (shape.isSign_low.mem (by simp [hsign])))

/-- The ranges of a text keep a literal whole if none ends or starts inside it. -/
theorem keepsWhole_ranges {pre lit post : List Char} {ps : List (Piece FoundRange)} (hlit : IsNumber lit)
    (h : Scans RangeToken.find [] (pre ++ (lit ++ post)) ps)
    (hends : ¬ RangeEndsInside (pre ++ (lit ++ post)) pre lit)
    (hstarts : ¬ RangeStartsInside pre lit post) :
    KeepsWhole operatorLength ps pre.length (pre.length + lit.length) := by
  rintro front r covered back rfl
  obtain ⟨hne, hfound⟩ := h.at_found
  have hnotstart : ¬ (pre.length < (textOf front).length ∧
    (textOf front).length < pre.length + lit.length) := by
    rintro ⟨hstart, hstop⟩
    obtain ⟨x, y, hx, hexp, hrest⟩ := numericFinder_range.starts_inside hlit h hstart hstop
    refine hstarts ⟨x, y, hexp, ?_⟩
    rw [← List.reverse_append, ← hx, ← hrest]
    simpa using Option.isSome_of_eq_some hfound
  have hnotend : ¬ ((textOf front).length ≤ pre.length ∧
      pre.length < (textOf front).length + covered.length ∧
      (textOf front).length + covered.length < pre.length + lit.length) := by
    rintro ⟨hbefore, hstart, hstop⟩
    obtain ⟨head, tail, hsplit⟩ := range_ends_inside hlit h hbefore hstart hstop
    exact hends ⟨front, r, covered, back, head, tail, h, hsplit⟩
  have hoperator : (textOf front).length = pre.length → operatorLength r = 0 := by
    intro hlength
    have htext := h.textOf_eq
    rw [textOf_append, textOf_found] at htext
    obtain ⟨-, hrest⟩ := List.append_inj htext hlength
    refine operatorLength_eq_zero hfound fun c hc => hlit.first ?_
    rw [hrest, List.head?_append_of_ne_nil _ hlit.ne_nil] at hc
    exact hc
  have hkept := operatorLength_le r
  omega

theorem not_keepsWhole_of_rangeEndsInside {text pre lit : List Char} (hends : RangeEndsInside text pre lit) :
    ∃ ps, Scans RangeToken.find [] text ps ∧
      ¬ KeepsWhole operatorLength ps pre.length (pre.length + lit.length) := by
  obtain ⟨front, r, covered, back, head, tail, hscan, rfl, hhead, htail, hsplit, -⟩ := hends
  refine ⟨_, hscan, fun h => ?_⟩
  have hlength := congrArg List.length hsplit
  have hcovered := List.length_pos_iff.mpr hscan.at_found.1
  have hkept := operatorLength_le r
  have := List.length_pos_iff.mpr hhead
  have := List.length_pos_iff.mpr htail
  simp only [List.length_append] at hlength h
  rcases h front r covered back rfl with h | h | ⟨-, h⟩ <;> omega

theorem not_keepsWhole_of_rangeStartsInside {pre lit post : List Char} {ps : List (Piece FoundRange)}
    (h : Scans RangeToken.find [] (pre ++ (lit ++ post)) ps) (hstarts : RangeStartsInside pre lit post) :
    ¬ KeepsWhole operatorLength ps pre.length (pre.length + lit.length) := by
  obtain ⟨x, y, hexp, hsome⟩ := hstarts
  obtain ⟨front, r, covered, back, rfl, hfront⟩ :=
    numericFinder_range.exists_found RangeToken.find_covers hexp h hsome
  obtain ⟨-, hfound⟩ := h.at_found
  have hrest : covered ++ textOf back = y ++ post := by
    have htext := h.textOf_eq
    rw [textOf_append, textOf_found, hfront, hexp.split, List.append_assoc, List.append_assoc] at htext
    exact List.append_cancel_left (List.append_cancel_left htext)
  have hkept : operatorLength r = 0 := by
    refine operatorLength_eq_zero hfound fun c hc => .inl (hexp.isDigits.2 c ?_)
    rw [hrest, List.head?_append_of_ne_nil _ hexp.isDigits.1] at hc
    exact List.mem_of_head? hc
  obtain ⟨hpos, hlt⟩ := hexp.front_length
  have hlength := congrArg List.length hfront
  rw [List.length_append] at hlength
  intro hkeeps
  rcases hkeeps front r covered back rfl with h | h | ⟨h, -⟩ <;> omega

/-- The percentages of a text keep a literal whole exactly if none starts inside it. -/
theorem keepsWhole_percent_iff {pre lit post : List Char} {qs : List (Piece (List Char))}
    (hlit : IsNumber lit) (h : Scans percent [] (pre ++ (lit ++ post)) qs) :
    KeepsWhole (fun _ => 0) qs pre.length (pre.length + lit.length) ↔ ¬ PercentStartsInside lit post := by
  constructor
  · rintro hkeeps ⟨x, y, places, rest, hexp, hn, rfl⟩
    have hsome : (percent (x.reverse ++ pre.reverse) (y ++ (places ++ '%' :: rest))).isSome = true := by
      exact percent_isSome_iff.mpr ⟨hexp.standsAlone _, y ++ places, rest, hn, by simp⟩
    obtain ⟨front, n, covered, back, rfl, hfront⟩ :=
      numericFinder_percent.exists_found percent_covers hexp h hsome
    obtain ⟨hpos, hlt⟩ := hexp.front_length
    have hlength := congrArg List.length hfront
    rw [List.length_append] at hlength
    have hne := List.length_pos_iff.mpr h.at_found.1
    have hwhole := hkeeps front n covered back rfl
    simp only [Nat.add_zero] at hwhole
    omega
  · rintro hno front n covered back rfl
    obtain ⟨hne, hfound⟩ := h.at_found
    obtain ⟨-, numeral, hnumeral, htext, -⟩ := percent_eq_some hfound
    have hcovered : covered = numeral ++ ['%'] := by
      refine List.append_cancel_right (htext.trans ?_)
      simp
    have hnotstart : ¬ (pre.length < (textOf front).length ∧
        (textOf front).length < pre.length + lit.length) := by
      rintro ⟨hstart, hstop⟩
      obtain ⟨x, y, hx, hexp, hrest⟩ := numericFinder_percent.starts_inside hlit h hstart hstop
      rw [hcovered, List.append_assoc, List.singleton_append] at hrest
      rcases List.append_eq_append_iff.mp hrest with ⟨w, hy, hw⟩ | ⟨places, rfl, hpost⟩
      · rcases w with - | ⟨c, w⟩
        · rw [List.append_nil] at hy
          refine hno ⟨x, y, [], textOf back, hexp, ?_, by simpa using hw.symm⟩
          rwa [List.append_nil, hy]
        · obtain ⟨rfl, -⟩ := List.cons.inj hw
          exact absurd (hexp.isDigits.2 '%' (by simp [hy])) (by decide +kernel)
      · exact hno ⟨x, y, places, textOf back, hexp, hnumeral, hpost⟩
    have hnotend : ¬ ((textOf front).length ≤ pre.length ∧
        pre.length < (textOf front).length + covered.length ∧
        (textOf front).length + covered.length < pre.length + lit.length) := by
      rintro ⟨hbefore, hstart, hstop⟩
      obtain ⟨z, head, tail, hsplit, -, rfl, hhead, -⟩ := h.ends_inside hbefore hstart hstop
      obtain ⟨head, c, rfl⟩ := (List.eq_nil_or_concat head).resolve_left hhead
      rw [hcovered, List.concat_eq_append, ← List.append_assoc] at hsplit
      obtain rfl : '%' = c := List.singleton_inj.mp (List.append_inj' hsplit rfl).2
      exact hlit.not_mem_mark (.inr rfl) (by simp)
    have := List.length_pos_iff.mpr hne
    simp only [Nat.add_zero]
    omega

/-! ## Percentages after ranges are replaced -/

theorem substituteSegments_append (replace : Nat → RangeToken → List Char) (index : Nat)
    (xs ys : List (Segment FoundRange)) :
    substituteSegments replace index (xs ++ ys) =
      substituteSegments replace index xs ++
        substituteSegments replace (index + (xs.filterMap Segment.found?).length) ys := by
  induction xs generalizing index with
  | nil => rfl
  | cons x xs ih =>
    cases x with
    | char c =>
      rw [List.cons_append, substituteSegments, ih]
      rfl
    | found r =>
      have hcount : ((Segment.found r :: xs).filterMap Segment.found?).length =
          1 + (xs.filterMap Segment.found?).length := by
        simp [Segment.found?, Nat.add_comm]
      rw [List.cons_append, substituteSegments, ih, substituteSegments, hcount, Nat.add_assoc]
      simp only [List.append_assoc]

theorem substituteSegments_map_char (replace : Nat → RangeToken → List Char) (index : Nat) (u : List Char)
    (l : List (Segment FoundRange)) :
    substituteSegments replace index (u.map .char ++ l) = u ++ substituteSegments replace index l := by
  induction u with
  | nil => rfl
  | cons c u ih => rw [List.map_cons, List.cons_append, substituteSegments, ih, List.cons_append]

/-- The text of some pieces with each range replaced. -/
def replaced (replace : Nat → RangeToken → List Char) (index : Nat) (ps : List (Piece FoundRange)) :
    List Char :=
  substituteSegments replace index (ps.map Piece.segment)

/-- After a word no range starts. -/
theorem exists_char_of_word {before : List Char} {back : List (Piece FoundRange)} {c : Char}
    (h : Scans RangeToken.find (c :: before) (textOf back) back) (hc : isWordChar c = true ∨ c = '.') :
    back = [] ∨ ∃ d rest, back = .char d :: rest ∧
      Scans RangeToken.find (d :: c :: before) (textOf rest) rest := by
  generalize htext : textOf back = text at h
  cases h with
  | nil => exact .inl rfl
  | char _ h =>
    rw [textOf_char, List.cons.injEq] at htext
    rw [← htext.2] at h
    exact .inr ⟨_, _, rfl, h⟩
  | found _ hsome _ =>
    have halone := (RangeToken.find_eq_some hsome).1
    rcases hc with hc | rfl <;> simp_all [standsAlone]

/-- After a word no range starts, so that what follows up to a percent sign stays. -/
theorem percent_after_iff {before : List Char} {back : List (Piece FoundRange)} {c : Char}
    (h : Scans RangeToken.find (c :: before) (textOf back) back) (hc : isWordChar c = true ∨ c = '.')
    (replace : Nat → RangeToken → List Char) (index : Nat) {u : List Char}
    (hu : ∀ d ∈ u, isWordChar d = true ∨ d = '.') :
    (∃ rest, textOf back = u ++ '%' :: rest) ↔
    ∃ rest, replaced replace index back = u ++ '%' :: rest := by
  induction u generalizing back before c with
  | nil =>
    rcases exists_char_of_word h hc with rfl | ⟨d, rest, rfl, -⟩
    · simp [replaced, substituteSegments]
    · simp [replaced, substituteSegments, Piece.segment]
  | cons x u ih =>
    rcases exists_char_of_word h hc with rfl | ⟨d, rest, rfl, hrest⟩
    · simp [replaced, substituteSegments]
    · by_cases hd : d = x
      · subst hd
        simpa [replaced, substituteSegments, Piece.segment] using
          ih hrest (hu d (by simp)) fun e he => hu e (by simp [he])
      · simp [replaced, substituteSegments, Piece.segment, hd]

/-- Whether a percentage starts inside a literal does not depend on what ranges are replaced with. -/
theorem percentStartsInside_replaced_iff {pre lit : List Char} {front back : List (Piece FoundRange)}
    (h : Scans RangeToken.find [] (pre ++ (lit ++ textOf back)) (front ++ lit.map .char ++ back))
    (replace : Nat → RangeToken → List Char) (index : Nat) :
    PercentStartsInside lit (replaced replace index back) ↔ PercentStartsInside lit (textOf back) := by
  have htransfer : ∀ x y places, SignedExponent lit x y → IsNumeral (y ++ places) →
      ((∃ rest, textOf back = places ++ '%' :: rest) ↔
        ∃ rest, replaced replace index back = places ++ '%' :: rest) := by
    intro x y places hexp hn
    obtain ⟨y', c, hy⟩ := (List.eq_nil_or_concat y).resolve_left hexp.isDigits.1
    have hdrop := h.drop
    rw [textOf_append, textOf_chars, hexp.split, hy, List.concat_eq_append, List.append_nil,
      ← List.append_assoc, ← List.append_assoc, List.reverse_append] at hdrop
    have hword : ∀ d, isDigit d = true ∨ d = '.' → isWordChar d = true ∨ d = '.' :=
      fun d hd => hd.imp_left isWordChar_of_isDigit
    exact percent_after_iff hdrop (hword c (.inl (hexp.isDigits.2 c (by simp [hy])))) replace index
      fun d hd => hword d (hn.mem (List.mem_append_right _ hd))
  constructor
  · rintro ⟨x, y, places, rest, hexp, hn, hrest⟩
    obtain ⟨rest, hrest⟩ := (htransfer x y places hexp hn).mpr ⟨rest, hrest⟩
    exact ⟨x, y, places, rest, hexp, hn, hrest⟩
  · rintro ⟨x, y, places, rest, hexp, hn, hrest⟩
    obtain ⟨rest, hrest⟩ := (htransfer x y places hexp hn).mp ⟨rest, hrest⟩
    exact ⟨x, y, places, rest, hexp, hn, hrest⟩

/-! ## Literals -/

/-- Neither the ranges of a text nor, once these are replaced, its percentages replace a proper part of the
literal that follows `pre`. -/
def LiteralKept (replace : Nat → RangeToken → List Char) (text pre lit : List Char) : Prop :=
  ∀ ps, Scans RangeToken.find [] text ps →
    KeepsWhole operatorLength ps pre.length (pre.length + lit.length) ∧
      ∀ front back, ps = front ++ lit.map .char ++ back → textOf front = pre →
        ∀ qs, Scans percent [] (substituteRanges replace text) qs →
          KeepsWhole (fun _ => 0) qs (replaced replace 0 front).length
            ((replaced replace 0 front).length + lit.length)

/-- A literal with an exponent that the ranges of a text keep is no part of a range. -/
theorem exists_literal_pieces {pre lit post x y : List Char} {ps : List (Piece FoundRange)}
    (hlit : IsNumber lit) (h : Scans RangeToken.find [] (pre ++ (lit ++ post)) ps)
    (hexp : SignedExponent lit x y)
    (hkeeps : KeepsWhole operatorLength ps pre.length (pre.length + lit.length)) :
    ∃ front back, ps = front ++ lit.map .char ++ back ∧ textOf front = pre ∧ textOf back = post := by
  obtain ⟨hpos, hlt⟩ := hexp.front_length
  have hfree : ∀ front r covered back, ps = front ++ .found r covered :: back →
      (textOf front).length + covered.length ≤ pre.length ∨
        pre.length + lit.length ≤ (textOf front).length := by
    rintro front r covered back rfl
    obtain ⟨-, hfound⟩ := h.at_found
    rcases hkeeps front r covered back rfl with hbefore | hafter | ⟨hlow, hhigh⟩
    · exact .inl hbefore
    · refine .inr ?_
      by_contra hinside
      have hkept := operatorLength_le r
      obtain ⟨x', y', -, hexp', hrest⟩ :=
        numericFinder_range.starts_inside hlit h (by omega) (by omega)
      have hnone : operatorLength r = 0 := by
        refine operatorLength_eq_zero hfound fun c hc => .inl (hexp'.isDigits.2 c ?_)
        rw [hrest, List.head?_append_of_ne_nil _ hexp'.isDigits.1] at hc
        exact List.mem_of_head? hc
      omega
    · exfalso
      obtain ⟨letter, hletter, hmem⟩ := hexp.exists_letter
      refine numericFinder_range.no_letter _ _ _ _ hfound letter hletter ?_
      have htext := h.textOf_eq
      rw [textOf_append, textOf_found] at htext
      obtain ⟨z, rfl⟩ : textOf front <+: pre :=
        List.prefix_of_prefix_length_le ⟨_, htext⟩ (List.prefix_append ..) (by omega)
      rw [List.append_assoc] at htext
      have hcovered : z ++ lit <+: covered := by
        refine List.prefix_of_prefix_length_le ⟨post, ?_⟩ (List.prefix_append covered (textOf back)) ?_
        · rw [List.append_cancel_left htext, List.append_assoc]
        · simp only [List.length_append] at hhigh ⊢
          omega
      exact hcovered.subset (List.mem_append_right _ hmem)
  obtain ⟨front, back, rfl, rfl⟩ := exists_chars hlit.ne_nil h.textOf_eq
    (fun r covered hmem => h.covered_ne_nil hmem) hfree
  refine ⟨front, back, rfl, rfl, ?_⟩
  have htext := h.textOf_eq
  rw [List.append_assoc, textOf_append, textOf_append, textOf_chars] at htext
  exact List.append_cancel_left (List.append_cancel_left htext)

theorem replaced_split {pre lit : List Char} {front back : List (Piece FoundRange)}
    (h : Scans RangeToken.find [] (pre ++ (lit ++ textOf back)) (front ++ lit.map .char ++ back))
    (replace : Nat → RangeToken → List Char) :
    ∃ index, substituteRanges replace (pre ++ (lit ++ textOf back)) =
      replaced replace 0 front ++ (lit ++ replaced replace index back) := by
  rw [substituteRanges, h.segments_eq, List.map_append, List.map_append, List.append_assoc,
    substituteSegments_append, List.map_map]
  exact ⟨_, congrArg _ (substituteSegments_map_char replace _ lit _)⟩

section

variable {replace : Nat → RangeToken → List Char} {text pre lit post : List Char}

theorem LiteralKept.not_rangeEndsInside (h : LiteralKept replace text pre lit) :
    ¬ RangeEndsInside text pre lit := by
  intro hends
  obtain ⟨ps, hps, hnot⟩ := not_keepsWhole_of_rangeEndsInside hends
  exact hnot (h ps hps).1

theorem LiteralKept.not_rangeStartsInside (h : LiteralKept replace (pre ++ (lit ++ post)) pre lit) :
    ¬ RangeStartsInside pre lit post := by
  intro hstarts
  obtain ⟨ps, hps⟩ := Scans.exists_scan RangeToken.find_covers [] (pre ++ (lit ++ post))
  exact not_keepsWhole_of_rangeStartsInside hps hstarts (h ps hps).1

theorem LiteralKept.not_percentStartsInside (hlit : IsNumber lit)
    (h : LiteralKept replace (pre ++ (lit ++ post)) pre lit) : ¬ PercentStartsInside lit post := by
  rintro ⟨x, y, places, rest, hexp, hn, hrest⟩
  obtain ⟨ps, hps⟩ := Scans.exists_scan RangeToken.find_covers [] (pre ++ (lit ++ post))
  obtain ⟨front, back, rfl, rfl, rfl⟩ := exists_literal_pieces hlit hps hexp (h ps hps).1
  obtain ⟨index, hreplaced⟩ := replaced_split hps replace
  obtain ⟨qs, hqs⟩ := Scans.exists_scan percent_covers []
    (substituteRanges replace (textOf front ++ (lit ++ textOf back)))
  have hwhole := (h _ hps).2 front back rfl rfl qs hqs
  rw [hreplaced] at hqs
  rw [keepsWhole_percent_iff hlit hqs, percentStartsInside_replaced_iff hps] at hwhole
  exact hwhole ⟨x, y, places, rest, hexp, hn, hrest⟩

theorem literalKept_of_not (hlit : IsNumber lit) (hends : ¬ RangeEndsInside (pre ++ (lit ++ post)) pre lit)
    (hstarts : ¬ RangeStartsInside pre lit post) (hpercent : ¬ PercentStartsInside lit post) :
    LiteralKept replace (pre ++ (lit ++ post)) pre lit := by
  intro ps hps
  refine ⟨keepsWhole_ranges hlit hps hends hstarts, ?_⟩
  rintro front back rfl rfl qs hqs
  have hpost : textOf back = post := by
    have htext := hps.textOf_eq
    rw [List.append_assoc, textOf_append, textOf_append, textOf_chars] at htext
    exact List.append_cancel_left (List.append_cancel_left htext)
  rw [← hpost] at hps hqs hpercent
  obtain ⟨index, hreplaced⟩ := replaced_split hps replace
  rw [hreplaced] at hqs
  rwa [keepsWhole_percent_iff hlit hqs, percentStartsInside_replaced_iff hps]

end

/-- A literal of an expanded text is kept exactly if no range ends inside it and neither a range nor a
percentage starts at the digits of its signed exponent. -/
theorem literal_kept_iff {raw : String} {pre lit post : List Char}
    (replace : Nat → RangeToken → List Char) (hlit : IsNumber lit)
    (htext : expand raw.toList = pre ++ (lit ++ post)) :
    LiteralKept replace (expand raw.toList) pre lit ↔
      ¬ RangeEndsInside (expand raw.toList) pre lit ∧ ¬ RangeStartsInside pre lit post ∧
        ¬ PercentStartsInside lit post := by
  rw [htext]
  exact ⟨fun h => ⟨h.not_rangeEndsInside, h.not_rangeStartsInside, h.not_percentStartsInside hlit⟩,
    fun ⟨hends, hstarts, hpercent⟩ => literalKept_of_not hlit hends hstarts hpercent⟩

theorem isDigits_one {d : Char} (hd : isDigit d = true) : IsDigits [d] :=
  ⟨List.cons_ne_nil _ _, fun c hc => by rwa [List.mem_singleton.mp hc]⟩

theorem signedExponent_hundredth : SignedExponent "1e-2".toList "1e-".toList "2".toList :=
  .intro (.whole (isDigits_one (by decide +kernel))) (.inl rfl) (.inr rfl)
    (isDigits_one (by decide +kernel))

theorem isNumber_hundredth : IsNumber "1e-2".toList :=
  .scientific (.whole (isDigits_one (by decide +kernel)))
    (.intro (.inl rfl) (.inr (.inr rfl)) (isDigits_one (by decide +kernel)))

/-- The percent sign of `1e-2%` is that of the digit of the exponent alone. -/
theorem hundredth_percent_not_kept :
    IsNumber "1e-2".toList ∧
      ∀ replace, ¬ LiteralKept replace (expand "1e-2%".toList) [] "1e-2".toList := by
  have htext : expand "1e-2%".toList = [] ++ ("1e-2".toList ++ "%".toList) := by decide +kernel
  have hpercent : PercentStartsInside "1e-2".toList "%".toList :=
    ⟨_, _, [], [], signedExponent_hundredth, .whole (isDigits_one (by decide +kernel)), rfl⟩
  exact ⟨isNumber_hundredth, fun replace h =>
    ((literal_kept_iff replace isNumber_hundredth htext).mp h).2.2 hpercent⟩

/-- A literal that is part of no longer literal and of no name. -/
structure StandsAsLiteral (pre lit post : List Char) : Prop where
  isNumber : IsNumber lit
  maximal : ∀ x y z w, pre = x ++ y → post = z ++ w → IsNumber (y ++ lit ++ z) → y = [] ∧ z = []
  outside_name : ∀ c, pre.getLast? = some c → isNameChar c = false

/-- The lower bound of `1e-2~3` is the digit of the exponent, and what is left before it is a product. -/
theorem hundredth_range_not_kept :
    ∃ raw pre lit post, expand raw.toList = pre ++ (lit ++ post) ∧ StandsAsLiteral pre lit post ∧
      (∀ replace, ¬ LiteralKept replace (expand raw.toList) pre lit) ∧
      NormalForm.ofText raw = ⟨"1*e-sample(uniform(2, 3))", true⟩ := by
  have htext : expand "1e-2~3".toList = [] ++ ("1e-2".toList ++ "~3".toList) := by decide +kernel
  refine ⟨"1e-2~3", [], "1e-2".toList, "~3".toList, htext, ⟨isNumber_hundredth, ?_, by simp⟩, ?_,
    by decide +kernel⟩
  · intro x y z w hx hz hnumber
    have hy := (List.append_eq_nil_iff.mp hx.symm).2
    rcases z with - | ⟨c, z⟩
    · exact ⟨hy, rfl⟩
    · obtain rfl : '~' = c := (List.cons.inj (show '~' :: ['3'] = c :: (z ++ w) from hz)).1
      exact absurd (by simp) (hnumber.not_mem_mark (.inl rfl))
  · intro replace h
    rw [htext] at h
    exact h.not_rangeStartsInside ⟨_, _, signedExponent_hundredth, by decide +kernel⟩

end RangeCalc
