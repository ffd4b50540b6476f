import RangeCalc.Proofs.Shorthand.Blank
import RangeCalc.Proofs.Shorthand.Percent

/-!
# Places of ranges

Whether a range is found at a place can be told from the text up to the first digit of its second bound.

* `RangeBeginning`, `StartsRange`: that text, and the places;
* `found_range_of_starts`, `free_range_of_starts`: ranges are found there, and only there;
* `startsRange_inherited`: tidying makes no such place;
* `NoRange`, `exists_chars_of_range`: what a replacement must be like to be no part of what a range begins with.
-/

namespace RangeCalc

open Text Shorthand

/-- A range without the sign in front, up to the first digit of its second bound. -/
inductive RangeBeginning : List Char → Prop where
  | intro {n bs bs' sign : List Char} {d : Char} (percent : Bool) (hn : IsNumeral n)
      (hbs : ∀ c ∈ bs, isBlank c = true) (hbs' : ∀ c ∈ bs', isBlank c = true) (hsign : IsSign sign)
      (hd : isDigit d = true) :
      RangeBeginning (n ++ (percentChars percent ++ (bs ++ '~' :: (bs' ++ (sign ++ [d])))))

/-- At a place a range without a sign stands alone. -/
def StartsRange (before text : List Char) : Prop :=
  standsAlone before = true ∧ ∃ w rest, RangeBeginning w ∧ text = w ++ rest

theorem RangeBeginning.head {w : List Char} (hw : RangeBeginning w) :
    ∃ d tail, w = d :: tail ∧ isDigit d = true := by
  obtain ⟨p, hn, -, -, -, -⟩ := hw
  obtain ⟨d, n, rfl, hd⟩ := hn.head
  exact ⟨d, _, rfl, hd⟩

/-! ## Ranges are found at these places -/

theorem signed?_digit {d : Char} (hd : isDigit d = true) (rest : List Char) :
    signed? (d :: rest) = numeral? (d :: rest) := by
  have hne : ∀ s, s = '+' ∨ s = '-' → d ≠ s := by
    rintro s hs rfl
    rw [not_isDigit_sign hs] at hd
    cases hd
  rw [signed?]
  · rintro tail ⟨rfl, -⟩
    exact hne '-' (.inr rfl) rfl
  · rintro tail ⟨rfl, -⟩
    exact hne '+' (.inl rfl) rfl

/-- A bound is read where there is a digit after an optional sign. -/
theorem signed?_isSome {sign : List Char} {d : Char} (hsign : IsSign sign) (hd : isDigit d = true)
    (rest : List Char) : (signed? (sign ++ d :: rest)).isSome = true := by
  have hread : (numeral? (d :: rest)).isSome = true := by
    rw [← Option.ne_none_iff_isSome]
    intro h
    exact readsFront_numeral?.eq_none_iff.mp h [d] (.whole (isDigits_one hd)) ⟨rest, rfl⟩
  rcases hsign with rfl | rfl | rfl
  · rw [List.nil_append, signed?_digit hd]
    exact hread
  · simpa [signed?] using hread
  · simpa [signed?] using hread

theorem percentSign_percentChars {cs : List Char} (p : Bool) (h : cs.head? ≠ some '%') :
    RangeToken.percentSign (percentChars p ++ cs) = (p, cs) := by
  cases p with
  | true => rfl
  | false =>
    rw [percentChars, if_neg Bool.false_ne_true, List.nil_append, RangeToken.percentSign]
    rintro rest rfl
    exact h rfl

theorem isSign_word {sign : List Char} (hsign : IsSign sign) :
    ∀ c ∈ sign, isBlank c = false ∧ c ≠ '*' := by
  intro c hc
  rcases hsign.mem hc with rfl | rfl <;> decide

/-- A bound starts with a sign or a digit. -/
theorem head_bound {sign : List Char} {d : Char} (hsign : IsSign sign) (hd : isDigit d = true)
    (rest : List Char) : ∃ x tail, sign ++ d :: rest = x :: tail ∧ isBlank x = false ∧ x ≠ '*' := by
  cases sign with
  | nil => exact ⟨d, rest, rfl, isFactorChar_word (by simp [isFactorChar, hd])⟩
  | cons s sign => exact ⟨s, _, rfl, isSign_word hsign s List.mem_cons_self⟩

/-- What may follow a numeral in a range. -/
theorem head_before_tilde {bs : List Char} (hbs : ∀ c ∈ bs, isBlank c = true) (tail : List Char) :
    ∃ x rest, bs ++ '~' :: tail = x :: rest ∧ (isBlank x = true ∨ x = '~') := by
  cases bs with
  | nil => exact ⟨'~', tail, rfl, .inr rfl⟩
  | cons b bs => exact ⟨b, _, rfl, .inl (hbs b List.mem_cons_self)⟩

theorem not_digit_of_blank_or_tilde {x : Char} (h : isBlank x = true ∨ x = '~') :
    ¬ (isDigit x = true ∨ x = '.') ∧ x ≠ '%' ∧ x ≠ '*' := by
  rcases h with h | rfl
  · exact ⟨not_digit_of_isBlank h, ne_of_isBlank h (by decide), ne_of_isBlank h (by decide)⟩
  · decide

/-- A range is found at each of these places. -/
theorem found_range_of_starts {before text : List Char} (h : StartsRange before text) :
    Found RangeToken.find before text := by
  obtain ⟨halone, w, rest, @⟨n, bs, bs', sign, d, p, hn, hbs, hbs', hsign, hd⟩, rfl⟩ := h
  obtain ⟨tail, htail⟩ : ∃ tail, tail = bs' ++ (sign ++ d :: rest) := ⟨_, rfl⟩
  obtain ⟨x, rest', heq, hx⟩ := head_before_tilde hbs tail
  obtain ⟨hdigit, hpercent, -⟩ := not_digit_of_blank_or_tilde hx
  have hsplit : n ++ (percentChars p ++ (bs ++ '~' :: (bs' ++ (sign ++ [d])))) ++ rest =
      n ++ (percentChars p ++ (bs ++ '~' :: tail)) := by simp [htail]
  have hlow : signed? (n ++ (percentChars p ++ (bs ++ '~' :: tail))) =
      some (n, percentChars p ++ (bs ++ '~' :: tail)) := by
    have hfront : numeral? (n ++ (percentChars p ++ (bs ++ '~' :: tail))) =
        some (n, percentChars p ++ (bs ++ '~' :: tail)) := by
      refine readsFront_numeral?.eq_some_iff.mpr (hn.front fun y hy => ?_)
      cases p with
      | true =>
        obtain rfl := Option.some.inj hy
        decide +kernel
      | false =>
        rw [percentChars, if_neg Bool.false_ne_true, List.nil_append, heq] at hy
        obtain rfl := Option.some.inj hy
        exact hdigit
    obtain ⟨c, n, rfl, hc⟩ := hn.head
    rw [List.cons_append, signed?_digit hc]
    exact hfront
  have hsign' : RangeToken.percentSign (percentChars p ++ (bs ++ '~' :: tail)) = (p, bs ++ '~' :: tail) :=
    percentSign_percentChars p (by rw [heq]; simpa using hpercent)
  have hskip : skipBlanks (bs ++ '~' :: tail) = '~' :: tail := skipBlanks_append hbs (by decide)
  have hskip' : skipBlanks tail = sign ++ d :: rest := by
    obtain ⟨y, tail', hy, hblank, -⟩ := head_bound hsign hd rest
    rw [htail, hy]
    exact skipBlanks_append hbs' hblank
  obtain ⟨⟨high, after⟩, hhigh⟩ := Option.isSome_iff_exists.mp (signed?_isSome hsign hd rest)
  rw [Found, hsplit]
  simp only [RangeToken.find, guard, halone, hlow, if_true, bind, pure, Option.bind_some, hsign', hskip,
    expect?_cons, hskip', hhigh]
  obtain ⟨c, n, rfl, -⟩ := hn.head
  simp only []
  split <;> rfl

theorem RangeShape.exists_beginning {covered : List Char} {r : FoundRange} (shape : RangeShape covered r) :
    ∃ sign w rest, IsSign sign ∧ RangeBeginning w ∧ covered = sign ++ (w ++ rest) := by
  have htext := shape.text_eq
  obtain ⟨d, high, hhigh, hd⟩ := shape.isNumeral_high.head
  rw [hhigh] at htext
  exact ⟨shape.lowSign, _, high ++ percentChars r.token.maxPercent, shape.isSign_low,
    .intro r.token.minPercent shape.isNumeral_low shape.isBlank_left shape.isBlank_right shape.isSign_high hd,
    htext.trans (by simp)⟩

/-- Ranges are found only at these places, or at a sign before one. -/
theorem free_range_of_starts {text : List Char} (h : Free StartsRange text) :
    Free (Found RangeToken.find) text := by
  rintro pre post rfl hfound
  obtain ⟨⟨r, after⟩, hsome⟩ := Option.isSome_iff_exists.mp hfound
  obtain ⟨halone, covered, rfl, ⟨shape⟩⟩ := RangeToken.find_eq_some hsome
  obtain ⟨sign, w, rest, hsign, hw, rfl⟩ := shape.exists_beginning
  have hsigned : ∀ s, s = '+' ∨ s = '-' → sign ≠ [s] := by
    rintro s hs rfl
    refine h (pre ++ [s]) (w ++ (rest ++ after)) (by simp) ⟨?_, w, _, hw, rfl⟩
    rw [List.reverse_append]
    rcases hs with rfl | rfl
    · exact standsAside_plus
    · exact standsAside_minus
  rcases hsign with rfl | rfl | rfl
  · exact h pre _ rfl ⟨halone, w, rest ++ after, hw, by simp⟩
  · exact hsigned '+' (.inl rfl) rfl
  · exact hsigned '-' (.inr rfl) rfl

/-! ## Replacements -/

/-- A replacement without a tilde that ends with a parenthesis, and starts like no part of a range: with
neither a digit nor white space, and with no digit after a sign. -/
structure NoRange (out : List Char) : Prop where
  tilde : '~' ∉ out
  last : out.getLast? = some ')'
  starts : ∃ x y tail, out = x :: y :: tail ∧ isBlank x = false ∧ isDigit x = false ∧
    (x = '+' ∨ x = '-' → isDigit y = false)

section

variable {α : Type} {out : α → List Char} {ps : List (Piece α)} {pre w rest : List Char}

/-- No replacement ends before the tilde of a range, or inside it. -/
theorem exists_chars_low {part : List Char} (h : rewritten out ps = pre ++ part) (hpart : ')' ∉ part)
    (hout : ∀ a covered, .found a covered ∈ ps → NoRange (out a)) :
    ∃ front, ps = front ++ part.map .char ∧ rewritten out front = pre :=
  exists_chars_end h fun a covered hmem => ⟨')', (hout a covered hmem).last, hpart⟩

/-- No replacement starts after the tilde of a range and before a digit of its second bound. -/
theorem exists_chars_high {bs sign : List Char} {d : Char} (hbs : ∀ c ∈ bs, isBlank c = true)
    (hsign : IsSign sign) (hd : isDigit d = true) (h : rewritten out ps = bs ++ (sign ++ d :: rest))
    (hout : ∀ a covered, .found a covered ∈ ps → NoRange (out a)) :
    ∃ back, ps = (bs ++ (sign ++ [d])).map .char ++ back ∧ rewritten out back = rest := by
  have hdigit : ∀ {ps : List (Piece α)}, (∀ a covered, .found a covered ∈ ps → NoRange (out a)) →
      rewritten out ps = d :: rest → ∃ back, ps = [d].map .char ++ back ∧ rewritten out back = rest :=
    fun hout h => exists_chars_of_rewritten (show _ = [d] ++ rest from h) fun a covered hmem => by
      obtain ⟨x, y, tail, heq, -, hx, -⟩ := (hout a covered hmem).starts
      refine ⟨x, by rw [heq, List.head?_cons], fun hin => ?_⟩
      rw [List.mem_singleton.mp hin, hd] at hx
      cases hx
  obtain ⟨back, rfl, hback⟩ := exists_chars_of_rewritten h fun a covered hmem => by
    obtain ⟨x, y, tail, heq, hx, -, -⟩ := (hout a covered hmem).starts
    refine ⟨x, by rw [heq, List.head?_cons], fun hin => ?_⟩
    rw [hbs x hin] at hx
    cases hx
  have hout' : ∀ a covered, .found a covered ∈ back → NoRange (out a) := fun a covered hmem =>
    hout a covered (List.mem_append_right _ hmem)
  have hsigned : ∀ s, s = '+' ∨ s = '-' → rewritten out back = s :: d :: rest →
      ∃ tail, back = [s, d].map .char ++ tail ∧ rewritten out tail = rest := by
    intro s hs heq
    rcases back with - | ⟨c | ⟨a, covered⟩, back⟩
    · cases heq
    · obtain ⟨rfl, hnext⟩ := List.cons.inj heq
      obtain ⟨tail, rfl, htail⟩ :=
        hdigit (fun a covered hmem => hout' a covered (List.mem_cons_of_mem _ hmem)) hnext
      exact ⟨tail, rfl, htail⟩
    · obtain ⟨x, y, tail, hstart, -, -, hy⟩ := (hout' a covered List.mem_cons_self).starts
      rw [rewritten_found, hstart] at heq
      obtain ⟨rfl, hnext⟩ := List.cons.inj heq
      rw [(List.cons.inj hnext).1, hd] at hy
      cases hy hs
  have hrest : ∃ tail, back = (sign ++ [d]).map .char ++ tail ∧ rewritten out tail = rest := by
    rcases hsign with rfl | rfl | rfl
    · exact hdigit hout' hback
    · exact hsigned '+' (.inl rfl) hback
    · exact hsigned '-' (.inr rfl) hback
  obtain ⟨tail, rfl, htail⟩ := hrest
  exact ⟨tail, by simp, htail⟩

/-- What a range begins with consists of characters that are not replaced. -/
theorem exists_chars_of_range (h : rewritten out ps = pre ++ (w ++ rest)) (hw : RangeBeginning w)
    (hout : ∀ a covered, .found a covered ∈ ps → NoRange (out a)) :
    ∃ front back, ps = front ++ w.map .char ++ back ∧ rewritten out front = pre ∧
      rewritten out back = rest := by
  obtain @⟨n, bs, bs', sign, d, p, hn, hbs, hbs', hsign, hd⟩ := hw
  have hsplit : rewritten out ps =
      (pre ++ (n ++ percentChars p ++ bs)) ++ '~' :: (bs' ++ (sign ++ d :: rest)) := by rw [h]; simp
  rcases exists_piece hsplit with ⟨left, right, rfl, hleft, hright⟩ | ⟨left, a, covered, right, u, v, rfl, hu, -, -⟩
  · have hparen : ')' ∉ n ++ percentChars p ++ bs := by
      simp only [List.mem_append, not_or]
      refine ⟨⟨fun hmem => absurd (hn.mem hmem) (by decide), fun hmem => ?_⟩, fun hmem => ?_⟩
      · exact absurd (mem_percentChars hmem) (by decide)
      · exact absurd (hbs _ hmem) (by decide)
    obtain ⟨front, rfl, hfront⟩ := exists_chars_low hleft hparen fun a covered hmem =>
      hout a covered (List.mem_append_left _ hmem)
    obtain ⟨back, rfl, hback⟩ := exists_chars_high hbs' hsign hd hright fun a covered hmem =>
      hout a covered (List.mem_append_right _ (List.mem_cons_of_mem _ hmem))
    exact ⟨front, back, by simp, hfront, hback⟩
  · exact absurd (by simp [hu]) (hout a covered (by simp)).tilde

end

/-! ## Tidied text -/

/-- Tidying makes no such place. -/
theorem startsRange_inherited : Inherited StartsRange where
  starts before text h := by
    obtain ⟨-, w, rest, hw, rfl⟩ := h
    obtain ⟨d, tail, rfl, hd⟩ := hw.head
    exact ⟨d, _, rfl, isFactorChar_word (by simp [isFactorChar, hd])⟩
  back before before' c rest rest' hbeside htidies h := by
    obtain ⟨halone, w, tail, hw, htext⟩ := h
    have hc : isDigit c = true := by
      obtain ⟨d, w', rfl, hd⟩ := hw.head
      rwa [(List.cons.inj htext).1]
    refine ⟨hbeside.standsAlone hc halone, ?_⟩
    rw [htext] at htidies
    obtain @⟨n, bs, bs', sign, d, p, hn, hbs, hbs', hsign, hd⟩ := hw
    have hword : ∀ x ∈ n ++ percentChars p, isBlank x = false ∧ x ≠ '*' := by
      refine List.forall_mem_append.mpr ⟨fun x hx => ?_, fun x hx => ?_⟩
      · exact isFactorChar_word ((IsFactor.numeral hn).mem x hx)
      · rw [mem_percentChars hx]
        decide
    obtain ⟨after, hafter⟩ : ∃ after, after = bs' ++ (sign ++ d :: tail) := ⟨_, rfl⟩
    have hsplit : n ++ (percentChars p ++ (bs ++ '~' :: (bs' ++ (sign ++ [d])))) ++ tail =
        (n ++ percentChars p) ++ (bs ++ '~' :: after) := by simp [hafter]
    rw [hsplit] at htidies
    -- The text is taken apart as the tidied text is.
    obtain ⟨x, _, hx, hmark⟩ := head_before_tilde hbs after
    obtain ⟨rest₁, hrest₁, htidies₁⟩ := htidies.drop_word hword (by
      rw [hx]
      simpa using (not_digit_of_blank_or_tilde hmark).2.2)
    obtain ⟨blanks, rest₂, hblanks, rfl, htidies₂⟩ := htidies₁.drop_blanks hbs
    obtain ⟨y, _, hy, -, hstar⟩ := head_bound hsign hd tail
    have hnext : after.head? ≠ some '*' := by
      cases bs' with
      | nil =>
        rw [hafter, List.nil_append, hy]
        simpa using hstar
      | cons b bs' =>
        rw [hafter]
        simpa using ne_of_isBlank (hbs' b List.mem_cons_self) (by decide)
    obtain ⟨rest₃, rfl, htidies₃⟩ := htidies₂.drop_char (by decide) hnext
    rw [hafter] at htidies₃
    obtain ⟨blanks', rest₄, hblanks', rfl, htidies₄⟩ := htidies₃.drop_blanks hbs'
    have hd' := isFactorChar_word (show isFactorChar d = true by simp [isFactorChar, hd])
    obtain ⟨rest₅, rfl, htidies₅⟩ := htidies₄.drop_word (isSign_word hsign) (by simpa using hd'.2)
    obtain ⟨rest₆, rfl⟩ := htidies₅.head hd'.1
    exact ⟨_, rest₆, .intro p hn hblanks hblanks' hsign hd, hrest₁.trans (by simp)⟩

end RangeCalc
