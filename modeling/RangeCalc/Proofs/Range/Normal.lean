import RangeCalc.Proofs.Range.Place
import RangeCalc.Proofs.Shorthand.Times

/-!
# Normal forms

The sampling form of a text has nothing that any of the rewriting passes finds.

* `rangeCall`: what stands for a range in the sampling form;
* `free_startsRange_calls`: no range stands where calls have been written for them;
* `free_percent_replaceEach`, `free_startsRange_percent`: no percentage and no range stands where percentages
  have been written out;
* `NormalForm.ofText_idempotent`: the sampling form of a text is its own sampling form.
-/

namespace RangeCalc

open Text Shorthand

/-! ## Where ranges end -/

theorem standsAside_percent : StandsAside '%' := by
  unfold StandsAside
  decide +kernel

theorem IsNumeral.append_digit {n : List Char} {d : Char} (hn : IsNumeral n) (hd : isDigit d = true) :
    IsNumeral (n ++ [d]) := by
  have hdigits : ∀ w, IsDigits w → IsDigits (w ++ [d]) := fun w hw =>
    ⟨by simp, List.forall_mem_append.mpr ⟨hw.2, List.forall_mem_singleton.mpr hd⟩⟩
  cases hn with
  | whole hw => exact .whole (hdigits _ hw)
  | @places w p hw hp =>
    rw [List.append_assoc, List.cons_append]
    exact .places hw (hdigits p hp)

/-- No digit follows a numeral that has been read. -/
theorem numeral?_stops {cs n rest : List Char} (h : numeral? cs = some (n, rest)) :
    ∀ d ∈ rest.head?, isDigit d = false := by
  intro d hd
  refine Bool.of_not_eq_true fun hdigit => ?_
  obtain ⟨tail, rfl⟩ := List.head?_eq_some_iff.mp hd
  have hfront := readsFront_numeral?.eq_some_iff.mp h
  have hle := hfront.longest _ (IsNumeral.append_digit hfront.holds hdigit) ⟨tail, by rw [hfront.split]; simp⟩
  simp at hle

theorem signed?_stops {cs s rest : List Char} (h : signed? cs = some (s, rest)) :
    ∀ d ∈ rest.head?, isDigit d = false := by
  have hmap : ∀ (sign : Char) tail,
      ((numeral? tail).map fun number => (sign :: number.1, number.2)) = some (s, rest) →
        ∀ d ∈ rest.head?, isDigit d = false := by
    intro sign tail h
    obtain ⟨⟨n, after⟩, hn, heq⟩ := Option.map_eq_some_iff.mp h
    obtain ⟨-, rfl⟩ := Prod.mk.inj heq
    exact numeral?_stops hn
  rw [signed?.eq_def] at h
  split at h
  · exact hmap '-' _ h
  · exact hmap '+' _ h
  · exact numeral?_stops h

/-- A range ends with a percent sign, or no digit follows it. -/
theorem RangeToken.find_stops {before text after : List Char} {r : FoundRange}
    (h : find before text = some (r, after)) :
    r.token.maxPercent = true ∨ ∀ d ∈ after.head?, isDigit d = false := by
  simp only [find, guard, bind, Option.bind_eq_some_iff] at h
  obtain ⟨_, -, ⟨minText, rest₁⟩, -, rest₃, -, ⟨maxText, rest₄⟩, hhigh, h⟩ := h
  have hstops := signed?_stops hhigh
  have hpercent : (percentSign rest₄).1 = true ∨
      ∀ d ∈ (percentSign rest₄).2.head?, isDigit d = false := by
    rw [percentSign.eq_def]
    split
    · exact .inl rfl
    · exact .inr hstops
  split at h
  · split at h
    · obtain ⟨rfl, rfl⟩ := Prod.mk.inj (Option.some.inj h)
      exact hpercent
    · obtain ⟨rfl, rfl⟩ := Prod.mk.inj (Option.some.inj h)
      exact hpercent
  · cases h

/-- Behind a range that a digit follows a numeral stands alone. -/
theorem standsAlone_behind_range {before covered after : List Char} {r : FoundRange}
    (h : RangeToken.find before (covered ++ after) = some (r, after))
    (hdigit : ∃ d ∈ after.head?, isDigit d = true) : standsAlone (covered.reverse ++ before) = true := by
  obtain ⟨-, covered', heq, ⟨shape⟩⟩ := RangeToken.find_eq_some h
  obtain rfl := List.append_cancel_right heq
  rcases RangeToken.find_stops h with hpercent | hstops
  · have hlast : covered = shape.lowSign ++ shape.low ++ percentChars r.token.minPercent ++ shape.blanks ++
        '~' :: (shape.blanks' ++ shape.highSign ++ shape.high) ++ ['%'] := by
      conv_lhs => rw [shape.text_eq, hpercent]
      simp [percentChars]
    rw [hlast, List.reverse_append]
    exact standsAside_percent
  · obtain ⟨d, hd, hdigit⟩ := hdigit
    rw [hstops d hd] at hdigit
    cases hdigit

/-- The characters of a range. -/
theorem RangeShape.mem {covered : List Char} {r : FoundRange} (shape : RangeShape covered r) {c : Char}
    (hc : c ∈ covered) : isDigit c = true ∨ isBlank c = true ∨ c ∈ ['.', '%', '~', '+', '-'] := by
  have hsign : ∀ s, IsSign s → c ∈ s → isDigit c = true ∨ isBlank c = true ∨ c ∈ ['.', '%', '~', '+', '-'] := by
    intro s hs hc
    rcases hs.mem hc with rfl | rfl <;> simp
  have hnumeral : ∀ n, IsNumeral n → c ∈ n →
      isDigit c = true ∨ isBlank c = true ∨ c ∈ ['.', '%', '~', '+', '-'] := by
    intro n hn hc
    rcases hn.mem hc with h | rfl
    · exact .inl h
    · simp
  have hpercent : ∀ p, c ∈ percentChars p →
      isDigit c = true ∨ isBlank c = true ∨ c ∈ ['.', '%', '~', '+', '-'] := by
    intro p hc
    obtain rfl := mem_percentChars hc
    simp
  rw [shape.text_eq] at hc
  simp only [List.mem_append, List.mem_cons] at hc
  rcases hc with (((hc | hc) | hc) | hc) | rfl | ((hc | hc) | hc) | hc
  · exact hsign _ shape.isSign_low hc
  · exact hnumeral _ shape.isNumeral_low hc
  · exact hpercent _ hc
  · exact .inr (.inl (shape.isBlank_left c hc))
  · simp
  · exact .inr (.inl (shape.isBlank_right c hc))
  · exact hsign _ shape.isSign_high hc
  · exact hnumeral _ shape.isNumeral_high hc
  · exact hpercent _ hc

/-! ## Calls for ranges -/

/-- What stands for a range that was found: the operator, if a sign in front is one, and the call. -/
def rangeCall (r : FoundRange) : List Char :=
  (match r.operator with
    | some sign => [sign, ' ']
    | none => []) ++ samplingCall r.token

theorem replaced_eq (ps : List (Piece FoundRange)) (index : Nat) :
    replaced (fun _ token => samplingCall token) index ps = rewritten rangeCall ps := by
  induction ps generalizing index with
  | nil => rfl
  | cons p ps ih =>
    cases p with
    | char c =>
      rw [rewritten_char, ← ih index]
      rfl
    | found r covered =>
      rw [rewritten_found, ← ih (index + 1), replaced, List.map_cons, Piece.segment, substituteSegments,
        rangeCall]
      rfl

theorem mem_boundChars {x : Float} {c : Char} (hc : c ∈ boundChars x) :
    c.isDigit = true ∨ c ∈ plainMarks := by
  have hundefined : "nan".toList ⊆ plainMarks := by decide
  rw [boundChars] at hc
  split at hc
  · exact .inr (hundefined hc)
  · exact mem_plainChars hc

/-- Characters of a call other than those of its bounds and of the words in it. -/
theorem not_mem_boundChars {x : Float} {c : Char} (hdigit : c.isDigit = false) (hmark : c ∉ plainMarks) :
    c ∉ boundChars x := by
  intro hc
  rcases mem_boundChars hc with h | h
  · rw [hdigit] at h
    cases h
  · exact hmark h

/-- The characters of a call but those of its bounds. -/
def callMarks : List Char :=
  "sample(uniform(, ))".toList

theorem not_mem_samplingCall {c : Char} (hdigit : c.isDigit = false) (hmark : c ∉ plainMarks)
    (hcall : c ∉ callMarks) (token : RangeToken) : c ∉ samplingCall token := by
  have hopening : "sample(uniform(".toList ⊆ callMarks := by decide +kernel
  have hcomma : [',', ' '] ⊆ callMarks := by decide +kernel
  have hclosing : [')', ')'] ⊆ callMarks := by decide +kernel
  intro hc
  delta samplingCall at hc
  rw [List.mem_append, List.mem_append, List.mem_append, List.mem_append] at hc
  rcases hc with (((hc | hc) | hc) | hc) | hc
  · exact hcall (hopening hc)
  · exact not_mem_boundChars hdigit hmark hc
  · exact hcall (hcomma hc)
  · exact not_mem_boundChars hdigit hmark hc
  · exact hcall (hclosing hc)

/-- A call with its operator, if the operator is a sign. -/
theorem rangeCall_cases {before covered after : List Char} {r : FoundRange}
    (h : RangeToken.find before (covered ++ after) = some (r, after)) :
    rangeCall r = samplingCall r.token ∨
      ∃ sign, (sign = '+' ∨ sign = '-') ∧ rangeCall r = sign :: ' ' :: samplingCall r.token := by
  obtain ⟨-, covered', -, ⟨shape⟩⟩ := RangeToken.find_eq_some h
  rw [rangeCall]
  cases hoperator : r.operator with
  | none => exact .inl rfl
  | some sign =>
    refine .inr ⟨sign, shape.isSign_low.mem ?_, rfl⟩
    rw [shape.operator_eq sign hoperator]
    exact List.mem_singleton_self sign

theorem samplingCall_split (token : RangeToken) :
    ∃ opening closing, samplingCall token = 's' :: 'a' :: opening ++ ',' :: ' ' :: closing ++ [')'] ∧
      ',' ∉ opening ∧ ',' ∉ closing := by
  have hopening : "sample(uniform(".toList = 's' :: 'a' :: "mple(uniform(".toList := by decide +kernel
  have hbound : ∀ x : Float, ',' ∉ boundChars x := fun x => not_mem_boundChars (by decide) (by decide)
  refine ⟨"mple(uniform(".toList ++ boundChars token.interval.min, boundChars token.interval.max ++ [')'],
    ?_, ?_, ?_⟩
  · delta samplingCall
    rw [hopening]
    simp only [List.cons_append, List.append_assoc, List.nil_append]
  · exact fun h => (List.mem_append.mp h).elim (by decide +kernel) (hbound _)
  · exact fun h => (List.mem_append.mp h).elim (hbound _) (by decide)

section

variable {before covered after : List Char} {r : FoundRange}
  (h : RangeToken.find before (covered ++ after) = some (r, after))

include h

theorem noRange_rangeCall : NoRange (rangeCall r) := by
  have htilde : '~' ∉ samplingCall r.token :=
    not_mem_samplingCall (by decide) (by decide) (by decide) r.token
  obtain ⟨opening, closing, hsplit, -, -⟩ := samplingCall_split r.token
  rcases rangeCall_cases h with hcall | ⟨sign, hsign, hcall⟩
  · refine ⟨hcall ▸ htilde, by rw [hcall, hsplit, List.getLast?_concat], ?_⟩
    exact ⟨'s', 'a', _, by rw [hcall, hsplit]; rfl, by decide, by decide, by decide⟩
  · refine ⟨?_, by rw [hcall, hsplit, ← List.cons_append, ← List.cons_append, List.getLast?_concat], ?_⟩
    · rw [hcall]
      rcases hsign with rfl | rfl <;> simpa using htilde
    · refine ⟨sign, ' ', _, hcall, ?_, not_isDigit_sign hsign, fun _ => by decide⟩
      rcases hsign with rfl | rfl <;> decide

theorem noSeparator_rangeCall : NoSeparator (rangeCall r) := by
  obtain ⟨opening, closing, hsplit, hopening, hclosing⟩ := samplingCall_split r.token
  -- The one comma of a call stands before a blank.
  have hshape : ∃ front, rangeCall r = front ++ ',' :: (' ' :: closing ++ [')']) ∧ ',' ∉ front := by
    rcases rangeCall_cases h with hcall | ⟨sign, hsign, hcall⟩
    · refine ⟨'s' :: 'a' :: opening, by rw [hcall, hsplit]; simp, by simpa using hopening⟩
    · refine ⟨sign :: ' ' :: 's' :: 'a' :: opening, by rw [hcall, hsplit]; simp, ?_⟩
      rcases hsign with rfl | rfl <;> simpa using hopening
  obtain ⟨front, hshape, hfront⟩ := hshape
  refine ⟨fun u v heq => ?_, front ++ ',' :: ' ' :: closing, ')', by rw [hshape]; simp, by decide⟩
  rw [hshape] at heq
  have hback : ',' ∉ ' ' :: closing ++ [')'] := by simpa using hclosing
  obtain ⟨-, -, hv⟩ := (List.append_cons_inj_of_notMem hfront hback).mp heq
  exact ⟨closing ++ [')'], hv.symm⟩

theorem no_x_rangeCall : 'x' ∉ rangeCall r ∧ 'X' ∉ rangeCall r := by
  have hnot : ∀ c, c = 'x' ∨ c = 'X' → c ∉ rangeCall r := by
    intro c hc
    have hcall : c ∉ samplingCall r.token := by
      rcases hc with rfl | rfl <;> exact not_mem_samplingCall (by decide) (by decide) (by decide) r.token
    rcases rangeCall_cases h with heq | ⟨sign, hsign, heq⟩ <;> rw [heq]
    · exact hcall
    · rcases hc with rfl | rfl <;> rcases hsign with rfl | rfl <;> simpa using hcall
  exact ⟨hnot 'x' (.inl rfl), hnot 'X' (.inr rfl)⟩

/-- A range has no letters. -/
theorem noName_range : covered ≠ [] ∧ ∀ c ∈ covered, isNameStart c = false := by
  obtain ⟨-, covered', heq, ⟨shape⟩⟩ := RangeToken.find_eq_some h
  obtain rfl := List.append_cancel_right heq
  refine ⟨by rw [shape.text_eq]; simp, fun c hc => ?_⟩
  rcases shape.mem hc with hdigit | hblank | hmark
  · exact EndsFactor.not_isNameStart (.inl hdigit)
  · exact not_isNameStart_of_isBlank hblank
  · revert hmark
    simp only [List.mem_cons, List.not_mem_nil, or_false]
    rintro (rfl | rfl | rfl | rfl | rfl) <;> decide

end

/-! ## Texts with calls for their ranges -/

section

variable {text : List Char} {ps : List (Piece FoundRange)} (hps : Scans RangeToken.find [] text ps)

include hps

theorem find_of_mem {r : FoundRange} {covered : List Char} (hmem : .found r covered ∈ ps) :
    ∃ before after, RangeToken.find before (covered ++ after) = some (r, after) :=
  hps.exists_at hmem

theorem free_thousands_calls (h : Free (Found thousands) text) :
    Free (Found thousands) (rewritten rangeCall ps) := by
  refine free_thousands_rewritten (by rwa [hps.textOf_eq]) (fun r covered hmem => ?_) ?_
  · obtain ⟨before, after, hsome⟩ := find_of_mem hps hmem
    exact noSeparator_rangeCall hsome
  · rintro front back rfl hgroup
    rw [show front ++ .char ',' :: back = front ++ [.char ','] ++ back by simp] at hps
    have hstart : ∀ r covered, .found r covered ∈ back →
        ∃ x, (rangeCall r).head? = some x ∧ isDigit x = false := by
      intro r covered hmem
      obtain ⟨before, after, hsome⟩ := find_of_mem hps (List.mem_append_right _ hmem)
      obtain ⟨x, y, tail, heq, -, hx, -⟩ := (noRange_rangeCall hsome).starts
      exact ⟨x, by rw [heq, List.head?_cons], hx⟩
    have hsame := takeWhile_isDigit_alone hps.drop (fun _ _ _ _ hsome => (RangeToken.find_eq_some hsome).1)
      hstart fun hnil => by
        rw [hnil] at hgroup
        cases hgroup
    rwa [hsame] at hgroup

theorem free_timesSign_calls (h : Free (Found timesSign) text) :
    Free (Found timesSign) (rewritten rangeCall ps) := by
  refine free_timesSign_rewritten (by rwa [hps.textOf_eq]) (fun r covered hmem => ?_)
    (fun r covered hmem => ?_)
  · obtain ⟨before, after, hsome⟩ := find_of_mem hps hmem
    exact no_x_rangeCall hsome
  · obtain ⟨before, after, hsome⟩ := find_of_mem hps hmem
    obtain ⟨hne, hall⟩ := noName_range hsome
    exact ⟨hne, fun b hb => hall b (List.mem_of_head? hb), fun b hb => hall b (List.mem_of_getLast? hb)⟩

/-- No range stands where calls have been written for them. -/
theorem free_startsRange_calls : Free StartsRange (rewritten rangeCall ps) := by
  rintro pre post heq ⟨halone, w, rest, hw, rfl⟩
  obtain ⟨front, back, rfl, rfl, -⟩ := exists_chars_of_range heq hw fun r covered hmem => by
    obtain ⟨before, after, hsome⟩ := find_of_mem hps hmem
    exact noRange_rangeCall hsome
  obtain ⟨d, w', rfl, hd⟩ := hw.head
  rw [List.append_assoc, List.map_cons, List.cons_append] at hps
  -- Otherwise the range would have been found at its first digit.
  have hnot : ¬ standsAlone (textOf front).reverse = true := by
    intro halone
    have hfound : Found RangeToken.find (textOf front).reverse (d :: w' ++ textOf back) :=
      found_range_of_starts ⟨halone, _, _, hw, rfl⟩
    have hnone := hps.at_char
    rw [textOf_append, textOf_chars, List.append_nil] at hnone
    rw [Found, List.cons_append, hnone] at hfound
    cases hfound
  rcases List.eq_nil_or_concat front with rfl | ⟨front, c | ⟨r, covered⟩, rfl⟩
  · exact hnot rfl
  · refine hnot ?_
    simpa [standsAlone] using halone
  · rw [List.concat_eq_append, List.append_assoc, List.singleton_append] at hps
    have hbehind := standsAlone_behind_range hps.at_found.2 ⟨d, rfl, hd⟩
    exact hnot (by simpa using hbehind)

end

/-! ## Texts with percentages written out -/

/-- Tidying brings about no percentage. -/
theorem percent_inherited : Inherited (Found percent) where
  starts before text h := by
    obtain ⟨-, n, rest, hn, rfl⟩ := percent_isSome_iff.mp h
    obtain ⟨d, n, rfl, hd⟩ := hn.head
    exact ⟨d, _, rfl, isFactorChar_word (by simp [isFactorChar, hd])⟩
  back before before' c rest rest' hbeside htidies h := by
    obtain ⟨halone, n, after, hn, htext⟩ := percent_isSome_iff.mp h
    have hc : isDigit c = true := by
      obtain ⟨d, n', rfl, hd⟩ := hn.head
      rwa [(List.cons.inj htext).1]
    rw [htext] at htidies
    obtain ⟨rest₁, hrest₁, htidies₁⟩ := htidies.drop_word
      (fun x hx => isFactorChar_word ((IsFactor.numeral hn).mem x hx)) (by simp)
    obtain ⟨rest₂, rfl⟩ := htidies₁.head (by decide)
    exact percent_isSome_iff.mpr ⟨hbeside.standsAlone hc halone, n, rest₂, hn, hrest₁⟩

section

variable {text : List Char} {qs : List (Piece (List Char))} (hqs : Scans percent [] text qs)

include hqs

/-- A percentage is a numeral with its sign, and a quotient in parentheses stands for it. -/
theorem percent_of_mem {out covered : List Char} (hmem : .found out covered ∈ qs) :
    ∃ n, IsNumeral n ∧ covered = n ++ ['%'] ∧ out = '(' :: n ++ ['/', '1', '0', '0'] ++ [')'] := by
  obtain ⟨before, after, hsome⟩ := hqs.exists_at hmem
  obtain ⟨-, n, hn, htext, rfl⟩ := percent_eq_some hsome
  have hquotient : "/100)".toList = ['/', '1', '0', '0'] ++ [')'] := by decide +kernel
  exact ⟨n, hn, List.append_cancel_right (htext.trans (by simp)), by rw [hquotient, List.append_assoc]⟩

theorem head?_percent {out covered : List Char} (hmem : .found out covered ∈ qs) : out.head? = some '(' := by
  obtain ⟨n, -, -, rfl⟩ := percent_of_mem hqs hmem
  rfl

/-- A quotient has only digits, points and the marks around them. -/
theorem not_mem_quotient {out covered : List Char} (hmem : .found out covered ∈ qs) {c : Char}
    (hdigit : isDigit c = false) (hmark : c ∉ ['.', '(', '/', ')']) : c ∉ out := by
  obtain ⟨n, hn, -, rfl⟩ := percent_of_mem hqs hmem
  simp only [List.mem_cons, List.not_mem_nil, or_false, not_or] at hmark
  have hone : ∀ d, isDigit d = true → c ≠ d := by
    rintro d hd rfl
    rw [hdigit] at hd
    cases hd
  have hn' : c ∉ n := fun hc => (hn.mem hc).elim (fun h => hone c h rfl) hmark.1
  simp [hmark, hn', hone '1' (by decide), hone '0' (by decide)]

theorem noRange_percent {out covered : List Char} (hmem : .found out covered ∈ qs) : NoRange out := by
  refine ⟨not_mem_quotient hqs hmem (by decide) (by decide), ?_, ?_⟩
  · obtain ⟨n, -, -, rfl⟩ := percent_of_mem hqs hmem
    exact List.getLast?_concat
  · obtain ⟨n, hn, -, rfl⟩ := percent_of_mem hqs hmem
    obtain ⟨d, n, rfl, -⟩ := hn.head
    exact ⟨'(', d, _, rfl, by decide, by decide, fun h => absurd h (by decide)⟩

theorem free_thousands_quotients (h : Free (Found thousands) text) :
    Free (Found thousands) (rewritten id qs) := by
  refine free_thousands_rewritten (by rwa [hqs.textOf_eq]) (fun out covered hmem => ?_) ?_
  · have hcomma : ',' ∉ out := not_mem_quotient hqs hmem (by decide) (by decide)
    obtain ⟨n, -, -, rfl⟩ := percent_of_mem hqs hmem
    exact noSeparator_of_not_mem rfl hcomma (by decide)
  · rintro front back rfl hgroup
    rw [show front ++ .char ',' :: back = front ++ [.char ','] ++ back by simp] at hqs
    have hstart : ∀ out covered, .found out covered ∈ back →
        ∃ x, (id out).head? = some x ∧ isDigit x = false := fun out covered hmem =>
      ⟨'(', head?_percent hqs (List.mem_append_right _ hmem), by decide⟩
    have hsame := takeWhile_isDigit_alone hqs.drop (fun _ _ _ _ hsome => (percent_eq_some hsome).1)
      hstart fun hnil => by
        rw [hnil] at hgroup
        cases hgroup
    rwa [hsame] at hgroup

theorem free_timesSign_quotients (h : Free (Found timesSign) text) :
    Free (Found timesSign) (rewritten id qs) := by
  refine free_timesSign_rewritten (by rwa [hqs.textOf_eq]) (fun out covered hmem => ?_)
    (fun out covered hmem => ?_)
  · exact ⟨not_mem_quotient hqs hmem (by decide) (by decide), not_mem_quotient hqs hmem (by decide) (by decide)⟩
  · obtain ⟨n, hn, rfl, -⟩ := percent_of_mem hqs hmem
    obtain ⟨d, n, rfl, hd⟩ := hn.head
    have hname : isNameStart d = false := EndsFactor.not_isNameStart (.inl hd)
    refine ⟨by simp, by simpa [NoName] using hname, fun b hb => ?_⟩
    rw [List.getLast?_concat] at hb
    obtain rfl := Option.some.inj hb
    decide

/-- Behind a percentage a numeral stands alone, as it does behind its quotient. -/
theorem standsAlone_quotients {front back : List (Piece (List Char))} (heq : qs = front ++ back)
    (halone : standsAlone (rewritten id front).reverse = true) :
    standsAlone (textOf front).reverse = true := by
  rcases List.eq_nil_or_concat front with rfl | ⟨front, c | ⟨out, covered⟩, rfl⟩
  · rfl
  · simpa [standsAlone] using halone
  · obtain ⟨n, -, rfl, -⟩ := percent_of_mem hqs (show .found out covered ∈ qs by simp [heq])
    rw [List.concat_eq_append, textOf_append, textOf_found, textOf_nil, List.append_nil,
      List.reverse_append, List.reverse_append]
    exact standsAside_percent

/-- No percentage stands where percentages have been written out. -/
theorem free_percent_quotients : Free (Found percent) (rewritten id qs) := by
  rintro pre post heq hfound
  obtain ⟨halone, n, rest, hn, rfl⟩ := percent_isSome_iff.mp hfound
  rw [← List.append_assoc] at heq
  rcases exists_piece heq with ⟨left, right, rfl, hleft, -⟩ | ⟨left, out, covered, right, u, v, rfl, hu, -, -⟩
  · have hparen : ')' ∉ n := fun hmem => absurd (hn.mem hmem) (by decide)
    obtain ⟨front, rfl, rfl⟩ := exists_chars_low hleft hparen fun out covered hmem =>
      noRange_percent hqs (List.mem_append_left _ hmem)
    have halone' := standsAlone_quotients hqs (List.append_assoc ..) halone
    obtain ⟨d, n', rfl, -⟩ := hn.head
    have hfound' : Found percent (textOf front).reverse (d :: n' ++ '%' :: textOf right) :=
      percent_isSome_iff.mpr ⟨halone', _, _, hn, rfl⟩
    rw [List.append_assoc, List.map_cons, List.cons_append] at hqs
    have hnone := hqs.at_char
    rw [textOf_append, textOf_chars, textOf_char, List.append_nil] at hnone
    rw [Found, List.cons_append, hnone] at hfound'
    cases hfound'
  · exact absurd (by simp [show out = u ++ '%' :: v from hu])
      (not_mem_quotient hqs (List.mem_append_right left List.mem_cons_self) (by decide) (by decide) (c := '%'))

/-- No range stands where percentages have been written out, if none stood there before. -/
theorem free_startsRange_quotients (h : Free StartsRange text) : Free StartsRange (rewritten id qs) := by
  rintro pre post heq ⟨halone, w, rest, hw, rfl⟩
  obtain ⟨front, back, rfl, rfl, -⟩ := exists_chars_of_range heq hw fun out covered hmem =>
    noRange_percent hqs hmem
  have halone' := standsAlone_quotients hqs (List.append_assoc ..) halone
  exact h (textOf front) (w ++ textOf back) (by rw [← hqs.textOf_eq]; simp) ⟨halone', w, _, hw, rfl⟩

end

/-! ## Normal forms -/

/-- The characters of the sampling form of a text. -/
def normalChars (text : List Char) : List Char :=
  tidy (replaceEach percent (substituteRanges (fun _ token => samplingCall token) (expand text)))

theorem NormalForm.ofText_eq (raw : String) :
    ofText raw = ⟨String.ofList (normalChars raw.toList), mentionsSampling (normalChars raw.toList)⟩ :=
  rfl

/-- Nothing is found in a text but missing product signs and white space. -/
structure Written (text : List Char) : Prop where
  thousands : Free (Found thousands) text
  percent : Free (Found percent) text
  timesSign : Free (Found timesSign) text
  range : Free StartsRange text

/-- The passes before the last leave nothing to be found. -/
theorem written_quotients (text : List Char) :
    Written (replaceEach percent (substituteRanges (fun _ token => samplingCall token) (expand text))) := by
  obtain ⟨ps, hps⟩ := Scans.exists_scan RangeToken.find_covers [] (expand text)
  have hcalls : substituteRanges (fun _ token => samplingCall token) (expand text) = rewritten rangeCall ps := by
    rw [substituteRanges, hps.segments_eq]
    exact replaced_eq ps 0
  obtain ⟨qs, hqs⟩ := Scans.exists_scan percent_covers [] (rewritten rangeCall ps)
  rw [hcalls, hqs.replaceEach_eq]
  exact {
    thousands := free_thousands_quotients hqs (free_thousands_calls hps (free_thousands_expand text))
    percent := free_percent_quotients hqs
    timesSign := free_timesSign_quotients hqs (free_timesSign_calls hps (free_timesSign_expand text))
    range := free_startsRange_quotients hqs (free_startsRange_calls hps) }

/-- Tidying leaves nothing to be found where there was nothing. -/
theorem Written.tidy {text : List Char} (h : Written text) : Written (tidy text) where
  thousands := keepsFree_tidy text _ thousands_inherited h.thousands
  percent := keepsFree_tidy text _ percent_inherited h.percent
  timesSign := keepsFree_tidy text _ timesSign_inherited h.timesSign
  range := keepsFree_tidy text _ startsRange_inherited h.range

/-- A text in which nothing is found is only tidied. -/
theorem Written.normalChars_eq {text : List Char} (h : Written text) :
    normalChars text = Shorthand.tidy text := by
  have hranges : substituteRanges (fun _ token => samplingCall token) text = text := by
    rw [substituteRanges, segments_of_free (free_range_of_starts h.range)]
    have hchars := substituteSegments_map_char (fun _ token => samplingCall token) 0 text []
    rwa [List.append_nil, substituteSegments, List.append_nil] at hchars
  rw [normalChars, expand_of_free h.thousands h.percent h.timesSign, hranges, replaceEach_of_free h.percent]

/-- The sampling form of a text is its own sampling form, and mentions sampling calls as the text does. -/
theorem NormalForm.ofText_idempotent (raw : String) : ofText (ofText raw).expression = ofText raw := by
  have hwritten := (written_quotients raw.toList).tidy
  have hchars : normalChars (normalChars raw.toList) = normalChars raw.toList :=
    hwritten.normalChars_eq.trans (tidy_tidy _)
  simp only [ofText_eq, String.toList_ofList, hchars]

end RangeCalc
