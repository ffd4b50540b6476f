import RangeCalc.Proofs.Formula.Lexing
import RangeCalc.Proofs.Range.Extraction
import RangeCalc.Proofs.Shorthand.PercentResult

/-!
# Plain literals

    plain: ["-"] digits ["." digits]

The digits are those from 0 to 9, and the last one behind a point is not 0.

* `IsPlainNumeral`: plain literals without a sign;
* `plainChars_shape`: finite numbers are written as such literals, perhaps with a minus;
* `denoted_plainChars`: a plain literal denotes the same decimal as the text with the fewest digits;
* `ofChars_numeral`, `rangeTokens_plainChars`: one token of a formula, one bound of a range;
* `plainText_reads_back`: a finite number is read again from its plain literal.
-/

namespace RangeCalc

open Text Shorthand Binary64

theorem toList_plainText (x : Float) : (plainText x).toList = plainChars x :=
  String.toList_ofList

/-! ## Shape -/

/-- Digits from 0 to 9, and perhaps a point with more of them, the last of which is not 0. -/
inductive IsPlainNumeral : List Char → Prop where
  | whole {w : List Char} (hne : w ≠ []) (hw : ∀ c ∈ w, c.isDigit = true) : IsPlainNumeral w
  | places {w p : List Char} (hne : w ≠ []) (hw : ∀ c ∈ w, c.isDigit = true) (hnil : p ≠ [])
      (hp : ∀ c ∈ p, c.isDigit = true) (hlast : p.getLast? ≠ some '0') : IsPlainNumeral (w ++ '.' :: p)

theorem IsPlainNumeral.isNumeral {n : List Char} (hn : IsPlainNumeral n) : IsNumeral n := by
  cases hn with
  | whole hne hw => exact .whole (.of_isDigit hne hw)
  | places hne hw hnil hp _ => exact .places (.of_isDigit hne hw) (.of_isDigit hnil hp)

/-- Only a single zero is left with a zero at its end. -/
theorem getLast?_dropTrailingZeros (cs : List Char) :
    dropTrailingZeros cs = ['0'] ∨ (dropTrailingZeros cs).getLast? ≠ some '0' := by
  have hhead := List.head?_dropWhile_not (· == '0') cs.reverse
  rw [dropTrailingZeros]
  split
  next => exact .inl rfl
  next kept =>
    refine .inr fun hlast => ?_
    rw [List.getLast?_reverse] at hlast
    rw [hlast] at hhead
    exact absurd hhead (by decide)

namespace Numeral

theorem getLast?_ofDecimal (d : Decimal) :
    (ofDecimal d).digits = ['0'] ∨ (ofDecimal d).digits.getLast? ≠ some '0' :=
  getLast?_dropTrailingZeros _

section

variable {x : Numeral} (hne : x.digits ≠ []) (hlast : x.digits = ['0'] ∨ x.digits.getLast? ≠ some '0')

include hne hlast

theorem getLast?_fraction : x.fraction.getLast? ≠ some '0' := by
  have hnone : none ≠ some '0' := (Option.some_ne_none _).symm
  rw [fraction]
  split
  next =>
    split
    next => exact hnone
    next hdigits =>
      rw [List.getLast?_append_of_ne_nil _ hne]
      exact hlast.resolve_left hdigits
  next hpoint =>
    rcases hlast with hdigits | hlast
    · rw [hdigits, List.drop_of_length_le (by rw [List.length_singleton]; omega)]
      exact hnone
    · rw [List.getLast?_drop]
      split
      · exact hnone
      · exact hlast

theorem isPlainNumeral_plain (hdigits : ∀ c ∈ x.digits, c.isDigit = true) : IsPlainNumeral x.plain := by
  have hw := isDigit_of_mem_whole hdigits
  have hnil := (isDigits_whole hdigits hne).1
  rw [plain]
  split
  next => exact .whole hnil hw
  next hplaces => exact .places hnil hw hplaces (isDigit_of_mem_fraction hdigits) (getLast?_fraction hne hlast)

end

end Numeral

section

variable {x : Float} (hx : x.isFinite = true)

include hx

/-- A finite number is written as a plain literal. -/
theorem plainChars_shape : ∃ sign n, IsMinus sign ∧ IsPlainNumeral n ∧ plainChars x = sign ++ n := by
  rw [plainChars_of_isFinite hx]
  split
  · exact ⟨[], ['0'], .inl rfl, .whole (by decide) (List.forall_mem_singleton.mpr rfl), rfl⟩
  · have hn : IsPlainNumeral (shortestNumeral x).plain :=
      Numeral.isPlainNumeral_plain (Numeral.digits_ofDecimal_ne_nil (.shortest (magnitude x)))
        (Numeral.getLast?_ofDecimal _) (Numeral.digits_ofDecimal _)
    rw [signed]
    split
    · exact ⟨['-'], _, .inr rfl, hn, rfl⟩
    · exact ⟨[], _, .inl rfl, hn, rfl⟩

/-! ## Value -/

/-- A plain literal denotes the same decimal as the text with the fewest digits. -/
theorem denoted_plainChars : denoted (plainChars x) = denoted (numberText x).toList := by
  have hdigits := Numeral.digits_ofDecimal (.shortest (magnitude x))
  have hne := Numeral.digits_ofDecimal_ne_nil (.shortest (magnitude x))
  have hnatural : denoted (numberText x).toList =
      if isNegative x then -(shortestNumeral x).value else (shortestNumeral x).value := by
    rw [numberText_of_isFinite hx, String.toList_ofList]
    exact (Numeral.denotes_natural hdigits hne).denoted_signed x
  rw [hnatural, plainChars_of_isFinite hx]
  split
  next hzero =>
    have hvalue : (shortestNumeral x).value = 0 := by
      rw [shortestNumeral, Numeral.value_ofDecimal, hzero]
      exact zero_mul _
    have hdenoted : denoted ['0'] = 0 := zero_mul _
    rw [hvalue, hdenoted, neg_zero, ite_self]
  next => exact (Numeral.denotes_plain hdigits hne).2.denoted_signed x

/-- A finite number is read again; zeros of both signs are written alike. -/
theorem readNumber?_plainChars : readNumber? (plainChars x) = some (if x == 0 then 0 else x) := by
  rw [readNumber?_negatable (isNegatable_plainChars hx)]
  split
  next hzero =>
    rw [plainChars_of_beq_zero hzero]
    rfl
  next hzero =>
    rcases alike_plainChars hx with heq | ⟨-, hxzero⟩
    · rw [heq]
    · exact absurd hxzero hzero

/-- Only the zeros are written as one digit 0. -/
theorem plainChars_eq_zero_iff : plainChars x = ['0'] ↔ (x == 0) = true := by
  constructor
  · intro hchars
    have hread := readNumber?_plainChars hx
    rw [hchars, show readNumber? ['0'] = some 0 by decide] at hread
    by_contra hzero
    rw [if_neg hzero] at hread
    exact hzero (Option.some.inj hread ▸ by decide)
  · exact plainChars_of_beq_zero

end

/-! ## Tokens and bounds -/

/-- A numeral is one token. -/
theorem ofChars_numeral {n : List Char} (hn : IsNumeral n) :
    Lexed.ofChars n = ⟨[⟨.number n, 0⟩], none⟩ := by
  have hnumber : (Token.number n).IsTerminal := .mantissa hn.isMantissa
  have hfront : Front IsTokenText n n [] :=
    ⟨⟨.number n, hnumber, rfl⟩, (List.append_nil n).symm, fun _ _ hpre => hpre.length_le⟩
  have htoken := token?_eq_some_iff.mpr ⟨hnumber, hfront⟩
  obtain ⟨c, tail, rfl, -⟩ := hn.head
  have hblank : isTokenBlank c = false :=
    Bool.of_not_eq_true fun hc => hfront.not_noFront (noFront_blank hc tail)
  rw [Lexed.ofChars, Lexed.fromOffset_token 0 hblank htoken]
  rfl

/-- A text that is one range. -/
theorem rangeTokens_of_find {text : List Char} {r : FoundRange} (hr : r.operator = none)
    (h : RangeToken.find [] text = some (r, [])) : rangeTokens text = [r.token] ∧ r.token.text = text := by
  obtain ⟨covered, hscan⟩ :=
    Scans.exists_of_occurrence [] RangeToken.find_covers nothingIn_nil h fun _ => nothingIn_nil
  have htext := (RangeToken.find_text h).1
  rw [List.append_nil, FoundRange.text, hr] at htext
  refine ⟨?_, htext⟩
  rw [rangeTokens, occurrences, ← List.nil_append text, hscan.segments_eq]
  rfl

/-- Two plain literals with a tilde between them are one range with these bounds. -/
theorem rangeTokens_plainChars {x y : Float} (hx : x.isFinite = true) (hy : y.isFinite = true) :
    rangeTokens (plainChars x ++ '~' :: plainChars y) =
      [⟨plainChars x ++ '~' :: plainChars y, plainChars x, plainChars y, false, false⟩] := by
  obtain ⟨text, hfind⟩ := @find_range [] [] (plainChars x) (plainChars y) [] [] (isNegatable_plainChars hy)
    nofun nofun stops_nil nofun rfl false false (isNegatable_plainChars hx) rfl
  have hnone : percentChars false = [] := rfl
  simp only [hnone, List.nil_append, List.append_nil] at hfind
  obtain ⟨htokens, rfl⟩ := rangeTokens_of_find rfl hfind
  exact htokens

/-- What is written for a finite number is an optional minus, digits, and perhaps a point with digits that do not
end in 0. It is one bound of a range and, behind the minus, one token of a formula; it denotes the decimal that the
text with the fewest digits denotes, and the number is read again from it, but for the sign of a zero. Both zeros,
and no other numbers, are written as 0. -/
theorem plainText_reads_back {x : Float} (hx : x.isFinite = true) :
    (∃ sign n, IsMinus sign ∧ IsPlainNumeral n ∧ (plainText x).toList = sign ++ n ∧
      Lexed.ofChars n = ⟨[⟨.number n, 0⟩], none⟩) ∧
    (∀ rest, Stops rest → signed? ((plainText x).toList ++ rest) = some ((plainText x).toList, rest)) ∧
    (∀ y : Float, y.isFinite = true →
      rangeTokens ((plainText x).toList ++ '~' :: (plainText y).toList) =
        [⟨(plainText x).toList ++ '~' :: (plainText y).toList, (plainText x).toList, (plainText y).toList,
          false, false⟩]) ∧
    denoted (plainText x).toList = denoted (numberText x).toList ∧
    readNumber? (plainText x).toList = some (if x == 0 then 0 else x) ∧
    (plainText x = "0" ↔ (x == 0) = true) := by
  have hzero : plainText x = "0" ↔ plainChars x = ['0'] := by
    rw [← String.toList_inj, toList_plainText]
    rfl
  simp only [hzero, toList_plainText]
  obtain ⟨sign, n, hsign, hn, hchars⟩ := plainChars_shape hx
  exact ⟨⟨sign, n, hsign, hn, hchars, ofChars_numeral hn.isNumeral⟩,
    fun _ hrest => signed?_append (isNegatable_plainChars hx) hrest, fun _ hy => rangeTokens_plainChars hx hy,
    denoted_plainChars hx, readNumber?_plainChars hx, plainChars_eq_zero_iff hx⟩

/-- A text with the fewest digits has an exponent where the plain literal has zeros. -/
theorem minusTenMillionth_plainText :
    (-1e-7 : Float).isFinite = true ∧ plainText (-1e-7) = "-0.0000001" ∧ numberText (-1e-7) = "-1e-07" ∧
      denoted "-0.0000001".toList = denoted "-1e-07".toList ∧
      readNumber? "-0.0000001".toList = some (-1e-7) ∧
      rangeTokens "-0.0000001~-0.0000001".toList =
        [⟨"-0.0000001~-0.0000001".toList, "-0.0000001".toList, "-0.0000001".toList, false, false⟩] := by
  have hfinite : (-1e-7 : Float).isFinite = true := by decide
  have hplain : plainText (-1e-7) = "-0.0000001" := by decide +kernel
  have hnumber : numberText (-1e-7) = "-1e-07" := by decide +kernel
  have hnonzero : ((-1e-7 : Float) == 0) = false := by decide
  obtain ⟨-, -, hrange, hdenoted, hread, -⟩ := plainText_reads_back hfinite
  have hrange := hrange (-1e-7) hfinite
  rw [hplain] at hrange
  rw [hplain, hnumber] at hdenoted
  rw [hplain, hnonzero] at hread
  exact ⟨hfinite, hplain, hnumber, hdenoted, hread, hrange⟩

end RangeCalc
