import RangeCalc.Range.Normal
import RangeCalc.Proofs.Range.Literal
import RangeCalc.Proofs.Text.SameSegments

/-!
# Texts of white space

White space is no shorthand, so a text of nothing else has the empty text as its sampling form.

* `skipsBlanks_thousands` and its like: no rule finds anything that starts with white space;
* `NormalForm.ofText_blank`: the sampling form of white space.
-/

namespace RangeCalc

open Text Shorthand

namespace Shorthand

section

variable {c : Char} (hc : isBlank c = true) (rest : List Char)

include hc

theorem ne_of_isBlank {d : Char} (hd : isBlank d = false) : c ≠ d := by
  rintro rfl
  rw [hc] at hd
  cases hd

theorem numeral?_blank : numeral? (c :: rest) = none := by
  have hdigit : isDigit c = false := by
    simpa using fun h => not_digit_of_isBlank hc (.inl h)
  simp only [numeral?, List.span_eq_takeWhile_dropWhile, List.takeWhile_cons, hdigit,
    Bool.false_eq_true, if_false]

theorem negatable?_blank : negatable? (c :: rest) = none := by
  rw [negatable?]
  · exact numeral?_blank hc rest
  · rintro tail ⟨rfl, -⟩
    exact ne_of_isBlank hc (by decide) rfl

theorem signed?_blank : signed? (c :: rest) = none := by
  rw [signed?]
  · exact numeral?_blank hc rest
  · rintro tail ⟨rfl, -⟩
    exact ne_of_isBlank hc (by decide) rfl
  · rintro tail ⟨rfl, -⟩
    exact ne_of_isBlank hc (by decide) rfl

theorem expect?_blank {d : Char} (hd : isBlank d = false) : expect? d (c :: rest) = none :=
  if_neg (ne_of_isBlank hc hd)

end

/-! ## The rules -/

theorem skipsBlanks_thousands : SkipsBlanks thousands := by
  intro before c rest hc
  rw [thousands]
  rintro d tail _ rfl ⟨rfl, -⟩
  exact ne_of_isBlank hc (by decide) rfl

theorem skipsBlanks_sharedPercent : SkipsBlanks sharedPercent := fun before c rest hc => by
  rw [sharedPercent, expect?_blank hc rest (by decide)]
  rfl

theorem skipsBlanks_appliedPercent : SkipsBlanks appliedPercent := fun before c rest hc => by
  rw [appliedPercent, negatable?_blank hc rest]
  cases standsAlone before <;> rfl

theorem skipsBlanks_percentSpan : SkipsBlanks percentSpan := fun before c rest hc => by
  rw [percentSpan, negatable?_blank hc rest]
  rfl

theorem skipsBlanks_timesSign : SkipsBlanks timesSign := fun before c rest hc => by
  rw [timesSign, if_neg]
  rintro ⟨rfl | rfl, -⟩
  · exact ne_of_isBlank hc (by decide) rfl
  · exact ne_of_isBlank hc (by decide) rfl

theorem skipsBlanks_percent : SkipsBlanks percent := fun before c rest hc => by
  rw [percent, numeral?_blank hc rest]
  cases standsAlone before <;> rfl

theorem skipsBlanks_numberParenthesis : SkipsBlanks numberParenthesis := fun before c rest hc => by
  rw [numberParenthesis, numeral?_blank hc rest]
  cases standsAlone before <;> rfl

theorem skipsBlanks_parenthesisParenthesis : SkipsBlanks parenthesisParenthesis :=
  fun before c rest hc => by
    rw [parenthesisParenthesis, expect?_blank hc rest (by decide)]
    rfl

theorem skipsBlanks_numberName : SkipsBlanks numberName := fun before c rest hc => by
  rw [numberName, numeral?_blank hc rest]
  cases standsAlone before <;> rfl

theorem skipsBlanks_parenthesisName : SkipsBlanks parenthesisName := fun before c rest hc => by
  rw [parenthesisName, expect?_blank hc rest (by decide)]
  rfl

end Shorthand

theorem RangeToken.skipsBlanks_find : SkipsBlanks RangeToken.find := fun before c rest hc => by
  rw [RangeToken.find, signed?_blank hc rest]
  cases standsAlone before <;> rfl

/-! ## White space alone -/

section

variable {text : List Char} (h : ∀ c ∈ text, isBlank c = true)

include h

theorem expand_of_blank : expand text = text := by
  simp only [expand, replaceEach_of_blank skipsBlanks_thousands h,
    replaceEach_of_blank skipsBlanks_sharedPercent h, replaceEach_of_blank skipsBlanks_appliedPercent h,
    replaceEach_of_blank skipsBlanks_percentSpan h, replaceEach_of_blank skipsBlanks_timesSign h]

theorem substituteRanges_of_blank (replace : Nat → RangeToken → List Char) :
    substituteRanges replace text = text := by
  have hsegments := segmentsFrom_blanks RangeToken.skipsBlanks_find h [] []
  rw [List.append_nil, segmentsFrom_nil] at hsegments
  rw [substituteRanges, segments, hsegments, substituteSegments_map_char, substituteSegments,
    List.append_nil]

theorem insertProducts_of_blank : insertProducts text none = text := by
  simp only [insertProducts, replaceEach_of_blank skipsBlanks_numberParenthesis h,
    replaceEach_of_blank skipsBlanks_parenthesisParenthesis h,
    replaceEach_of_blank skipsBlanks_numberName h, replaceEach_of_blank skipsBlanks_parenthesisName h]

theorem trim_of_blank : trim text = [] := by
  have hskip : skipBlanks text = [] := List.dropWhile_eq_nil_iff.mpr h
  rw [trim, hskip]
  rfl

theorem isBlank_of_mem_squeezeRuns : ∀ c ∈ squeezeRuns text, isBlank c = true := by
  induction text with
  | nil => exact nofun
  | cons c rest ih =>
    have hrest := ih fun d hd => h d (List.mem_cons_of_mem c hd)
    rw [squeezeRuns, if_pos (h c List.mem_cons_self)]
    split
    next tail htail =>
      rw [htail] at hrest
      exact hrest
    next =>
      rintro d (_ | ⟨_, hd⟩)
      · rfl
      · exact hrest d hd

theorem finish_of_blank : finish text none = [] := by
  rw [finish, replaceEach_of_blank skipsBlanks_percent h, insertProducts_of_blank h]
  exact trim_of_blank (isBlank_of_mem_squeezeRuns h)

end

/-- White space is no formula that draws. -/
theorem NormalForm.ofText_blank {raw : String} (h : raw.toList.all isBlank = true) :
    NormalForm.ofText raw = ⟨"", false⟩ := by
  have hblank : ∀ c ∈ raw.toList, isBlank c = true := List.all_eq_true.mp h
  have htext : finish (substituteRanges (fun _ token => samplingCall token) (expand raw.toList)) none =
      [] := by
    rw [expand_of_blank hblank, substituteRanges_of_blank hblank, finish_of_blank hblank]
  simp only [NormalForm.ofText, htext]
  rfl

end RangeCalc
