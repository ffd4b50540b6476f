import RangeCalc.Text.Blank
import RangeCalc.Text.DecimalDigit
import RangeCalc.Text.WordChar

/-!
# Classes of characters

* `isWordChar_of_isDigit`: digits of all scripts belong to words;
* `not_isWordChar_of_isBlank`: white space does not;
* `not_isDigit_of_isNameStart`, `isWordChar_of_isNameStart`: names start with no digit, but with a
  character of words.
-/

namespace RangeCalc.Text

theorem isAlphanumeric_of_isDigit {c : Char} (h : isDigit c = true) : isAlphanumeric c = true := by
  have hzeros : (digitZeros.all fun first =>
      alphanumericRanges.any fun range => Nat.ble range.1 first && Nat.ble (first + 9) range.2) = true := by
    decide +kernel
  rw [isAlphanumeric]
  rw [isDigit, digitValue?] at h
  by_cases hascii : 48 ≤ c.toNat ∧ c.toNat ≤ 57
  · simp only [hascii.1, hascii.2, decide_true, Bool.and_self, Bool.or_true]
    rw [if_pos (by omega)]
  · rw [if_neg hascii] at h
    by_cases hsmall : c.toNat < 128
    · rw [if_pos hsmall] at h
      cases h
    · rw [if_neg hsmall] at h
      simp only [Option.isSome_map, List.find?_isSome, Bool.and_eq_true, decide_eq_true_eq] at h
      obtain ⟨first, hfirst, hlow, hhigh⟩ := h
      obtain ⟨range, hrange, hbounds⟩ := List.any_eq_true.mp (List.all_eq_true.mp hzeros first hfirst)
      rw [Bool.and_eq_true, Nat.ble_eq, Nat.ble_eq] at hbounds
      rw [if_neg hsmall]
      refine List.any_eq_true.mpr ⟨range, hrange, ?_⟩
      simp only [Bool.and_eq_true, decide_eq_true_eq]
      omega

theorem isWordChar_of_isDigit {c : Char} (h : isDigit c = true) : isWordChar c = true := by
  rw [isWordChar, isAlphanumeric_of_isDigit h, Bool.or_true]

/-- The code points of white space, as ranges. -/
def blankRanges : List (Nat × Nat) :=
  [(9, 13), (28, 32), (0x85, 0x85), (0xA0, 0xA0), (0x1680, 0x1680), (0x2000, 0x200A), (0x2028, 0x2029),
    (0x202F, 0x202F), (0x205F, 0x205F), (0x3000, 0x3000)]

theorem mem_blankRanges {c : Char} (h : isBlank c = true) :
    ∃ range ∈ blankRanges, range.1 ≤ c.toNat ∧ c.toNat ≤ range.2 := by
  simp only [isBlank, Bool.or_eq_true, Bool.and_eq_true, decide_eq_true_eq, beq_iff_eq] at h
  simp only [blankRanges, List.mem_cons, List.not_mem_nil, or_false, exists_eq_or_imp, exists_eq_left]
  rcases h with ((((((((((h | h) | h) | h) | h) | h) | h) | h) | h) | h) | h) <;> simp [h]

/-- The code points of word characters below 128. -/
def asciiWordRanges : List (Nat × Nat) :=
  [(95, 95), (97, 122), (65, 90), (48, 57)]

theorem mem_wordRanges {c : Char} (h : isWordChar c = true) :
    ∃ range ∈ asciiWordRanges ++ alphanumericRanges, range.1 ≤ c.toNat ∧ c.toNat ≤ range.2 := by
  rw [isWordChar, Bool.or_eq_true, beq_iff_eq, isAlphanumeric] at h
  rcases h with rfl | h
  · exact ⟨(95, 95), List.mem_append_left _ (by simp [asciiWordRanges]), by decide⟩
  · split at h
    · simp only [isAsciiLetter, Bool.or_eq_true, Bool.and_eq_true, decide_eq_true_eq] at h
      rcases h with (h | h) | h
      · exact ⟨(97, 122), List.mem_append_left _ (by simp [asciiWordRanges]), h⟩
      · exact ⟨(65, 90), List.mem_append_left _ (by simp [asciiWordRanges]), h⟩
      · exact ⟨(48, 57), List.mem_append_left _ (by simp [asciiWordRanges]), h⟩
    · obtain ⟨range, hrange, hbounds⟩ := List.any_eq_true.mp h
      rw [Bool.and_eq_true, decide_eq_true_eq, decide_eq_true_eq] at hbounds
      exact ⟨range, List.mem_append_right _ hrange, hbounds⟩

theorem not_isWordChar_of_isBlank {c : Char} (h : isBlank c = true) : isWordChar c = false := by
  have hapart : ((asciiWordRanges ++ alphanumericRanges).all fun word =>
      blankRanges.all fun blank => Nat.blt word.2 blank.1 || Nat.blt blank.2 word.1) = true := by
    decide +kernel
  refine Bool.of_not_eq_true fun hword => ?_
  obtain ⟨blank, hblank, hlow, hhigh⟩ := mem_blankRanges h
  obtain ⟨word, hmem, hlow', hhigh'⟩ := mem_wordRanges hword
  have := List.all_eq_true.mp (List.all_eq_true.mp hapart word hmem) blank hblank
  rw [Bool.or_eq_true, Nat.blt_eq, Nat.blt_eq] at this
  omega

theorem isNameStart_cases {c : Char} (h : isNameStart c = true) :
    c.toNat = 95 ∨ (97 ≤ c.toNat ∧ c.toNat ≤ 122) ∨ (65 ≤ c.toNat ∧ c.toNat ≤ 90) := by
  simp only [isNameStart, isAsciiLetter, Bool.or_eq_true, Bool.and_eq_true, beq_iff_eq,
    decide_eq_true_eq] at h
  rcases h with rfl | h
  · exact .inl rfl
  · exact .inr h

theorem not_isDigit_of_isNameStart {c : Char} (h : isNameStart c = true) : isDigit c = false := by
  have := isNameStart_cases h
  simp only [isDigit, digitValue?]
  rw [if_neg (by omega), if_pos (by omega)]
  rfl

theorem isWordChar_of_isNameStart {c : Char} (h : isNameStart c = true) : isWordChar c = true := by
  have hsmall := isNameStart_cases h
  rw [isNameStart, Bool.or_eq_true] at h
  rw [isWordChar, Bool.or_eq_true]
  refine h.imp_right fun hletter => ?_
  rw [isAlphanumeric, if_pos (by omega), hletter, Bool.true_or]

theorem isWordChar_of_isNameChar {c : Char} (h : isNameChar c = true) : isWordChar c = true := by
  rw [isNameChar, Bool.or_eq_true, Bool.and_eq_true, decide_eq_true_eq, decide_eq_true_eq] at h
  rcases h with h | h
  · exact isWordChar_of_isNameStart h
  · rw [isWordChar, isAlphanumeric, if_pos (by omega)]
    simp [h]

theorem not_isNameStart_of_isBlank {c : Char} (h : isBlank c = true) : isNameStart c = false := by
  refine Bool.of_not_eq_true fun hname => ?_
  have hword := not_isWordChar_of_isBlank h
  rw [isWordChar_of_isNameStart hname] at hword
  cases hword

end RangeCalc.Text
