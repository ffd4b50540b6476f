import RangeCalc.Number.Numeral

/-!
# Characters of plain literals

* `mem_plainChars`: digits, point, minus, and the letters of the two words for what is no finite number.
-/

namespace RangeCalc

/-- The characters other than digits of plain literals. -/
def plainMarks : List Char :=
  ".-NaNInfinity".toList

theorem isDigit_of_mem_digitChars {n : Nat} : ∀ c ∈ digitChars n, c.isDigit = true :=
  fun _ hc => Nat.isDigit_of_mem_toDigits (by decide) (by decide) hc

theorem isDigit_of_mem_zeros {n : Nat} : ∀ c ∈ List.replicate n '0', c.isDigit = true := fun c hc => by
  rw [List.eq_of_mem_replicate hc]
  rfl

namespace Numeral

section

variable {x : Numeral} (hdigits : ∀ d ∈ x.digits, d.isDigit = true)

include hdigits

theorem isDigit_of_mem_whole : ∀ c ∈ x.whole, c.isDigit = true := by
  rw [whole]
  split
  · simp [Char.isDigit]
  · exact List.forall_mem_append.mpr ⟨fun d hd => hdigits d (List.mem_of_mem_take hd), isDigit_of_mem_zeros⟩

theorem isDigit_of_mem_fraction : ∀ c ∈ x.fraction, c.isDigit = true := by
  rw [fraction]
  split
  · split
    · exact nofun
    · exact List.forall_mem_append.mpr ⟨isDigit_of_mem_zeros, hdigits⟩
  · exact fun d hd => hdigits d (List.mem_of_mem_drop hd)

theorem mem_plain {c : Char} (hc : c ∈ x.plain) : c.isDigit = true ∨ c = '.' := by
  rw [plain] at hc
  split at hc
  · exact .inl (isDigit_of_mem_whole hdigits c hc)
  · rcases List.mem_append.mp hc with hc | hc
    · exact .inl (isDigit_of_mem_whole hdigits c hc)
    · exact (List.mem_cons.mp hc).symm.imp_left (isDigit_of_mem_fraction hdigits c)

end

theorem digits_ofDecimal (d : Decimal) : ∀ c ∈ (ofDecimal d).digits, c.isDigit = true := by
  intro c hc
  rw [ofDecimal, dropTrailingZeros] at hc
  split at hc
  · simp [List.mem_singleton.mp hc, Char.isDigit]
  · have hkept := (List.dropWhile_sublist _).mem (List.mem_reverse.mp hc)
    exact isDigit_of_mem_digitChars c (List.mem_reverse.mp hkept)

theorem digits_ofDecimal_ne_nil (d : Decimal) : (ofDecimal d).digits ≠ [] := by
  rw [ofDecimal, dropTrailingZeros]
  split
  · exact List.cons_ne_nil _ _
  · assumption

end Numeral

/-- The characters of plain literals. -/
theorem mem_plainChars {x : Float} {c : Char} (hc : c ∈ plainChars x) :
    c.isDigit = true ∨ c ∈ plainMarks := by
  have hundefined : "NaN".toList ⊆ plainMarks := by decide
  have hinfinite : "Infinity".toList ⊆ plainMarks := by decide
  have hminus : "-Infinity".toList ⊆ plainMarks := by decide
  rw [plainChars] at hc
  split at hc
  · exact .inr (hundefined hc)
  split at hc
  · split at hc
    · exact .inr (hminus hc)
    · exact .inr (hinfinite hc)
  split at hc
  · simp [List.mem_singleton.mp hc, Char.isDigit]
  · have hplain : ∀ c ∈ (shortestNumeral x).plain, c.isDigit = true ∨ c ∈ plainMarks := fun c hc =>
      (Numeral.mem_plain (Numeral.digits_ofDecimal _) hc).imp_right fun h => by rw [h]; decide
    rw [signed] at hc
    split at hc
    · rcases List.mem_cons.mp hc with rfl | hc
      · exact .inr (by decide)
      · exact hplain c hc
    · exact hplain c hc

end RangeCalc
