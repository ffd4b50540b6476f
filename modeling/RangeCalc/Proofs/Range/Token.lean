import RangeCalc.Proofs.Shorthand.Numeral
import RangeCalc.Proofs.Text.Segment
import RangeCalc.Proofs.Text.Squeeze
import RangeCalc.Range.Token

/-!
# How ranges are written

    range: bound ["%"] blanks "~" blanks bound ["%"]
    bound: ["+" | "-"] numeral

* `IsBound`, `RangeShape`: bounds and ranges;
* `RangeToken.find_eq_some`: a range is recognised where such a text stands alone.
-/

namespace RangeCalc

open Text Shorthand

/-- No sign, or one of the two signs. -/
def IsSign (sign : List Char) : Prop :=
  sign = [] ∨ sign = ['+'] ∨ sign = ['-']

/-- The text of a percent sign that stands there or not. -/
def percentChars (percent : Bool) : List Char :=
  if percent then ['%'] else []

/-- What a range is written as. -/
structure RangeShape (covered : List Char) (r : FoundRange) where
  lowSign : List Char
  low : List Char
  blanks : List Char
  blanks' : List Char
  highSign : List Char
  high : List Char
  text_eq : covered = lowSign ++ low ++ percentChars r.token.minPercent ++ blanks ++
    '~' :: (blanks' ++ highSign ++ high ++ percentChars r.token.maxPercent)
  isSign_low : IsSign lowSign
  isNumeral_low : IsNumeral low
  isBlank_left : ∀ c ∈ blanks, isBlank c = true
  isBlank_right : ∀ c ∈ blanks', isBlank c = true
  isSign_high : IsSign highSign
  isNumeral_high : IsNumeral high
  maxText_eq : r.token.maxText = highSign ++ high
  operator_eq : ∀ sign, r.operator = some sign → lowSign = [sign]

theorem signed?_eq_some {cs s rest : List Char} (h : signed? cs = some (s, rest)) :
    ∃ sign n, IsSign sign ∧ IsNumeral n ∧ s = sign ++ n ∧ cs = s ++ rest := by
  have hsigned : ∀ (sign : Char) (tail : List Char), (sign = '+' ∨ sign = '-') →
      ((numeral? tail).map fun number => (sign :: number.1, number.2)) = some (s, rest) →
      ∃ n, IsNumeral n ∧ s = [sign] ++ n ∧ sign :: tail = s ++ rest := by
    intro sign tail _ h
    obtain ⟨⟨n, after⟩, hn, heq⟩ := Option.map_eq_some_iff.mp h
    obtain ⟨rfl, rfl⟩ := Prod.mk.inj heq
    have hfront := readsFront_numeral?.eq_some_iff.mp hn
    exact ⟨n, hfront.holds, rfl, by rw [hfront.split, List.cons_append]⟩
  rw [signed?.eq_def] at h
  split at h
  · obtain ⟨n, hn⟩ := hsigned '-' _ (.inr rfl) h
    exact ⟨_, n, .inr (.inr rfl), hn⟩
  · obtain ⟨n, hn⟩ := hsigned '+' _ (.inl rfl) h
    exact ⟨_, n, .inr (.inl rfl), hn⟩
  · have hfront := readsFront_numeral?.eq_some_iff.mp h
    exact ⟨[], s, .inl rfl, hfront.holds, rfl, hfront.split⟩

namespace RangeToken

theorem percentSign_eq (cs : List Char) :
    cs = percentChars (percentSign cs).1 ++ (percentSign cs).2 := by
  rw [percentSign.eq_def]
  split <;> rfl

theorem expect?_eq_some {c : Char} {cs rest : List Char} (h : expect? c cs = some rest) :
    cs = c :: rest := by
  rw [expect?.eq_def] at h
  split at h
  · split at h
    · rename_i hc
      rw [hc, Option.some.inj h]
    · cases h
  · cases h

/-- A range is recognised where its text stands alone. -/
theorem find_eq_some {before text after : List Char} {r : FoundRange}
    (h : find before text = some (r, after)) :
    standsAlone before = true ∧
      ∃ covered, text = covered ++ after ∧ Nonempty (RangeShape covered r) := by
  simp only [find, guard, bind, Option.bind_eq_some_iff] at h
  obtain ⟨_, halone, ⟨minText, rest₁⟩, hlow, rest₃, htilde, ⟨maxText, rest₄⟩, hhigh, h⟩ := h
  obtain ⟨lowSign, low, hlowSign, hnumeral, rfl, rfl⟩ := signed?_eq_some hlow
  obtain ⟨highSign, high, hhighSign, hnumeral', rfl, hrest₄⟩ := signed?_eq_some hhigh
  obtain ⟨blanks, hblanks, hskip⟩ := skipBlanks_split (percentSign rest₁).2
  obtain ⟨blanks', hblanks', hskip'⟩ := skipBlanks_split rest₃
  have hrest₃ : skipBlanks (percentSign rest₁).2 = '~' :: rest₃ := expect?_eq_some htilde
  obtain ⟨covered, hcovered⟩ : ∃ covered,
      covered = lowSign ++ low ++ percentChars (percentSign rest₁).1 ++ blanks ++
        '~' :: (blanks' ++ highSign ++ high ++ percentChars (percentSign rest₄).1) := ⟨_, rfl⟩
  have htext : lowSign ++ low ++ rest₁ = covered ++ (percentSign rest₄).2 := by
    have hrest : rest₃ = blanks' ++ (highSign ++ high ++
        (percentChars (percentSign rest₄).1 ++ (percentSign rest₄).2)) := by
      rw [← percentSign_eq, ← hrest₄]
      exact hskip'
    conv_lhs => rw [percentSign_eq rest₁, hskip, hrest₃, hrest]
    simp only [hcovered, List.append_assoc, List.cons_append]
  have hshape : ∀ operator text minText, (∀ sign, operator = some sign → lowSign = [sign]) →
      Nonempty (RangeShape covered
        ⟨operator, text, minText, highSign ++ high, (percentSign rest₁).1, (percentSign rest₄).1⟩) :=
    fun operator text minText hoperator =>
      ⟨lowSign, low, blanks, blanks', highSign, high, hcovered, hlowSign, hnumeral, hblanks, hblanks',
        hhighSign, hnumeral', rfl, hoperator⟩
  have halone : standsAlone before = true := by
    by_contra hno
    simp [hno, failure] at halone
  refine ⟨halone, covered, ?_⟩
  split at h
  · rename_i sign unsigned hmin
    split at h
    · rename_i hsign
      obtain ⟨rfl, rfl⟩ := Prod.mk.inj (Option.some.inj h)
      refine ⟨htext, hshape _ _ _ fun sign' heq => ?_⟩
      obtain rfl := Option.some.inj heq
      obtain ⟨c, tail, rfl, hdigit⟩ := hnumeral.head
      rcases hlowSign with rfl | rfl | rfl
      · obtain ⟨rfl, -⟩ := List.cons.inj hmin
        rw [not_isDigit_sign hsign.1] at hdigit
        cases hdigit
      · rw [(List.cons.inj hmin).1]
      · rw [(List.cons.inj hmin).1]
    · obtain ⟨rfl, rfl⟩ := Prod.mk.inj (Option.some.inj h)
      exact ⟨htext, hshape _ _ _ (by simp)⟩
  · cases h

theorem find_covers : Finder.Covers find := by
  intro before text r after h
  obtain ⟨-, covered, htext, ⟨shape⟩⟩ := find_eq_some h
  refine ⟨covered, ?_, htext⟩
  rw [shape.text_eq]
  simp

end RangeToken

end RangeCalc
