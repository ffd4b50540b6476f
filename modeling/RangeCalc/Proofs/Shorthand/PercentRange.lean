import RangeCalc.Proofs.Shorthand.PercentResult

/-!
# Two percentages in parentheses

    "(" low ["%"] mark high "%" ")"

The mark is a tilde or a hyphen. Three rules take part in writing out such a text.

* `Spaces`, `percentRange`: the texts;
* `expand_percentRange`: both percentages get their signs, and a tilde between them;
* `expand_changed`: with a number in front, the number is multiplied by a range.
-/

namespace RangeCalc.Shorthand

open Text

/-- White space inside two percentages in parentheses. -/
structure Spaces where
  opening : List Char
  left : List Char
  right : List Char
  closing : List Char
  isBlank_opening : ∀ b ∈ opening, isBlank b = true
  isBlank_left : ∀ b ∈ left, isBlank b = true
  isBlank_right : ∀ b ∈ right, isBlank b = true
  isBlank_closing : ∀ b ∈ closing, isBlank b = true

/-- Two percentages in parentheses; the first has its own percent sign, or shares that of the second. -/
def percentRange (own : Bool) (mark : Char) (low high : List Char) (s : Spaces) : List Char :=
  '(' :: (s.opening ++ (low ++ (percentChars own ++ (s.left ++ mark :: (s.right ++
    (high ++ '%' :: (s.closing ++ [')'])))))))

theorem forall_mem_space : ∀ b ∈ [' '], isBlank b = true :=
  List.forall_mem_singleton.mpr isBlank_space

/-- White space as it is written around a mark. -/
def Spaces.atMark (opening closing : List Char) (hopening : ∀ b ∈ opening, isBlank b = true)
    (hclosing : ∀ b ∈ closing, isBlank b = true) : Spaces :=
  ⟨opening, [' '], [' '], closing, hopening, forall_mem_space, forall_mem_space, hclosing⟩

/-- Percentages that share a sign lose the white space inside the parentheses. -/
def Spaces.shared : Spaces :=
  .atMark [] [] (List.forall_mem_nil _) (List.forall_mem_nil _)

theorem not_isBoundChar_opening (s : Spaces) : ∀ c ∈ '(' :: s.opening, ¬ IsBoundChar c := by
  refine List.forall_mem_cons.mpr ⟨?_, fun c hc => not_isBoundChar_of_isBlank (s.isBlank_opening c hc)⟩
  rintro (h | h)
  · exact absurd h (by decide)
  · exact absurd h (by decide)

theorem not_isBoundChar_closing (s : Spaces) : ∀ c ∈ s.closing ++ [')'], ¬ IsBoundChar c := by
  refine List.forall_mem_append.mpr ⟨fun c hc => not_isBoundChar_of_isBlank (s.isBlank_closing c hc),
    List.forall_mem_singleton.mpr ?_⟩
  rintro (h | h)
  · exact absurd h (by decide)
  · exact absurd h (by decide)

variable {low high front : List Char} {mark : Char} {own : Bool} {s : Spaces}

section

variable (hlow : IsNegatable low) (hhigh : IsNegatable high) (hmark : IsSeparator mark)

include hlow hhigh hmark

/-- The characters behind the opening parenthesis. -/
theorem mem_percentRange {c : Char} (hc : c ∈ (percentRange own mark low high s).tail) :
    isDigit c = true ∨ isBlank c = true ∨ c ∈ ['.', '-', '%', '~', ')'] := by
  have hblank : isBlank c = true → isDigit c = true ∨ isBlank c = true ∨ c ∈ ['.', '-', '%', '~', ')'] :=
    fun h => .inr (.inl h)
  have hbound : ∀ {bound}, IsNegatable bound → c ∈ bound →
      isDigit c = true ∨ isBlank c = true ∨ c ∈ ['.', '-', '%', '~', ')'] := fun hbound hmem => by
    rcases hbound.mem hmem with h | rfl | rfl
    · exact .inl h
    · exact .inr (.inr (by decide))
    · exact .inr (.inr (by decide))
  simp only [percentRange, List.tail_cons, List.mem_append, List.mem_cons, List.not_mem_nil, or_false] at hc
  rcases hc with hc | hc | hc | hc | rfl | hc | hc | rfl | hc | rfl
  · exact hblank (s.isBlank_opening c hc)
  · exact hbound hlow hc
  · cases own
    · cases hc
    · exact .inr (.inr (by simp_all [percentChars]))
  · exact hblank (s.isBlank_left c hc)
  · exact .inr (.inr (by rcases hmark with rfl | rfl <;> decide))
  · exact hblank (s.isBlank_right c hc)
  · exact hbound hhigh hc
  · exact .inr (.inr (by decide))
  · exact hblank (s.isBlank_closing c hc)
  · exact .inr (.inr (by decide))

theorem not_mem_percentRange {c : Char} (hdigit : isDigit c = false) (hblank : isBlank c = false)
    (hc : c ∉ ['.', '-', '%', '~', ')']) : c ∉ (percentRange own mark low high s).tail := by
  intro hmem
  rcases mem_percentRange hlow hhigh hmark hmem with h | h | h
  · exact Bool.false_ne_true (hdigit.symm.trans h)
  · exact Bool.false_ne_true (hblank.symm.trans h)
  · exact hc h

theorem not_mem_parenthesis : '(' ∉ (percentRange own mark low high s).tail :=
  not_mem_percentRange hlow hhigh hmark (by decide) (by decide) (by decide)

/-- After the rule for a shared percent sign both percentages have one. -/
theorem replaceEach_shared_percentRange (hfront : '(' ∉ front) :
    replaceEach sharedPercent (front ++ percentRange own mark low high s) =
      front ++ percentRange true mark low high (if own then s else .shared) := by
  cases own with
  | false =>
    have hfound := replaceEach_occurrence front percentRule_shared.covers (nothingIn_shared hfront [] _)
      (sharedPercent_parenthesis hlow hhigh s.isBlank_opening s.isBlank_left s.isBlank_right s.isBlank_closing
        hmark front.reverse []) fun _ => nothingIn_nil
    simpa [percentRange, percentChars, Spaces.shared, Spaces.atMark] using hfound
  | true =>
    refine replaceEach_of_nothingIn (nothingIn_append (nothingIn_shared hfront _ _)
      (nothingIn_cons ?_ (nothingIn_shared (not_mem_parenthesis hlow hhigh hmark) _ _)))
    simp only [List.append_nil]
    exact sharedPercent_percentage hlow s.isBlank_opening _ _

/-- Without a number in front, nothing is changed by the percentages. -/
theorem replaceEach_applied_percentRange :
    replaceEach appliedPercent (percentRange true mark low high s) = percentRange true mark low high s := by
  refine replaceEach_of_nothingIn (findsNumeral_applied.nothingIn ?_ (.inl rfl))
  refine NoneFollows.cons (fun h => absurd h (by decide)) (noneFollows_continues ?_)
  rw [List.append_nil]
  exact not_mem_parenthesis hlow hhigh hmark

/-- With a number in front, the number is changed by the percentages. -/
theorem replaceEach_applied_changed {base u₀ : List Char} (hbase : IsNegatable base)
    (hu₀ : ∀ b ∈ u₀, isBlank b = true) :
    replaceEach appliedPercent (base ++ (u₀ ++ percentRange true mark low high s)) =
      changedChars base low high := by
  have hfound := replaceEach_occurrence [] percentRule_applied.covers nothingIn_nil
    (appliedPercent_parenthesis hlow hhigh s.isBlank_opening s.isBlank_left s.isBlank_right s.isBlank_closing hmark
      rfl hbase hu₀ []) fun _ => nothingIn_nil
  simpa [percentRange, percentChars] using hfound

/-- After the rule for hyphens a tilde stands between the percentages. -/
theorem replaceEach_span_percentRange :
    ∃ s' : Spaces, s'.opening = s.opening ∧ s'.closing = s.closing ∧
      replaceEach percentSpan (percentRange true mark low high s) = percentRange true '~' low high s' := by
  have hdigit : ∀ {u : List Char}, (∀ c ∈ u, ¬ IsBoundChar c) → ∀ c ∈ u, ¬ isDigit c = true := fun hu c hc h =>
    hu c hc (.inl h)
  have hopen := not_isBoundChar_opening s
  have hclose := not_isBoundChar_closing s
  rcases hmark with rfl | rfl
  · refine ⟨s, rfl, rfl, replaceEach_of_nothingIn (findsNumeral_percentSpan.nothingIn ?_ (.inl rfl))⟩
    show NoneFollows _ _ ('(' :: s.opening ++ (low ++ '%' :: (s.left ++ '~' :: (s.right ++ (high ++
      '%' :: (s.closing ++ [')'])))))) []
    exact .append (noneFollows_of_not (hdigit hopen))
      (noneFollows_percentages hlow hhigh s.isBlank_left s.isBlank_right
        (not_percentHyphen s.isBlank_closing (by decide) (by decide) []) (noneFollows_of_not (hdigit hclose)))
  · refine ⟨.atMark s.opening s.closing s.isBlank_opening s.isBlank_closing, rfl, rfl, ?_⟩
    have hfound := replaceEach_occurrence ('(' :: s.opening) percentRule_span.covers
      (findsNumeral_percentSpan.nothingIn_of_not hopen)
      (percentSpan_percentages hlow hhigh s.isBlank_left s.isBlank_right _ (s.closing ++ [')']))
      fun _ => findsNumeral_percentSpan.nothingIn_of_not hclose
    simpa [percentRange, percentChars, Spaces.atMark] using hfound

/-- What is kept of the white space inside the parentheses: none if the percent sign is shared. -/
def kept (own : Bool) (u : List Char) : List Char :=
  if own then u else []

theorem expand_percentRange :
    ∃ s' : Spaces, s'.opening = kept own s.opening ∧ s'.closing = kept own s.closing ∧
      expand (percentRange own mark low high s) = percentRange true '~' low high s' := by
  have hcomma : ',' ∉ percentRange own mark low high s :=
    List.not_mem_cons_of_ne_of_not_mem (by decide)
      (not_mem_percentRange hlow hhigh hmark (by decide) (by decide) (by decide))
  have htimes : ∀ s' : Spaces, ∀ c ∈ ['x', 'X'], c ∉ percentRange true '~' low high s' := by
    intro s' c hc
    simp only [List.mem_cons, List.not_mem_nil, or_false] at hc
    rcases hc with rfl | rfl <;>
      exact List.not_mem_cons_of_ne_of_not_mem (by decide)
        (not_mem_percentRange hlow hhigh (.inl rfl) (by decide) (by decide) (by decide))
  obtain ⟨s', hopening, hclosing, hspan⟩ :=
    replaceEach_span_percentRange hlow hhigh hmark (s := if own then s else .shared)
  refine ⟨s', ?_, ?_, ?_⟩
  · cases own <;> exact hopening
  · cases own <;> exact hclosing
  have hshared : replaceEach sharedPercent (percentRange own mark low high s) =
      percentRange true mark low high (if own then s else .shared) :=
    replaceEach_shared_percentRange hlow hhigh hmark List.not_mem_nil
  rw [expand, replaceEach_thousands hcomma, hshared, replaceEach_applied_percentRange hlow hhigh hmark, hspan,
    replaceEach_timesSign (htimes s')]

end

/-- A text without a percentage, a comma and the letter `x` is left. -/
theorem expand_eq_self {text : List Char} (h : ∀ c ∈ ['%', ',', 'x', 'X'], c ∉ text) : expand text = text := by
  simp only [List.forall_mem_cons] at h
  obtain ⟨hpercent, hcomma, htimes⟩ := h
  have htimes : ∀ c ∈ ['x', 'X'], c ∉ text := by simpa using htimes
  rw [expand, replaceEach_thousands hcomma, replaceEach_percents_of_not_mem hpercent, replaceEach_timesSign htimes]

section

variable {base u₀ : List Char} (hbase : IsNegatable base)

include hbase

theorem not_mem_changedChars : ∀ c ∈ ['%', ',', 'x', 'X'], c ∉ changedChars base low high := by
  intro c hc
  simp only [List.mem_cons, List.not_mem_nil, or_false] at hc
  have hdigit : isDigit c = false := by rcases hc with rfl | rfl | rfl | rfl <;> decide
  have hbasic : c ∉ ['.', '-'] ∧ c.isDigit = false ∧ c ∉ plainMarks ∧ c ∉ " * (".toList ∧ c ≠ '~' ∧ c ≠ ')' := by
    rcases hc with rfl | rfl | rfl | rfl <;> decide
  obtain ⟨hmark, hplain, hplainMark, hopening, htilde, hclose⟩ := hbasic
  have hchars : ∀ x, c ∉ plainChars x := fun x hmem => by
    rcases mem_plainChars hmem with h | h
    · exact Bool.false_ne_true (hplain.symm.trans h)
    · exact hplainMark h
  simp only [changedChars, List.mem_append, List.mem_cons, List.not_mem_nil, or_false, not_or]
  exact ⟨hbase.not_mem hdigit hmark, hopening, hchars _, htilde, hchars _, hclose⟩

theorem expand_changedChars : expand (changedChars base low high) = changedChars base low high :=
  expand_eq_self (not_mem_changedChars hbase)

variable (hlow : IsNegatable low) (hhigh : IsNegatable high) (hmark : IsSeparator mark)
  (hu₀ : ∀ b ∈ u₀, isBlank b = true)

include hlow hhigh hmark hu₀

/-- A number with two percentages in parentheses behind it is multiplied by a range. -/
theorem expand_changed :
    expand (base ++ (u₀ ++ percentRange own mark low high s)) = changedChars base low high := by
  have hchanged : ∀ c ∈ ['%', ',', 'x', 'X'], c ∉ changedChars base low high := not_mem_changedChars hbase
  simp only [List.forall_mem_cons] at hchanged
  obtain ⟨hpercent, -, htimes⟩ := hchanged
  have htimes : ∀ c ∈ ['x', 'X'], c ∉ changedChars base low high := by simpa using htimes
  have hcomma : ',' ∉ base ++ (u₀ ++ percentRange own mark low high s) := by
    simp only [List.mem_append, not_or]
    refine ⟨hbase.not_mem (by decide) (by decide), fun h => absurd (hu₀ _ h) (by decide), ?_⟩
    exact List.not_mem_cons_of_ne_of_not_mem (by decide)
      (not_mem_percentRange hlow hhigh hmark (by decide) (by decide) (by decide))
  have hparen : '(' ∉ base ++ u₀ := by
    simp only [List.mem_append, not_or]
    exact ⟨hbase.not_mem (by decide) (by decide), fun h => absurd (hu₀ _ h) (by decide)⟩
  rw [expand, replaceEach_thousands hcomma, ← List.append_assoc,
    replaceEach_shared_percentRange hlow hhigh hmark hparen, List.append_assoc,
    replaceEach_applied_changed hlow hhigh hmark hbase hu₀,
    replaceEach_of_free (percentRule_span.free_of_percent (free_percent_of_not_mem hpercent)),
    replaceEach_timesSign htimes]

end

end RangeCalc.Shorthand
