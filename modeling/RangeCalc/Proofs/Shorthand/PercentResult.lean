import RangeCalc.Proofs.Shorthand.Stretch

/-!
# What the rules for percentages and ranges write

Each rule, applied to the text that it is made for.

* `percent_numeral`: a percentage;
* `sharedPercent_parenthesis`, `appliedPercent_parenthesis`, `percentSpan_percentages`: two percentages;
* `standsAlone_behind`, `endsOperand_behind`: what the character before white space decides;
* `find_range`, `find_range_plus`: a range, without and with a sign that joins it to an operand before it.
-/

namespace RangeCalc.Shorthand

open Text

variable {before rest low high n u₁ u₂ u₃ u₄ : List Char}

theorem stops_percent (rest : List Char) : Stops ('%' :: rest) :=
  stops_cons (by decide) rest

theorem guard_true {p : Prop} [Decidable p] (h : p) : (guard p : Option Unit) = some () :=
  guard_eq_some.mpr h

theorem percent_numeral (hn : IsNumeral n) (halone : standsAlone before = true) (rest : List Char) :
    percent before (n ++ '%' :: rest) = some ('(' :: (n ++ "/100)".toList), rest) := by
  simp [percent, bind, guard_true halone, numeral?_append hn (stops_percent rest), expect?_cons]

section

variable (hlow : IsNegatable low) (hhigh : IsNegatable high) (hu₁ : ∀ b ∈ u₁, isBlank b = true)
  (hu₂ : ∀ b ∈ u₂, isBlank b = true) (hu₃ : ∀ b ∈ u₃, isBlank b = true) (hu₄ : ∀ b ∈ u₄, isBlank b = true)

include hlow hhigh hu₂ hu₃ in
/-- Two percentages with a hyphen between them. -/
theorem percentSpan_percentages (before rest : List Char) :
    percentSpan before (low ++ '%' :: (u₂ ++ '-' :: (u₃ ++ (high ++ '%' :: rest)))) =
      some (low ++ ['%', ' ', '~', ' '] ++ high ++ ['%'], rest) := by
  simp [percentSpan, bind, negatable?_append hlow (stops_percent _), expect?_cons,
    skipBlanks_append hu₂ (show isBlank '-' = false by decide), skipBlanks_negatable hu₃ hhigh,
    negatable?_append hhigh (stops_percent _)]

/-- What separates two percentages. -/
def IsSeparator (mark : Char) : Prop :=
  mark = '~' ∨ mark = '-'

variable {mark : Char} (hmark : IsSeparator mark)

theorem IsSeparator.spec (hmark : IsSeparator mark) (rest : List Char) :
    separator? (mark :: rest) = some (mark, rest) ∧ isBlank mark = false ∧ mark ≠ '%' ∧
      isDigit mark = false ∧ mark ≠ '.' := by
  rcases hmark with rfl | rfl
  · exact ⟨rfl, by decide⟩
  · exact ⟨rfl, by decide⟩

/-- The first numeral has no percent sign of its own. -/
theorem endsWithoutPercent_separator (hmark : IsSeparator mark) (hu₂ : ∀ b ∈ u₂, isBlank b = true)
    (rest : List Char) : endsWithoutPercent (u₂ ++ mark :: rest) = true := by
  obtain ⟨-, hblank, hpercent, hdigit, hpoint⟩ := hmark.spec rest
  have hstops : Stops (u₂ ++ mark :: rest) := stops_blanks hu₂ (stops_cons ⟨hdigit, hpoint⟩ rest)
  have hskip : (skipBlanks (u₂ ++ mark :: rest)).head? ≠ some '%' := by
    rw [skipBlanks_append hu₂ hblank]
    simpa using hpercent
  obtain ⟨c, tail, heq⟩ : ∃ c tail, u₂ ++ mark :: rest = c :: tail := List.exists_cons_of_ne_nil (by simp)
  rw [heq] at hstops hskip ⊢
  have hc := hstops c rfl
  rw [not_or] at hc
  simp [endsWithoutPercent, hc, hskip]

include hlow hhigh hu₁ hu₂ hu₃ hu₄ hmark in
/-- Two bounds in parentheses that share the percent sign of the second. -/
theorem sharedPercent_parenthesis (before rest : List Char) :
    sharedPercent before
        ('(' :: (u₁ ++ (low ++ (u₂ ++ mark :: (u₃ ++ (high ++ '%' :: (u₄ ++ ')' :: rest))))))) =
      some ('(' :: low ++ ['%', ' ', mark, ' '] ++ high ++ ['%', ')'], rest) := by
  obtain ⟨hseparator, hblank, -, hdigit, hpoint⟩ := hmark.spec (u₃ ++ (high ++ '%' :: (u₄ ++ ')' :: rest)))
  have hstops : Stops (u₂ ++ mark :: (u₃ ++ (high ++ '%' :: (u₄ ++ ')' :: rest)))) :=
    stops_blanks hu₂ (stops_cons ⟨hdigit, hpoint⟩ _)
  simp [sharedPercent, bind, expect?_cons, skipBlanks_negatable hu₁ hlow, negatable?_append hlow hstops,
    endsWithoutPercent_separator hmark hu₂, guard_true, skipBlanks_append hu₂ hblank, hseparator,
    skipBlanks_negatable hu₃ hhigh, negatable?_append hhigh (stops_percent _),
    skipBlanks_append hu₄ (show isBlank ')' = false by decide)]

include hlow hu₁ in
/-- They share none if the first one has its own. -/
theorem sharedPercent_percentage (before rest : List Char) :
    sharedPercent before ('(' :: (u₁ ++ (low ++ '%' :: rest))) = none := by
  have hends : endsWithoutPercent ('%' :: rest) = false := by
    have hskip : skipBlanks ('%' :: rest) = '%' :: rest := skipBlanks_char (by decide) rest
    simp [endsWithoutPercent, hskip]
  simp [sharedPercent, bind, expect?_cons, skipBlanks_negatable hu₁ hlow, negatable?_append hlow (stops_percent _),
    hends, guard, failure]

/-- The lesser and the greater of the two factors of a change. -/
def leastFactor (low high : List Char) : Float :=
  if growthFactor high < growthFactor low then growthFactor high else growthFactor low

def greatestFactor (low high : List Char) : Float :=
  if growthFactor low < growthFactor high then growthFactor high else growthFactor low

/-- A number that is changed by a range of factors. -/
def changedChars (base low high : List Char) : List Char :=
  base ++ (" * (".toList ++ (plainChars (leastFactor low high) ++
    '~' :: (plainChars (greatestFactor low high) ++ [')'])))

include hlow hhigh hu₁ hu₂ hu₃ hu₄ hmark in
/-- A number and two percentages in parentheses behind it. -/
theorem appliedPercent_parenthesis {base u₀ : List Char} (halone : standsAlone before = true)
    (hbase : IsNegatable base) (hu₀ : ∀ b ∈ u₀, isBlank b = true) (rest : List Char) :
    appliedPercent before
        (base ++ (u₀ ++ '(' :: (u₁ ++ (low ++ '%' :: (u₂ ++ mark :: (u₃ ++ (high ++ '%' :: (u₄ ++ ')' :: rest)))))))) =
      some (changedChars base low high, rest) := by
  obtain ⟨hseparator, hblank, -⟩ := hmark.spec (u₃ ++ (high ++ '%' :: (u₄ ++ ')' :: rest)))
  have hparen : Stops
      ('(' :: (u₁ ++ (low ++ '%' :: (u₂ ++ mark :: (u₃ ++ (high ++ '%' :: (u₄ ++ ')' :: rest))))))) :=
    stops_cons (by decide) _
  simp [appliedPercent, bind, guard_true halone, negatable?_append hbase (stops_blanks hu₀ hparen),
    skipBlanks_append hu₀ (show isBlank '(' = false by decide), expect?_cons, skipBlanks_negatable hu₁ hlow,
    negatable?_append hlow (stops_percent _), skipBlanks_append hu₂ hblank, hseparator,
    skipBlanks_negatable hu₃ hhigh, negatable?_append hhigh (stops_percent _),
    skipBlanks_append hu₄ (show isBlank ')' = false by decide), changedChars, leastFactor, greatestFactor]

end

/-! ## Ranges -/

theorem standsAlone_behind (hu : ∀ b ∈ u₁, isBlank b = true) {c : Char} (hc : StandsAside c) (x : List Char) :
    standsAlone (x ++ c :: u₁).reverse = true := by
  rcases List.eq_nil_or_concat u₁ with rfl | ⟨u, b, rfl⟩
  · rw [List.reverse_append]
    exact hc
  · rw [List.concat_eq_append, ← List.cons_append, ← List.append_assoc, List.reverse_append]
    exact standsAside_of_isBlank (hu b (by simp))

theorem endsOperand_behind (hu : ∀ b ∈ u₁, isBlank b = true) {c : Char} (hc : isBlank c = false) (x : List Char) :
    RangeToken.endsOperand (x ++ c :: u₁).reverse =
      (isAlphanumeric c || c == '_' || c == '.' || c == ')' || c == '%') := by
  rw [List.reverse_append, List.reverse_cons, List.append_assoc, List.singleton_append,
    RangeToken.endsOperand,
    skipBlanks_append (fun b hb => hu b (List.mem_reverse.mp hb)) hc]

/-- White space and a tilde. -/
theorem tilde_spec (rest : List Char) (hu₂ : ∀ b ∈ u₂, isBlank b = true) :
    Stops (u₂ ++ '~' :: rest) ∧ (u₂ ++ '~' :: rest).head? ≠ some '%' :=
  ⟨stops_blanks hu₂ (stops_cons (by decide) _), head_ne_percent hu₂ (by decide) rest⟩

theorem stops_percentChars (p : Bool) (h : Stops rest) : Stops (percentChars p ++ rest) := by
  cases p
  · exact h
  · exact stops_percent rest

section

variable (hhigh : IsNegatable high) (hu₂ : ∀ b ∈ u₂, isBlank b = true) (hu₃ : ∀ b ∈ u₃, isBlank b = true)
  (hstops : Stops rest) (hpercent : rest.head? ≠ some '%') (halone : standsAlone before = true) (p q : Bool)

include hhigh hu₂ hu₃ hstops hpercent halone

/-- A range where no operand ends. -/
theorem find_range (hlow : IsNegatable low) (hends : RangeToken.endsOperand before = false) :
    ∃ text, RangeToken.find before
        (low ++ (percentChars p ++ (u₂ ++ '~' :: (u₃ ++ (high ++ (percentChars q ++ rest)))))) =
      some (⟨none, ⟨text, low, high, p, q⟩⟩, rest) := by
  obtain ⟨htilde, hnone⟩ := tilde_spec (u₃ ++ (high ++ (percentChars q ++ rest))) hu₂
  obtain ⟨c, tail, hcs, -⟩ := hlow.head
  simp only [RangeToken.find, bind, guard_true halone, Option.bind_some,
    signed?_append hlow (stops_percentChars p htilde), percentSign_percentChars p hnone,
    skipBlanks_append hu₂ (show isBlank '~' = false by decide), expect?_cons, skipBlanks_negatable hu₃ hhigh,
    signed?_append hhigh (stops_percentChars q hstops), percentSign_percentChars q hpercent, hends]
  rw [hcs]
  exact ⟨_, if_neg (by simp)⟩

/-- A range behind a plus that joins it to an operand. -/
theorem find_range_plus (hn : IsNumeral n) (hends : RangeToken.endsOperand before = true) :
    ∃ text, RangeToken.find before
        ('+' :: (n ++ (percentChars p ++ (u₂ ++ '~' :: (u₃ ++ (high ++ (percentChars q ++ rest))))))) =
      some (⟨some '+', ⟨text, n, high, p, q⟩⟩, rest) := by
  obtain ⟨htilde, hnone⟩ := tilde_spec (u₃ ++ (high ++ (percentChars q ++ rest))) hu₂
  simp only [RangeToken.find, bind, guard_true halone, Option.bind_some,
    signed?_plus hn (stops_percentChars p htilde), percentSign_percentChars p hnone,
    skipBlanks_append hu₂ (show isBlank '~' = false by decide), expect?_cons, skipBlanks_negatable hu₃ hhigh,
    signed?_append hhigh (stops_percentChars q hstops), percentSign_percentChars q hpercent, hends]
  exact ⟨_, if_pos (by simp)⟩

end

end RangeCalc.Shorthand
