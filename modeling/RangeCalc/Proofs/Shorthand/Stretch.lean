import RangeCalc.Proofs.Range.Bound
import RangeCalc.Proofs.Range.Normal
import RangeCalc.Proofs.Shorthand.Spacing
import RangeCalc.Proofs.Text.Stretch

/-!
# Texts that shorthand leaves

Every rule that starts with a numeral tells from what stands behind the numeral whether it applies. So a
stretch of text is left if no digit of it stands before such a text.

* `Stops`: what ends a numeral; `negatable?_append`, `signed?_append`: numerals are read up to there;
* `FindsNumeral`: rules that start with a numeral, and `FindsNumeral.nothingIn`: what they leave;
* `noneFollows_continues`, `noneFollows_percentages`: digits before no mark, and in two percentages with a tilde;
* `replaceEach_thousands`, `nothingIn_shared`, `replaceEach_timesSign`: what the other rules leave;
* `insertProducts_of_noneFollows`: where no product sign is missing.
-/

namespace RangeCalc.Shorthand

open Text

/-! ## Ends of numerals -/

/-- A text that does not go on with more of a numeral. -/
def Stops (rest : List Char) : Prop :=
  ∀ c, rest.head? = some c → ¬ (isDigit c = true ∨ c = '.')

variable {cs n bs rest : List Char} {c : Char}

theorem stops_cons (hc : isDigit c = false ∧ c ≠ '.') (rest : List Char) : Stops (c :: rest) := by
  rintro d hd
  obtain rfl : c = d := by simpa using hd
  simp [hc]

theorem stops_nil : Stops [] := nofun

theorem stops_blanks (hbs : ∀ b ∈ bs, isBlank b = true) (hrest : Stops rest) : Stops (bs ++ rest) := by
  rcases bs with - | ⟨b, bs⟩
  · exact hrest
  · have hb := not_digit_of_isBlank (hbs b List.mem_cons_self)
    exact stops_cons ⟨Bool.of_not_eq_true fun h => hb (.inl h), fun h => hb (.inr h)⟩ _

/-- The last character of a numeral is a digit. -/
theorem IsNumeral.last (hn : IsNumeral n) : ∃ init d, n = init ++ [d] ∧ isDigit d = true := by
  obtain ⟨init, d, rfl, hd | rfl⟩ := (IsFactor.numeral hn).last
  · exact ⟨init, d, rfl, hd⟩
  · exact absurd (hn.mem (List.mem_append_right init (List.mem_singleton_self _))) (by decide)

theorem numeral?_append (hn : IsNumeral n) (hrest : Stops rest) : numeral? (n ++ rest) = some (n, rest) :=
  readsFront_numeral?.eq_some_iff.mpr (hn.front hrest)

theorem negatable?_append (h : IsNegatable cs) (hrest : Stops rest) :
    negatable? (cs ++ rest) = some (cs, rest) := by
  obtain ⟨sign, n, rfl | rfl, hn, rfl⟩ := h
  · rw [negatable?_eq_numeral?, numeral?_append hn hrest]
    rintro tail heq
    obtain ⟨d, digits, rfl, hd⟩ := hn.head
    rw [(List.cons.inj heq).1] at hd
    exact absurd hd (by decide)
  · rw [List.append_assoc, List.singleton_append, negatable?, numeral?_append hn hrest]
    rfl

theorem signed?_append (h : IsNegatable cs) (hrest : Stops rest) : signed? (cs ++ rest) = some (cs, rest) := by
  obtain ⟨sign, n, rfl | rfl, hn, rfl⟩ := h
  · obtain ⟨d, digits, rfl, hd⟩ := hn.head
    rw [List.cons_append, signed?_digit hd, ← List.cons_append, numeral?_append hn hrest]
  · rw [List.append_assoc, List.singleton_append, signed?, numeral?_append hn hrest]
    rfl

theorem signed?_plus (hn : IsNumeral n) (hrest : Stops rest) :
    signed? ('+' :: (n ++ rest)) = some ('+' :: n, rest) := by
  rw [signed?, numeral?_append hn hrest]
  rfl

theorem IsNegatable.head (h : IsNegatable cs) : ∃ c tail, cs = c :: tail ∧ isBlank c = false := by
  obtain ⟨sign, n, rfl | rfl, hn, rfl⟩ := h
  · obtain ⟨d, tail, rfl, hd⟩ := hn.head
    exact ⟨d, tail, rfl, Bool.of_not_eq_true fun hblank => not_digit_of_isBlank hblank (.inl hd)⟩
  · exact ⟨'-', n, rfl, by decide⟩

theorem skipBlanks_negatable (hbs : ∀ b ∈ bs, isBlank b = true) (h : IsNegatable cs) (rest : List Char) :
    skipBlanks (bs ++ (cs ++ rest)) = cs ++ rest := by
  obtain ⟨c, tail, rfl, hc⟩ := h.head
  exact skipBlanks_append hbs hc

/-! ## Rules that start with a numeral -/

section

variable {α : Type} {find : Finder α} {After : List Char → Prop} {before front : List Char}

/-- A finder recognises nothing but texts that start with a numeral, perhaps signed, and go on in a certain
way. -/
structure FindsNumeral (find : Finder α) (After : List Char → Prop) : Prop where
  eq_some : ∀ {before text a after}, find before text = some (a, after) →
    ∃ sign n rest, IsSign sign ∧ IsNumeral n ∧ text = sign ++ (n ++ rest) ∧ After rest
  stops : ∀ {rest}, After rest → Stops rest

/-- The characters of numerals and signs. -/
def IsBoundChar (c : Char) : Prop :=
  isDigit c = true ∨ c ∈ ['.', '+', '-']

/-- A stretch is left if no digit of it stands before a text that goes on so, and no numeral reaches out of
it. -/
theorem FindsNumeral.nothingIn (h : FindsNumeral find After)
    (hfront : NoneFollows (isDigit · = true) After front rest)
    (hlast : rest = [] ∨ ∀ c, front.getLast? = some c → ¬ IsBoundChar c) : NothingIn find before front rest := by
  rintro x y rfl hne
  refine Option.eq_none_iff_forall_not_mem.mpr ?_
  rintro ⟨a, after⟩ hsome
  obtain ⟨sign, n, tail, hsign, hn, htext, hafter⟩ := h.eq_some hsome
  obtain ⟨init, d, rfl, hd⟩ := hn.last
  rw [show sign ++ (init ++ [d] ++ tail) = (sign ++ init ++ [d]) ++ tail by simp] at htext
  rcases List.append_eq_append_iff.mp htext with ⟨z, hz, hrest⟩ | ⟨z, rfl, rfl⟩
  · -- The numeral ends behind the stretch, so the last character of the stretch is part of it.
    rcases eq_or_ne z [] with rfl | hzne
    · rw [List.append_nil] at hz
      obtain rfl : rest = tail := by simpa using hrest
      refine hfront (x ++ (sign ++ init)) d [] (by simp [← hz]) hd ?_
      rwa [List.nil_append]
    · obtain ⟨init', l, rfl⟩ : ∃ init' l, y = init' ++ [l] :=
        ⟨_, _, (List.dropLast_append_getLast hne).symm⟩
      rcases hlast with rfl | hlast
      · exact hzne (List.append_eq_nil_iff.mp hrest.symm).1
      · refine hlast l (by simp) ?_
        have hmem : l ∈ sign ++ (init ++ [d]) := by
          rw [← List.append_assoc, hz]
          simp
        rcases List.mem_append.mp hmem with hmem | hmem
        · rcases hsign with rfl | rfl | rfl
          · cases hmem
          · exact .inr (by simp_all)
          · exact .inr (by simp_all)
        · exact (hn.mem hmem).imp_right fun heq => by simp [heq]
  · refine hfront (x ++ (sign ++ init)) d z (by simp) hd hafter

/-- A stretch without characters of numerals and signs is left. -/
theorem FindsNumeral.nothingIn_of_not (h : FindsNumeral find After) (hfront : ∀ c ∈ front, ¬ IsBoundChar c) :
    NothingIn find before front rest :=
  h.nothingIn (noneFollows_of_not fun c hc hd => hfront c hc (.inl hd))
    (.inr fun c hc => hfront c (List.mem_of_getLast? hc))

theorem not_isBoundChar_of_isBlank {c : Char} (hc : isBlank c = true) : ¬ IsBoundChar c := by
  rintro (hdigit | hmem)
  · exact not_digit_of_isBlank hc (.inl hdigit)
  · simp only [List.mem_cons, List.not_mem_nil, or_false] at hmem
    rcases hmem with rfl | rfl | rfl <;> exact absurd hc (by decide)

/-- Nothing but the last character of a numeral stands before what ends it. -/
theorem noneFollows_numeral {D : Char → Prop} (hstops : ∀ {rest}, After rest → Stops rest) (hn : IsNumeral n)
    (hrest : ¬ After rest) : NoneFollows D After n rest := by
  rintro x d y rfl - hafter
  rcases y with - | ⟨c, y⟩
  · exact hrest hafter
  · exact hstops hafter c rfl (hn.mem (by simp))

/-- The same with a minus in front, which is not one of the characters in question. -/
theorem noneFollows_negatable {D : Char → Prop} (hstops : ∀ {rest}, After rest → Stops rest) (hminus : ¬ D '-')
    (h : IsNegatable cs) (hrest : ¬ After rest) : NoneFollows D After cs rest := by
  obtain ⟨sign, n, hsign, hn, rfl⟩ := h
  refine .append (noneFollows_of_not ?_) (noneFollows_numeral hstops hn hrest)
  rcases hsign with rfl | rfl
  · exact nofun
  · simpa using hminus

end

theorem IsMinus.isSign {sign : List Char} (h : IsMinus sign) : IsSign sign :=
  h.imp_right .inr

theorem findsNumeral_percent : FindsNumeral percent fun rest => rest.head? = some '%' where
  eq_some {before text out after} h := by
    obtain ⟨-, n, hn, rfl, -⟩ := percent_eq_some h
    exact ⟨[], n, '%' :: after, .inl rfl, hn, rfl, rfl⟩
  stops {rest} h c hc := by
    obtain rfl : '%' = c := Option.some.inj (h.symm.trans hc)
    decide

theorem nothingIn_percent_of_not_digit {front : List Char} (h : ∀ c ∈ front, isDigit c = false)
    (before rest : List Char) : NothingIn percent before front rest := by
  rintro x y rfl hne
  refine Option.eq_none_iff_forall_not_mem.mpr ?_
  rintro ⟨out, after⟩ hsome
  obtain ⟨-, n, hn, htext, -⟩ := percent_eq_some hsome
  obtain ⟨d, tail, rfl, hd⟩ := hn.head
  obtain ⟨c, y, rfl⟩ := List.exists_cons_of_ne_nil hne
  obtain ⟨rfl, -⟩ := List.cons.inj htext
  exact Bool.false_ne_true ((h c (by simp)).symm.trans hd)

/-- A percent sign and, behind white space, a hyphen. -/
def PercentHyphen (rest : List Char) : Prop :=
  ∃ tail, rest = '%' :: tail ∧ (skipBlanks tail).head? = some '-'

theorem not_percentHyphen {u : List Char} (hu : ∀ b ∈ u, isBlank b = true) {c : Char} (hblank : isBlank c = false)
    (hc : c ≠ '-') (tail : List Char) : ¬ PercentHyphen ('%' :: (u ++ c :: tail)) := by
  rintro ⟨rest, heq, hhead⟩
  obtain rfl := (List.cons.inj heq).2
  rw [skipBlanks_append hu hblank] at hhead
  exact hc (Option.some.inj hhead)

theorem findsNumeral_percentSpan : FindsNumeral percentSpan PercentHyphen where
  eq_some {before text out after} h := by
    simp only [percentSpan, bind, Option.bind_eq_some_iff] at h
    obtain ⟨⟨low, rest₁⟩, hlow, rest₂, hpercent, rest₃, hminus, -⟩ := h
    obtain ⟨sign, n, hsign, hn, rfl, rfl⟩ := negatable?_eq_some hlow
    obtain rfl := RangeToken.expect?_eq_some hpercent
    refine ⟨sign, n, _, hsign.isSign, hn, rfl, rest₂, rfl, ?_⟩
    rw [RangeToken.expect?_eq_some hminus]
    rfl
  stops {rest} h := by
    obtain ⟨tail, rfl, -⟩ := h
    exact stops_cons (by decide) tail

/-- Two percentages with a tilde between them are no hyphenated ones. -/
theorem noneFollows_percentages {low high u v : List Char} (hlow : IsNegatable low) (hhigh : IsNegatable high)
    (hu : ∀ b ∈ u, isBlank b = true) (hv : ∀ b ∈ v, isBlank b = true) (hlast : ¬ PercentHyphen ('%' :: rest))
    (hrest : NoneFollows (isDigit · = true) PercentHyphen rest []) :
    NoneFollows (isDigit · = true) PercentHyphen
      (low ++ '%' :: (u ++ '~' :: (v ++ (high ++ '%' :: rest)))) [] := by
  have hstops : ∀ {rest}, PercentHyphen rest → Stops rest := findsNumeral_percentSpan.stops
  have hminus : ¬ isDigit '-' = true := by decide
  have hpercent : ¬ isDigit '%' = true := by decide
  have htilde : ¬ isDigit '~' = true := by decide
  have hblank : ∀ {u : List Char}, (∀ b ∈ u, isBlank b = true) → ∀ b ∈ u, ¬ isDigit b = true := fun hu b hb h =>
    not_digit_of_isBlank (hu b hb) (.inl h)
  refine .append (noneFollows_negatable hstops hminus hlow ?_) ?_
  · rw [List.append_nil]
    exact not_percentHyphen hu (by decide) (by decide) _
  refine .cons (fun h => absurd h hpercent) (.append (noneFollows_of_not (hblank hu)) ?_)
  refine .cons (fun h => absurd h htilde) (.append (noneFollows_of_not (hblank hv)) ?_)
  refine .append (noneFollows_negatable hstops hminus hhigh ?_) (.cons (fun h => absurd h hpercent) hrest)
  rwa [List.append_nil]

/-- White space, and then a given character. -/
def Continues (mark : Char) (rest : List Char) : Prop :=
  (skipBlanks rest).head? = some mark

theorem Continues.stops {mark : Char} (hmark : isDigit mark = false ∧ mark ≠ '.') (h : Continues mark rest) :
    Stops rest := by
  obtain ⟨lead, hlead, heq⟩ := skipBlanks_split rest
  obtain ⟨tail, htail⟩ := List.head?_eq_some_iff.mp h
  rw [heq, htail]
  exact stops_blanks hlead (stops_cons hmark tail)

/-- Nothing stands before a character that does not occur. -/
theorem noneFollows_continues {D : Char → Prop} {front : List Char} {mark : Char} (h : mark ∉ front ++ rest) :
    NoneFollows D (Continues mark) front rest := by
  rintro x d y rfl - hcontinues
  obtain ⟨tail, htail⟩ := List.head?_eq_some_iff.mp hcontinues
  have hmem : mark ∈ y ++ rest := (List.dropWhile_sublist _).subset (htail ▸ List.mem_cons_self)
  refine h (List.append_assoc .. ▸ List.mem_append_right x (List.mem_cons_of_mem d hmem))

theorem findsNumeral_applied : FindsNumeral appliedPercent (Continues '(') where
  eq_some {before text out after} h := by
    simp only [appliedPercent, bind, Option.bind_eq_some_iff] at h
    obtain ⟨_, -, ⟨base, rest₁⟩, hbase, rest₂, hopen, -⟩ := h
    obtain ⟨sign, n, hsign, hn, rfl, rfl⟩ := negatable?_eq_some hbase
    refine ⟨sign, n, rest₁, hsign.isSign, hn, rfl, ?_⟩
    rw [Continues, RangeToken.expect?_eq_some hopen]
    rfl
  stops h := h.stops (by decide)

/-- What a range goes on with behind its first numeral. -/
def ContinuesRange (rest : List Char) : Prop :=
  Continues '~' (RangeToken.percentSign rest).2

theorem head_ne_percent {u : List Char} (hu : ∀ b ∈ u, isBlank b = true) {c : Char} (hc : c ≠ '%')
    (tail : List Char) : (u ++ c :: tail).head? ≠ some '%' := by
  cases u with
  | nil => simpa using hc
  | cons b u =>
    intro heq
    obtain rfl : b = '%' := by simpa using heq
    exact absurd (hu _ List.mem_cons_self) (by decide)

/-- Another character than a tilde continues no range. -/
theorem not_continuesRange {u : List Char} (hu : ∀ b ∈ u, isBlank b = true) {c : Char} (hblank : isBlank c = false)
    (hc : c ∉ ['~', '%']) (percent : Bool) (tail : List Char) :
    ¬ ContinuesRange (percentChars percent ++ (u ++ c :: tail)) := by
  simp only [List.mem_cons, List.not_mem_nil, or_false, not_or] at hc
  rw [ContinuesRange, percentSign_percentChars percent (head_ne_percent hu hc.2 tail), Continues,
    skipBlanks_append hu hblank]
  simpa using hc.1

theorem findsNumeral_range : FindsNumeral RangeToken.find ContinuesRange where
  eq_some {before text r after} h := by
    simp only [RangeToken.find, bind, Option.bind_eq_some_iff] at h
    obtain ⟨_, -, ⟨minText, rest₁⟩, hlow, rest₃, htilde, -⟩ := h
    obtain ⟨sign, n, hsign, hn, rfl, rfl⟩ := signed?_eq_some hlow
    refine ⟨sign, n, rest₁, hsign, hn, List.append_assoc .., ?_⟩
    rw [ContinuesRange, Continues, RangeToken.expect?_eq_some htilde]
    rfl
  stops {rest} h := by
    have hstops := Continues.stops (by decide) h
    rw [RangeToken.percentSign_eq rest]
    cases (RangeToken.percentSign rest).1
    · exact hstops
    · exact stops_cons (by decide) _

/-! ## Other rules -/

section

variable {text before front : List Char}

theorem replaceEach_thousands (h : ',' ∉ text) : replaceEach thousands text = text := by
  refine replaceEach_of_free ?_
  rintro pre post rfl hfound
  obtain ⟨-, rest, rfl, -⟩ := found_thousands_iff.mp hfound
  simp at h

theorem replaceEach_timesSign (h : ∀ c ∈ ['x', 'X'], c ∉ text) : replaceEach timesSign text = text := by
  refine replaceEach_of_free ?_
  rintro pre post rfl hfound
  obtain ⟨c, rest, hc, -, -, rfl⟩ := found_timesSign_iff.mp hfound
  exact h c (by simpa using hc) (by simp)

theorem nothingIn_shared (h : '(' ∉ front) (before rest : List Char) :
    NothingIn sharedPercent before front rest := by
  rintro x y rfl hne
  refine Option.eq_none_iff_forall_not_mem.mpr ?_
  rintro ⟨out, after⟩ hsome
  obtain ⟨c, tail, rfl⟩ := List.exists_cons_of_ne_nil hne
  simp only [Option.mem_def, sharedPercent, bind, Option.bind_eq_some_iff] at hsome
  obtain ⟨rest₁, hopen, -⟩ := hsome
  obtain ⟨rfl, -⟩ := List.cons.inj (RangeToken.expect?_eq_some hopen)
  simp at h

/-- White space, and then what a factor may start with. -/
def ContinuesFactor (rest : List Char) : Prop :=
  ∃ c, (skipBlanks rest).head? = some c ∧ StartsFactor c

theorem ContinuesFactor.stops {rest : List Char} (h : ContinuesFactor rest) : Stops rest := by
  obtain ⟨c, hc, hfactor⟩ := h
  refine Continues.stops ⟨hfactor.not_isDigit, ?_⟩ hc
  rintro rfl
  rcases hfactor with h | h <;> exact absurd h (by decide)

/-- A rule that writes product signs finds nothing where no factor stands before another. -/
theorem Multiplies.replaceEach_eq {rule : Finder (List Char)} {Factor : List Char → Prop}
    {alone : List Char → Bool} {Follows : List Char → Prop} (hrule : Multiplies rule Factor alone Follows)
    (h : NoneFollows EndsFactor ContinuesFactor text []) : replaceEach rule text = text := by
  refine replaceEach_of_free ?_
  rintro pre post rfl hfound
  obtain ⟨-, f, bs, rest, hf, hbs, hfollows, rfl⟩ := hrule.exists_of_found hfound
  obtain ⟨init, l, rfl, hl⟩ := (hrule.isFactor hf).last
  obtain ⟨r, tail, rfl, hr⟩ := hrule.starts hfollows
  refine h (pre ++ init) l (bs ++ r :: tail) (by simp) hl ⟨r, ?_, hr⟩
  rw [List.append_nil, skipBlanks_append hbs hr.not_blank]
  rfl

/-- Where no factor stands before another, no product sign is missing. -/
theorem insertProducts_of_noneFollows (h : NoneFollows EndsFactor ContinuesFactor text []) :
    insertProducts text none = text := by
  simp only [insertProducts, multiplies_numberParenthesis.replaceEach_eq h,
    multiplies_parenthesisParenthesis.replaceEach_eq h, multiplies_numberName.replaceEach_eq h,
    multiplies_parenthesisName.replaceEach_eq h]

end

end RangeCalc.Shorthand
