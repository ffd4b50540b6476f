import RangeCalc.Proofs.Range.PercentSpelling
import RangeCalc.Proofs.Range.Phrase

/-!
# Percent ranges beside percentages

    10%~20% + 5%    5% + 10%~20%    10%~20% - 5%    5% - 10%~20%

* `rangeThen`, `thenRange`: the texts;
* `ofText_range_plus`, `ofText_plus_range`: with a plus, the range and the percentage are two operands;
* `ofText_range_minus`, `ofText_minus_range`: with a minus, the percentage and the bound next to it become a
  range, and the tilde is left;
* `compile_percentOperand`: what is compiled from these.
-/

namespace RangeCalc

open Text Shorthand Binary64

/-! ## The texts -/

/-- Two percentages with a tilde between them, and a text behind them. -/
def tildeRange (low high u v rest : List Char) : List Char :=
  low ++ '%' :: (u ++ '~' :: (v ++ (high ++ '%' :: rest)))

/-- An operator and a percentage. -/
def besideRange (op : Char) (w z n : List Char) : List Char :=
  w ++ op :: (z ++ (n ++ ['%']))

/-- A range, an operator and a percentage. -/
def rangeThen (op : Char) (low high n u v w z : List Char) : List Char :=
  tildeRange low high u v (besideRange op w z n)

/-- A percentage, an operator and a range. -/
def thenRange (op : Char) (low high n u v w z : List Char) : List Char :=
  n ++ '%' :: (w ++ op :: (z ++ tildeRange low high u v []))

/-- The characters of ranges and percentages with operators between them. -/
def IsRangeChar (c : Char) : Prop :=
  isDigit c = true ∨ isBlank c = true ∨ c ∈ ['.', '%', '~', '+', '-']

theorem not_isRangeChar : ∀ c ∈ [',', '(', 'x', 'X'], ¬ IsRangeChar c := by
  intro c hc
  simp only [List.mem_cons, List.not_mem_nil, or_false] at hc
  have hnone : ¬ isDigit c = true ∧ ¬ isBlank c = true ∧ c ∉ ['.', '%', '~', '+', '-'] := by
    rcases hc with rfl | rfl | rfl | rfl <;> decide
  exact not_or.mpr ⟨hnone.1, not_or.mpr hnone.2⟩

theorem isRangeChar_numeral {n : List Char} (hn : IsNumeral n) : ∀ c ∈ n, IsRangeChar c := fun _ hc =>
  (hn.mem hc).imp_right fun h => .inr (by simp [h])

theorem isRangeChar_blanks {u : List Char} (hu : ∀ b ∈ u, isBlank b = true) :
    ∀ c ∈ u, IsRangeChar c := fun c hc =>
  .inr (.inl (hu c hc))

theorem isRangeChar_mark : ∀ c ∈ ['.', '%', '~', '+', '-'], IsRangeChar c := fun _ hc =>
  .inr (.inr hc)

variable {low high n u v w z rest : List Char} {op : Char} {token : RangeToken}

/-- Shorthand with neither a comma nor a parenthesis: only the rule for hyphens applies. -/
theorem expand_eq_span {text out : List Char} (h : ∀ c ∈ text, IsRangeChar c)
    (hspan : replaceEach percentSpan text = out) (hout : ∀ c ∈ out, IsRangeChar c) : expand text = out := by
  have hnot : ∀ {text : List Char}, (∀ c ∈ text, IsRangeChar c) → ∀ c ∈ [',', '(', 'x', 'X'], c ∉ text :=
    fun h c hc hmem => not_isRangeChar c hc (h c hmem)
  have hparen : '(' ∉ text := hnot h _ (by decide)
  have happlied : replaceEach appliedPercent text = text :=
    replaceEach_of_nothingIn
      (findsNumeral_applied.nothingIn (noneFollows_continues (by rwa [List.append_nil])) (.inl rfl))
  rw [expand, replaceEach_thousands (hnot h _ (by decide)),
    replaceEach_of_nothingIn (nothingIn_shared hparen [] []), happlied, hspan,
    replaceEach_timesSign fun c hc => hnot hout c (List.mem_append_right [',', '('] hc)]

theorem noneFollows_blanks {After : List Char → Prop} (hu : ∀ b ∈ u, isBlank b = true) :
    NoneFollows (isDigit · = true) After u rest :=
  noneFollows_of_not fun b hb h => not_digit_of_isBlank (hu b hb) (.inl h)

section

variable (hn : IsNumeral n) (hw : ∀ b ∈ w, isBlank b = true) (hz : ∀ b ∈ z, isBlank b = true)

include hn hw hz

theorem isRangeChar_besideRange (hop : op ∈ ['.', '%', '~', '+', '-']) :
    ∀ c ∈ besideRange op w z n, IsRangeChar c := by
  simp only [besideRange, List.forall_mem_append, List.forall_mem_cons]
  exact ⟨isRangeChar_blanks hw, isRangeChar_mark _ hop, isRangeChar_blanks hz, isRangeChar_numeral hn,
    isRangeChar_mark _ (by decide), List.forall_mem_nil _⟩

/-- The digits of an operand stand before nothing that a percent sign at the end does not stand before. -/
theorem noneFollows_besideRange {After : List Char → Prop} (hop : ¬ isDigit op = true)
    (hstops : ∀ {rest}, After rest → Stops rest) (hlast : ¬ After ['%']) :
    NoneFollows (isDigit · = true) After (besideRange op w z n) [] := by
  refine .append (noneFollows_blanks hw) (.cons (fun h => absurd h hop) ?_)
  refine .append (noneFollows_blanks hz) (.append (noneFollows_numeral hstops hn hlast) ?_)
  exact .cons (fun h => absurd h (by decide)) noneFollows_nil

end

section

variable (hlow : IsNumeral low) (hhigh : IsNumeral high) (hu : ∀ b ∈ u, isBlank b = true)
  (hv : ∀ b ∈ v, isBlank b = true)

include hlow hhigh hu hv

theorem isRangeChar_tildeRange (hrest : ∀ c ∈ rest, IsRangeChar c) :
    ∀ c ∈ tildeRange low high u v rest, IsRangeChar c := by
  have hpercent : IsRangeChar '%' := isRangeChar_mark _ (by decide)
  simp only [tildeRange, List.forall_mem_append, List.forall_mem_cons]
  exact ⟨isRangeChar_numeral hlow, hpercent, isRangeChar_blanks hu, isRangeChar_mark _ (by decide),
    isRangeChar_blanks hv, isRangeChar_numeral hhigh, hpercent, hrest⟩

/-- A range at the front of a text. -/
theorem substituteRanges_tildeRange (hstops : Stops rest) (hpercent : rest.head? ≠ some '%')
    (hnone : ∀ before, NothingIn RangeToken.find before rest []) :
    substituteRanges (fun _ token => samplingCall token) (tildeRange low high u v rest) =
      percentCall low high ++ rest := by
  obtain ⟨text, hfind⟩ := find_range hhigh.isNegatable hu hv hstops hpercent
    (show standsAlone [] = true from rfl) true true hlow.isNegatable rfl
  exact substituteRanges_occurrence [] nothingIn_nil hfind hnone

end

theorem not_percentHyphen_last : ¬ PercentHyphen ['%'] := by
  rintro ⟨tail, heq, hhead⟩
  obtain ⟨-, rfl⟩ := List.cons.inj heq
  cases hhead

/-- Nothing starts in a percentage behind which no rule goes on. -/
theorem nothingIn_percentage {α : Type} {find : Finder α} {After : List Char → Prop}
    (h : FindsNumeral find After) (hn : IsNumeral n) (hrest : ¬ After ('%' :: rest)) (before : List Char) :
    NothingIn find before (n ++ ['%']) rest := by
  have hpercent : ¬ isDigit '%' = true := by decide
  refine h.nothingIn (.append (noneFollows_numeral h.stops hn hrest) (.cons (fun hd => absurd hd hpercent)
    noneFollows_nil)) (.inr fun c hc => ?_)
  rw [List.getLast?_concat] at hc
  obtain rfl : '%' = c := Option.some.inj hc
  exact not_or.mpr ⟨hpercent, by decide⟩

/-! ## The last steps -/

/-- No product sign is missing in a percentage that has been written out. -/
theorem noneFollows_quotient (hn : IsNumeral n) (hrest : ¬ ContinuesFactor rest) :
    NoneFollows EndsFactor ContinuesFactor (quotientChars n) rest := by
  have hnone := List.forall_mem_nil fun b => isBlank b = true
  have hslash : ¬ EndsFactor '/' := not_or.mpr ⟨by decide, by decide⟩
  have hopen : ¬ EndsFactor '(' := StartsFactor.not_endsFactor (.inl rfl)
  have hhundred : IsNumeral ['1', '0', '0'] := isNumeral_of_isDigit (by decide) (by decide)
  have hbefore : ∀ rest, ¬ ContinuesFactor ('/' :: rest) := not_continuesFactor hnone (by decide) (by decide)
  have hbehind : ∀ rest, ¬ ContinuesFactor (')' :: rest) := not_continuesFactor hnone (by decide) (by decide)
  show NoneFollows _ _ ('(' :: (n ++ '/' :: (['1', '0', '0'] ++ [')']))) rest
  refine .cons (fun h => absurd h hopen) (.append (noneFollows_numeral ContinuesFactor.stops hn (hbefore _)) ?_)
  refine .cons (fun h => absurd h hslash)
    (.append (noneFollows_numeral ContinuesFactor.stops hhundred (hbehind _)) ?_)
  exact .cons (fun _ => hrest) noneFollows_nil

theorem quotient_not_blank (hn : IsNumeral n) : ∀ c ∈ quotientChars n, isBlank c = false := by
  have hend : ['/', '1', '0', '0', ')'].all (!isBlank ·) = true := by decide
  show ∀ c ∈ '(' :: (n ++ ['/', '1', '0', '0', ')']), isBlank c = false
  refine List.forall_mem_cons.mpr
    ⟨by decide, List.forall_mem_append.mpr ⟨hn.isNegatable.not_blank, fun c hc => ?_⟩⟩
  simpa using List.all_eq_true.mp hend c hc

/-- The last character of a call. -/
theorem getLast?_call : (samplingCall token).getLast? = some ')' := by
  obtain ⟨opening, closing, heq, -⟩ := samplingCall_split token
  rw [heq, List.getLast?_concat]

/-- The marks that are left between a range and a percentage. -/
theorem mark_spec (hop : op ∈ ['~', '+']) :
    isDigit op = false ∧ op ≠ '%' ∧ isBlank op = false ∧ (op == '(' || isNameStart op) = false ∧ op ≠ ')' ∧
      StandsAside op := by
  simp only [List.mem_cons, List.not_mem_nil, or_false] at hop
  rcases hop with rfl | rfl
  · exact ⟨by decide, by decide, by decide, by decide, by decide, standsAside_mark (.inl rfl)⟩
  · exact ⟨by decide, by decide, by decide, by decide, by decide, standsAside_plus⟩

section

variable (hop : op ∈ ['~', '+']) (hw : ∀ b ∈ w, isBlank b = true) (hz : ∀ b ∈ z, isBlank b = true)

include hop hw hz

/-- No product sign is missing between two operands with a mark between them. -/
theorem noneFollows_between {x y : List Char}
    (hx : ∀ rest, ¬ ContinuesFactor rest → NoneFollows EndsFactor ContinuesFactor x rest)
    (hy : ∀ rest, ¬ ContinuesFactor rest → NoneFollows EndsFactor ContinuesFactor y rest) :
    NoneFollows EndsFactor ContinuesFactor (x ++ (w ++ op :: (z ++ y))) [] := by
  obtain ⟨hdigit, -, hblank, hstarts, hclose, -⟩ := mark_spec hop
  have hnot : ∀ {u : List Char}, (∀ b ∈ u, isBlank b = true) → ∀ b ∈ u, ¬ EndsFactor b := fun hu b hb =>
    not_endsFactor_of_isBlank (hu b hb)
  have hends : ¬ EndsFactor op := not_or.mpr ⟨by simp [hdigit], hclose⟩
  have hnil : ¬ ContinuesFactor [] := by
    rintro ⟨c, hc, -⟩
    cases hc
  refine .append (hx _ ?_) (.append (noneFollows_of_not (hnot hw)) (.cons (fun h => absurd h hends)
    (.append (noneFollows_of_not (hnot hz)) (hy [] hnil))))
  rw [List.append_nil]
  exact not_continuesFactor hw hblank hstarts _

variable (hn : IsNumeral n)

include hn

theorem replaceEach_percent_besideRange :
    replaceEach percent (samplingCall token ++ besideRange op w z n) =
      samplingCall token ++ (w ++ op :: (z ++ quotientChars n)) := by
  obtain ⟨hdigit, hmark, -, -, -, haside⟩ := mark_spec hop
  have hblank : ∀ {u : List Char}, (∀ b ∈ u, isBlank b = true) → ∀ b ∈ u, isDigit b = false := fun hu b hb =>
    Bool.of_not_eq_true fun h => not_digit_of_isBlank (hu b hb) (.inl h)
  have hpercent : '%' ∉ samplingCall token := not_mem_samplingCall (by decide) (by decide) (by decide) token
  have hcall : ∀ rest, rest.head? ≠ some '%' → NothingIn percent [] (samplingCall token) rest := by
    intro rest hrest
    refine findsNumeral_percent.nothingIn (noneFollows_head hpercent hrest) (.inr fun c hc => ?_)
    rw [getLast?_call] at hc
    obtain rfl : ')' = c := Option.some.inj hc
    exact not_or.mpr ⟨by decide, by decide⟩
  have hmiddle : ∀ c ∈ w ++ op :: z, isDigit c = false :=
    List.forall_mem_append.mpr ⟨hblank hw, List.forall_mem_cons.mpr ⟨hdigit, hblank hz⟩⟩
  have hhead : (w ++ op :: z ++ (n ++ ['%'])).head? ≠ some '%' := by
    rw [List.append_assoc, List.cons_append]
    exact head_ne_percent hw hmark _
  have hfound := replaceEach_occurrence (samplingCall token ++ (w ++ op :: z)) percent_covers
    (nothingIn_append (hcall _ hhead) (nothingIn_percent_of_not_digit hmiddle _ _))
    (percent_numeral hn (by rw [← List.append_assoc]; exact standsAlone_behind hz haside _) [])
    fun _ => nothingIn_nil
  simpa [besideRange, quotientChars] using hfound

/-- A call with a mark and a percentage behind it. -/
theorem finish_besideRange :
    finish (samplingCall token ++ besideRange op w z n) none =
      samplingCall token ++ (gap w ++ op :: (gap z ++ quotientChars n)) := by
  obtain ⟨-, -, hblank, -⟩ := mark_spec hop
  have hquotient : singleSpaced (z ++ quotientChars n) = gap z ++ quotientChars n := by
    have hword := singleSpaced_gap_word hz (List.cons_ne_nil _ _) (quotient_not_blank hn) []
    rwa [List.append_nil, singleSpaced, List.append_nil] at hword
  rw [finish_eq (replaceEach_percent_besideRange hop hw hz hn)
    (noneFollows_between hop hw hz (fun _ => noneFollows_call) fun _ => noneFollows_quotient hn), skipBlanks_call,
    singleSpaced_call, singleSpaced_gap hw hblank, hquotient]

/-- A percentage with a mark and a call behind it. -/
theorem finish_percentage_call :
    finish (n ++ '%' :: (w ++ op :: (z ++ samplingCall token))) none =
      quotientChars n ++ (gap w ++ op :: (gap z ++ samplingCall token)) := by
  obtain ⟨-, hmark, hblank, -⟩ := mark_spec hop
  have hpercent : '%' ∉ samplingCall token := not_mem_samplingCall (by decide) (by decide) (by decide) token
  have hspace : ∀ {u : List Char}, (∀ b ∈ u, isBlank b = true) → '%' ∉ u := fun hu h => absurd (hu _ h) (by decide)
  have hrest : '%' ∉ w ++ op :: (z ++ samplingCall token) := by
    simp only [List.mem_append, List.mem_cons, not_or]
    exact ⟨hspace hw, hmark.symm, hspace hz, hpercent⟩
  have hfound : replaceEach percent (n ++ '%' :: (w ++ op :: (z ++ samplingCall token))) =
      quotientChars n ++ (w ++ op :: (z ++ samplingCall token)) :=
    replaceEach_occurrence [] percent_covers nothingIn_nil (percent_numeral hn rfl _) fun _ =>
      findsNumeral_percent.nothingIn (noneFollows_head hrest nofun) (.inl rfl)
  have hcall : singleSpaced (z ++ samplingCall token) = gap z ++ samplingCall token := by
    have hgap : singleSpaced (z ++ (samplingCall token ++ [])) = gap z ++ (samplingCall token ++ singleSpaced []) :=
      singleSpaced_gap_call hz []
    rwa [List.append_nil, singleSpaced, List.append_nil] at hgap
  have hskip : ∀ rest, skipBlanks (quotientChars n ++ rest) = quotientChars n ++ rest := fun rest =>
    skipBlanks_char (by decide) _
  rw [finish_eq hfound
    (noneFollows_between hop hw hz (fun _ => noneFollows_quotient hn) fun _ => noneFollows_call), hskip,
    singleSpaced_word (quotient_not_blank hn), singleSpaced_gap hw hblank, hcall]

end

/-! ## A plus before a range -/

/-- Nothing starts in a percentage before a plus. -/
theorem nothingIn_percentage_plus (hn : IsNumeral n) (hw : ∀ b ∈ w, isBlank b = true) (rest : List Char) :
    NothingIn RangeToken.find [] (n ++ '%' :: w) ('+' :: rest) := by
  have hoperand : NothingIn RangeToken.find [] (n ++ ['%']) (w ++ '+' :: rest) :=
    nothingIn_percentage findsNumeral_range hn (not_continuesRange hw (by decide) (by decide) true _) []
  have hstretch := nothingIn_append hoperand
    (findsNumeral_range.nothingIn_of_not fun b hb => not_isBoundChar_of_isBlank (hw b hb))
  rwa [List.append_assoc] at hstretch

/-- A plus joins nothing if white space stands behind it. -/
theorem nothingIn_plus (hz : ∀ b ∈ z, isBlank b = true) (hne : z ≠ []) (before rest : List Char) :
    NothingIn RangeToken.find before ('+' :: z) rest := by
  refine findsNumeral_range.nothingIn (.cons (fun h => absurd h (by decide)) (noneFollows_blanks hz))
    (.inr fun c hc => ?_)
  rw [← List.singleton_append, List.getLast?_append_of_ne_nil _ hne] at hc
  exact not_isBoundChar_of_isBlank (hz c (List.mem_of_getLast? hc))

section

variable (hlow : IsNumeral low) (hhigh : IsNumeral high) (hn : IsNumeral n)
  (hu : ∀ b ∈ u, isBlank b = true) (hv : ∀ b ∈ v, isBlank b = true) (hw : ∀ b ∈ w, isBlank b = true)

include hlow hhigh hn hu hv hw

/-- A plus right before the range is found with it, and is set apart from its call. -/
theorem substituteRanges_plus_adjacent :
    substituteRanges (fun _ token => samplingCall token) (thenRange '+' low high n u v w []) =
      n ++ '%' :: (w ++ '+' :: ' ' :: percentCall low high) := by
  have hends : RangeToken.endsOperand (n ++ '%' :: w).reverse = true := by
    rw [endsOperand_behind hw (by decide)]
    decide
  obtain ⟨text, hfind⟩ := find_range_plus hhigh.isNegatable hu hv stops_nil nofun
    (standsAlone_behind hw standsAside_percent n) true true hlow hends
  have hranges := substituteRanges_occurrence _ (nothingIn_percentage_plus hn hw _) hfind fun _ => nothingIn_nil
  have hcall : rangeCall ⟨some '+', ⟨text, low, high, true, true⟩⟩ = '+' :: ' ' :: percentCall low high := rfl
  rw [hcall] at hranges
  simpa [thenRange, tildeRange, percentChars] using hranges

/-- A plus with white space behind it is left. -/
theorem substituteRanges_plus_apart (hz : ∀ b ∈ z, isBlank b = true) (hne : z ≠ []) :
    substituteRanges (fun _ token => samplingCall token) (thenRange '+' low high n u v w z) =
      n ++ '%' :: (w ++ '+' :: (z ++ percentCall low high)) := by
  have hends : RangeToken.endsOperand (n ++ '%' :: w ++ '+' :: z).reverse = false := by
    rw [endsOperand_behind hz (by decide)]
    decide
  obtain ⟨text, hfind⟩ := find_range hhigh.isNegatable hu hv stops_nil nofun
    (standsAlone_behind hz standsAside_plus (n ++ '%' :: w)) true true hlow.isNegatable hends
  have hfront : ∀ rest, NothingIn RangeToken.find [] (n ++ '%' :: w ++ '+' :: z) rest := fun rest =>
    nothingIn_append (nothingIn_percentage_plus hn hw (z ++ rest)) (nothingIn_plus hz hne _ rest)
  have hranges := substituteRanges_occurrence _ (hfront _) hfind fun _ => nothingIn_nil
  have hcall : rangeCall ⟨none, ⟨text, low, high, true, true⟩⟩ = percentCall low high := rfl
  rw [hcall] at hranges
  simpa [thenRange, tildeRange, percentChars] using hranges

theorem exists_substituteRanges_plus (hz : ∀ b ∈ z, isBlank b = true) :
    ∃ z', (∀ b ∈ z', isBlank b = true) ∧ gap z' = [' '] ∧
      substituteRanges (fun _ token => samplingCall token) (thenRange '+' low high n u v w z) =
        n ++ '%' :: (w ++ '+' :: (z' ++ percentCall low high)) := by
  rcases eq_or_ne z [] with rfl | hne
  · exact ⟨[' '], forall_mem_space, rfl, substituteRanges_plus_adjacent hlow hhigh hn hu hv hw⟩
  · exact ⟨z, hz, if_neg hne, substituteRanges_plus_apart hlow hhigh hn hu hv hw hz hne⟩

end

/-! ## The sampling forms -/

section

variable (hlow : IsNumeral low) (hhigh : IsNumeral high) (hn : IsNumeral n)
  (hu : ∀ b ∈ u, isBlank b = true) (hv : ∀ b ∈ v, isBlank b = true)
  (hw : ∀ b ∈ w, isBlank b = true) (hz : ∀ b ∈ z, isBlank b = true)

include hlow hhigh hn hu hv hw hz

/-- A range with a percentage behind it, in the sampling form. -/
theorem ofText_of_expand {raw : List Char} (hop : op ∈ ['~', '+'])
    (hexpand : expand raw = rangeThen op low high n u v w z) :
    NormalForm.ofText (String.ofList raw) =
      ⟨String.ofList (percentCall low high ++ (gap w ++ op :: (gap z ++ quotientChars n))), true⟩ := by
  obtain ⟨hdigit, hmark, -⟩ := mark_spec hop
  have hpoint : op ≠ '.' := by
    rintro rfl
    exact absurd hop (by decide)
  have hlast : ¬ ContinuesRange ['%'] := nofun
  have hranges : substituteRanges (fun _ token => samplingCall token) (rangeThen op low high n u v w z) =
      percentCall low high ++ besideRange op w z n :=
    substituteRanges_tildeRange hlow hhigh hu hv (stops_blanks hw (stops_cons ⟨hdigit, hpoint⟩ _))
      (head_ne_percent hw hmark _) fun _ => findsNumeral_range.nothingIn
        (noneFollows_besideRange hn hw hz (by simp [hdigit]) findsNumeral_range.stops hlast) (.inl rfl)
  have hfinish : finish (percentCall low high ++ besideRange op w z n) none =
      percentCall low high ++ (gap w ++ op :: (gap z ++ quotientChars n)) := finish_besideRange hop hw hz hn
  rw [NormalForm.ofText_ofList (by rw [hexpand, hranges, hfinish])]
  exact congrArg _ (mentionsSampling_call [] (gap w ++ op :: (gap z ++ quotientChars n)))

/-- With a plus behind it, the range is one operand and the percentage the other. -/
theorem ofText_range_plus :
    NormalForm.ofText (String.ofList (rangeThen '+' low high n u v w z)) =
      ⟨String.ofList (percentCall low high ++ (gap w ++ '+' :: (gap z ++ quotientChars n))), true⟩ := by
  have hchars : ∀ c ∈ rangeThen '+' low high n u v w z, IsRangeChar c :=
    isRangeChar_tildeRange hlow hhigh hu hv (isRangeChar_besideRange hn hw hz (by decide))
  have hrest : NoneFollows (isDigit · = true) PercentHyphen (besideRange '+' w z n) [] :=
    noneFollows_besideRange hn hw hz (by decide) findsNumeral_percentSpan.stops not_percentHyphen_last
  refine ofText_of_expand hlow hhigh hn hu hv hw hz (by decide) (expand_eq_span hchars ?_ hchars)
  exact replaceEach_of_nothingIn (findsNumeral_percentSpan.nothingIn (noneFollows_percentages hlow.isNegatable
    hhigh.isNegatable hu hv (not_percentHyphen hw (by decide) (by decide) _) hrest) (.inl rfl))

/-- With a minus behind it, the second bound becomes a range with the percentage, and the tilde is left. -/
theorem ofText_range_minus :
    NormalForm.ofText (String.ofList (rangeThen '-' low high n u v w z)) =
      ⟨String.ofList (percentCall low high ++ ([' '] ++ '~' :: ([' '] ++ quotientChars n))), true⟩ := by
  have hmiddle : ∀ c ∈ u ++ '~' :: v, ¬ IsBoundChar c :=
    List.forall_mem_append.mpr ⟨fun c hc => not_isBoundChar_of_isBlank (hu c hc), List.forall_mem_cons.mpr
      ⟨not_or.mpr ⟨by decide, by decide⟩, fun c hc => not_isBoundChar_of_isBlank (hv c hc)⟩⟩
  have hlast : ∀ rest, ¬ PercentHyphen ('%' :: (u ++ '~' :: rest)) := not_percentHyphen hu (by decide) (by decide)
  have hfront : ∀ rest, NothingIn percentSpan [] (low ++ ['%'] ++ (u ++ '~' :: v)) rest := fun rest =>
    nothingIn_append (nothingIn_percentage findsNumeral_percentSpan hlow (by simpa using hlast _) [])
      (findsNumeral_percentSpan.nothingIn_of_not hmiddle)
  have hspan : replaceEach percentSpan (rangeThen '-' low high n u v w z) =
      rangeThen '~' low high n u v [' '] [' '] := by
    have hfound := replaceEach_occurrence _ percentRule_span.covers (hfront _)
      (percentSpan_percentages hhigh.isNegatable hn.isNegatable hw hz _ []) fun _ => nothingIn_nil
    simpa [rangeThen, thenRange, tildeRange, besideRange] using hfound
  refine ofText_of_expand hlow hhigh hn hu hv forall_mem_space forall_mem_space (by decide)
    (expand_eq_span ?_ hspan ?_)
  · exact isRangeChar_tildeRange hlow hhigh hu hv (isRangeChar_besideRange hn hw hz (by decide))
  · exact isRangeChar_tildeRange hlow hhigh hu hv
      (isRangeChar_besideRange hn forall_mem_space forall_mem_space (by decide))

theorem isRangeChar_operand_range (hop : op ∈ ['.', '%', '~', '+', '-']) :
    ∀ c ∈ thenRange op low high n u v w z, IsRangeChar c := by
  simp only [thenRange, List.forall_mem_append, List.forall_mem_cons]
  exact ⟨isRangeChar_numeral hn, isRangeChar_mark _ (by decide), isRangeChar_blanks hw, isRangeChar_mark _ hop,
    isRangeChar_blanks hz, isRangeChar_tildeRange hlow hhigh hu hv (List.forall_mem_nil _)⟩

/-- With a minus before it, the first bound becomes a range with the percentage, and the tilde is left. -/
theorem ofText_minus_range :
    NormalForm.ofText (String.ofList (thenRange '-' low high n u v w z)) =
      ⟨String.ofList (percentCall n low ++ (gap u ++ '~' :: (gap v ++ quotientChars high))), true⟩ := by
  have hspan : replaceEach percentSpan (thenRange '-' low high n u v w z) =
      rangeThen '~' n low high [' '] [' '] u v := by
    have hrest : NoneFollows (isDigit · = true) PercentHyphen (besideRange '~' u v high) [] :=
      noneFollows_besideRange hhigh hu hv (by decide) findsNumeral_percentSpan.stops not_percentHyphen_last
    have hfound := replaceEach_occurrence [] percentRule_span.covers nothingIn_nil
      (percentSpan_percentages hn.isNegatable hlow.isNegatable hw hz [] (besideRange '~' u v high)) fun _ =>
        findsNumeral_percentSpan.nothingIn hrest (.inl rfl)
    simpa [rangeThen, thenRange, tildeRange, besideRange] using hfound
  refine ofText_of_expand hn hlow hhigh forall_mem_space forall_mem_space hu hv (by decide)
    (expand_eq_span (isRangeChar_operand_range hlow hhigh hn hu hv hw hz (by decide)) hspan ?_)
  exact isRangeChar_tildeRange hn hlow forall_mem_space forall_mem_space
    (isRangeChar_besideRange hhigh hu hv (by decide))

theorem expand_plus_range : expand (thenRange '+' low high n u v w z) = thenRange '+' low high n u v w z := by
  have hchars := isRangeChar_operand_range hlow hhigh hn hu hv hw hz
    (show '+' ∈ ['.', '%', '~', '+', '-'] by decide)
  have hpercent : ¬ isDigit '%' = true := by decide
  have hplus : ¬ isDigit '+' = true := by decide
  have hrange : NoneFollows (isDigit · = true) PercentHyphen (tildeRange low high u v []) [] :=
    noneFollows_percentages hlow.isNegatable hhigh.isNegatable hu hv not_percentHyphen_last noneFollows_nil
  refine expand_eq_span hchars
    (replaceEach_of_nothingIn (findsNumeral_percentSpan.nothingIn ?_ (.inl rfl))) hchars
  refine .append (noneFollows_numeral findsNumeral_percentSpan.stops hn ?_)
    (.cons (fun h => absurd h hpercent) ?_)
  · rw [List.append_nil]
    exact not_percentHyphen hw (by decide) (by decide) _
  · exact .append (noneFollows_blanks hw)
      (.cons (fun h => absurd h hplus) (.append (noneFollows_blanks hz) hrange))

/-- With a plus before it, the range is one operand and the percentage the other. -/
theorem ofText_plus_range :
    NormalForm.ofText (String.ofList (thenRange '+' low high n u v w z)) =
      ⟨String.ofList (quotientChars n ++ (gap w ++ '+' :: ([' '] ++ percentCall low high))), true⟩ := by
  obtain ⟨z', hz', hgap, hranges⟩ := exists_substituteRanges_plus hlow hhigh hn hu hv hw hz
  have hfinish : finish (n ++ '%' :: (w ++ '+' :: (z' ++ percentCall low high))) none =
      quotientChars n ++ (gap w ++ '+' :: (gap z' ++ percentCall low high)) :=
    finish_percentage_call (by decide) hw hz' hn
  rw [hgap] at hfinish
  rw [NormalForm.ofText_ofList (by rw [expand_plus_range hlow hhigh hn hu hv hw hz, hranges, hfinish])]
  have hmentions : mentionsSampling
      (quotientChars n ++ (gap w ++ ['+', ' ']) ++ (percentCall low high ++ [])) = true :=
    mentionsSampling_call _ []
  refine congrArg _ ?_
  simpa using hmentions

end

/-! ## What is compiled -/

/-- A text with a tilde is no formula. -/
theorem not_compile_of_tilde {text : List Char} (h : '~' ∈ text) (f : Formula Float) :
    compile (String.ofList text) ≠ .ok f := by
  intro hcompile
  obtain ⟨s, hsplits, -⟩ := compile_eq_ok_iff.mp hcompile
  rw [String.toList_ofList] at hsplits
  exact absurd (hsplits.mem_cases h) (by decide)

/-- A call ends with a parenthesis. -/
theorem drawCall_eq (a b : Float) : ∃ x, drawCall a b = x ++ [')'] :=
  ⟨callOpening ++ (plainChars a ++ ',' :: ' ' :: (plainChars b ++ [')'])), by simp [drawCall]⟩

theorem quotientChars_eq (n : List Char) : quotientChars n = '(' :: (n ++ ['/', '1', '0', '0']) ++ [')'] := by
  show '(' :: (n ++ ['/', '1', '0', '0', ')']) = _
  simp

/-- A percent range and a percentage with an operator between them, in both orders. With a plus the two are added.
With a minus the percentage becomes a bound of a range, together with the bound beside it, and the tilde that was
written is left, so that the text is no formula. -/
theorem compile_percentOperand (hlow : IsNumeral low) (hhigh : IsNumeral high) (hn : IsNumeral n)
    (hx : (literalValue low).isFinite = true) (hy : (literalValue high).isFinite = true) :
    ∃ a b, Ascending (literalValue low / 100) (literalValue high / 100) a b ∧
      ∀ u v w z, (∀ c ∈ u ++ (v ++ (w ++ z)), isBlank c = true) →
        compile (NormalForm.ofText (String.ofList (rangeThen '+' low high n u v w z))).expression =
          .ok (.binary .add (.sample (.uniform (.number a) (.number b)))
            (.binary .div (.number (literalValue n)) (.number 100))) ∧
        compile (NormalForm.ofText (String.ofList (thenRange '+' low high n u v w z))).expression =
          .ok (.binary .add (.binary .div (.number (literalValue n)) (.number 100))
            (.sample (.uniform (.number a) (.number b)))) ∧
        NormalForm.ofText (String.ofList (rangeThen '-' low high n u v w z)) =
          ⟨String.ofList (percentCall low high ++ " ~ ".toList ++ quotientChars n), true⟩ ∧
        NormalForm.ofText (String.ofList (thenRange '-' low high n u v w z)) =
          ⟨String.ofList (percentCall n low ++ (gap u ++ '~' :: (gap v ++ quotientChars high))), true⟩ ∧
        ∀ f, compile (NormalForm.ofText (String.ofList (rangeThen '-' low high n u v w z))).expression ≠ .ok f ∧
          compile (NormalForm.ofText (String.ofList (thenRange '-' low high n u v w z))).expression ≠ .ok f := by
  obtain ⟨a, b, hascending, hcall⟩ := percentCall_eq hlow.isNegatable hhigh.isNegatable
    ((numeralValue_numeral hlow).symm ▸ hx) ((numeralValue_numeral hhigh).symm ▸ hy)
  rw [numeralValue_numeral hlow, numeralValue_numeral hhigh] at hascending
  have hbound : ∀ {x}, x = literalValue low / 100 ∨ x = literalValue high / 100 →
      x.isFinite = true ∧ Unsigned x := by
    rintro x (rfl | rfl)
    · exact ⟨(finite_hundredth hx).choose_spec.2.1, unsigned_hundredth hx (unsigned_literalValue low)⟩
    · exact ⟨(finite_hundredth hy).choose_spec.2.1, unsigned_hundredth hy (unsigned_literalValue high)⟩
  obtain ⟨ha, hua⟩ : a.isFinite = true ∧ Unsigned a :=
    hbound (hascending.1.imp And.left And.left)
  obtain ⟨hb, hub⟩ : b.isFinite = true ∧ Unsigned b :=
    hbound (hascending.1.symm.imp And.right And.right)
  have hdraw := splits_drawCall ha hb hua hub
  have hquotient := splits_quotient hn
  have hadmitted := callsAdmitted_drawPhrase a b
  have hadmitted' : (quotientPhrase n).CallsAdmitted := ⟨trivial, trivial⟩
  refine ⟨a, b, hascending, fun u v w z hblank => ?_⟩
  simp only [List.forall_mem_append] at hblank
  obtain ⟨hu, hv, hw, hz⟩ := hblank
  have hminus := ofText_range_minus hlow hhigh hn hu hv hw hz
  have hminus' := ofText_minus_range hlow hhigh hn hu hv hw hz
  rw [← formula_drawPhrase ha hb hua hub, ← formula_quotientPhrase]
  refine ⟨?_, ?_, ?_, hminus', fun f => ⟨?_, ?_⟩⟩
  · obtain ⟨x, hend⟩ := drawCall_eq a b
    rw [ofText_range_plus hlow hhigh hn hu hv hw hz, hcall, hend]
    exact compile_sum (hend ▸ hdraw) hquotient hadmitted hadmitted' w z
  · rw [ofText_plus_range hlow hhigh hn hu hv hw hz, hcall, quotientChars_eq]
    exact compile_sum (quotientChars_eq n ▸ hquotient) hdraw hadmitted' hadmitted w [' ']
  · rw [hminus, List.append_assoc]
    rfl
  · rw [hminus]
    exact not_compile_of_tilde (by simp) f
  · rw [hminus']
    exact not_compile_of_tilde (by simp) f

/-- One and two percent, and three percent. -/
theorem threePercent_compile :
    ∃ a b, Ascending (literalValue ['1'] / 100) (literalValue ['2'] / 100) a b ∧
      compile (NormalForm.ofText (String.ofList (rangeThen '+' ['1'] ['2'] ['3'] [] [] [' '] [' ']))).expression =
        .ok (.binary .add (.sample (.uniform (.number a) (.number b)))
          (.binary .div (.number (literalValue ['3'])) (.number 100))) := by
  have hone : IsNumeral ['1'] := isNumeral_of_isDigit (by decide) (by decide)
  have htwo : IsNumeral ['2'] := isNumeral_of_isDigit (by decide) (by decide)
  have hthree : IsNumeral ['3'] := isNumeral_of_isDigit (by decide) (by decide)
  have hblank : ∀ c ∈ [' ', ' '], isBlank c = true :=
    List.forall_mem_cons.mpr ⟨isBlank_space, forall_mem_space⟩
  obtain ⟨a, b, hascending, hall⟩ :=
    compile_percentOperand hone htwo hthree (by decide) (by decide)
  exact ⟨a, b, hascending, (hall [] [] [' '] [' '] hblank).1⟩

/-- Three percent are not subtracted from a range of one to two percent. -/
theorem threePercent_not_subtracted :
    (NormalForm.ofText "1%~2% - 3%").expression = "sample(uniform(0.01, 0.02)) ~ (3/100)" ∧
      ∀ f, compile (NormalForm.ofText "1%~2% - 3%").expression ≠ .ok f := by
  have htext : (NormalForm.ofText "1%~2% - 3%").expression =
      String.ofList "sample(uniform(0.01, 0.02)) ~ (3/100)".toList := by
    decide +kernel
  rw [htext]
  exact ⟨by decide, not_compile_of_tilde (by decide)⟩

end RangeCalc
