import RangeCalc.Proofs.Range.Call
import RangeCalc.Proofs.Shorthand.PercentRange

/-!
# Spellings of percent ranges

    (10-20%)  (10~20%)  (10%-20%)  (10%~20%)

* `finish_percentRange`: such a text in the sampling form;
* `finish_changedChars`: a number that is changed by it;
* `NormalForm.ofText_percentRange`: the sampling forms are alike but for white space inside the parentheses.
-/

namespace RangeCalc

open Text Shorthand Binary64

variable {low high base : List Char} {x y : Float}

/-- Two numbers in ascending order. -/
def Ascending (x y a b : Float) : Prop :=
  (a = x ∧ b = y ∨ a = y ∧ b = x) ∧ a ≤ b

/-- The call for two percentages. -/
def percentCall (low high : List Char) : List Char :=
  samplingCall ⟨[], low, high, true, true⟩

theorem opening_spec {u : List Char} (hu : ∀ b ∈ u, isBlank b = true) (x : List Char) :
    RangeToken.endsOperand (x ++ '(' :: u).reverse = false ∧ standsAlone (x ++ '(' :: u).reverse = true := by
  refine ⟨?_, standsAlone_behind hu standsAside_paren x⟩
  rw [endsOperand_behind hu (by decide)]
  decide

theorem not_endsFactor_of_isBlank {c : Char} (hc : isBlank c = true) : ¬ EndsFactor c := by
  rintro (hdigit | rfl)
  · exact not_digit_of_isBlank hc (.inl hdigit)
  · exact absurd hc (by decide)

section

variable {u v : List Char} (token : RangeToken) (front : List Char) (hu : ∀ b ∈ u, isBlank b = true)
  (hv : ∀ b ∈ v, isBlank b = true)

include hu hv

/-- Of the last steps only those for white space apply to a call in parentheses. -/
theorem finish_parenthesis (hpercent : '%' ∉ front)
    (hfront : NoneFollows EndsFactor ContinuesFactor front ('(' :: (u ++ (samplingCall token ++ (v ++ [')']))))) :
    finish (front ++ '(' :: (u ++ (samplingCall token ++ (v ++ [')'])))) none =
      singleSpaced (skipBlanks (front ++ '(' :: (u ++ (samplingCall token ++ (v ++ [')']))))) := by
  have hfree : '%' ∉ front ++ '(' :: u ++ (v ++ [')']) := by
    simp only [List.mem_append, List.mem_cons, List.not_mem_nil, or_false, not_or]
    refine ⟨⟨hpercent, by decide, fun h => ?_⟩, fun h => ?_, by decide⟩
    · exact absurd (hu _ h) (by decide)
    · exact absurd (hv _ h) (by decide)
  have hopen : ∀ c ∈ '(' :: u, ¬ EndsFactor c := by
    refine List.forall_mem_cons.mpr ⟨?_, fun c hc => not_endsFactor_of_isBlank (hu c hc)⟩
    exact StartsFactor.not_endsFactor (.inl rfl)
  have hback : NoneFollows EndsFactor ContinuesFactor (v ++ [')']) [] :=
    .append (noneFollows_of_not fun c hc => not_endsFactor_of_isBlank (hv c hc))
      (.cons (fun _ => by rintro ⟨c, hc, -⟩; cases hc) noneFollows_nil)
  have hlast : ¬ ContinuesFactor (v ++ [')']) := not_continuesFactor hv (by decide) (by decide) []
  have hall := finish_call hfree (.append hfront (noneFollows_of_not hopen)) hback hlast
  simpa only [List.append_assoc, List.cons_append] using hall

theorem singleSpaced_parenthesis :
    singleSpaced ('(' :: (u ++ (samplingCall token ++ (v ++ [')'])))) =
      '(' :: (gap u ++ (samplingCall token ++ (gap v ++ [')']))) := by
  rw [singleSpaced_char (by decide), singleSpaced_gap_call hu, singleSpaced_gap hv (by decide)]
  rfl

end

/-- Two percentages in parentheses, in the sampling form. -/
theorem finish_percentRange (hlow : IsNegatable low) (hhigh : IsNegatable high) (s : Spaces) :
    finish (substituteRanges (fun _ token => samplingCall token) (percentRange true '~' low high s)) none =
      '(' :: (gap s.opening ++ (percentCall low high ++ (gap s.closing ++ [')']))) := by
  have hrest : Stops (s.closing ++ [')']) := stops_blanks s.isBlank_closing (stops_cons (by decide) [])
  have hpercent := head_ne_percent s.isBlank_closing (show ')' ≠ '%' by decide) []
  obtain ⟨hends, halone⟩ := opening_spec s.isBlank_opening []
  obtain ⟨text, hfind⟩ := find_range hhigh s.isBlank_left s.isBlank_right hrest hpercent halone true true hlow hends
  have hranges := substituteRanges_occurrence ('(' :: s.opening)
    (findsNumeral_range.nothingIn_of_not (not_isBoundChar_opening s)) hfind
    fun _ => findsNumeral_range.nothingIn_of_not (not_isBoundChar_closing s)
  have hcall : rangeCall ⟨none, ⟨text, low, high, true, true⟩⟩ = percentCall low high := rfl
  have htext : percentRange true '~' low high s = '(' :: s.opening ++ (low ++ (percentChars true ++
      (s.left ++ '~' :: (s.right ++ (high ++ (percentChars true ++ (s.closing ++ [')']))))))) := rfl
  have hfinish := finish_parenthesis ⟨[], low, high, true, true⟩ [] s.isBlank_opening
    s.isBlank_closing List.not_mem_nil noneFollows_nil
  rw [List.nil_append, skipBlanks_char (by decide),
    singleSpaced_parenthesis _ s.isBlank_opening s.isBlank_closing] at hfinish
  rw [htext, hranges, hcall]
  exact hfinish

/-! ## Numbers that are changed by percentages -/

/-- A range between two numbers that have been written out. -/
def plainRange (a b : Float) : RangeToken :=
  ⟨[], plainChars a, plainChars b, false, false⟩

/-- The call for two numbers in ascending order that have been written out. -/
theorem samplingCall_plainRange {a b : Float} (ha : a.isFinite = true) (hb : b.isFinite = true)
    (hab : a ≤ b) : samplingCall (plainRange a b) = drawCall a b := by
  have hlow := alike_plainChars ha
  have hhigh := alike_plainChars hb
  have hfinite := hlow.isFinite_eq.trans ha
  have hfinite' := hhigh.isFinite_eq.trans hb
  have hnot : ¬ numeralValue (plainChars b) < numeralValue (plainChars a) := by
    rw [Alike.lt_iff hhigh hlow, lt_iff_units hb ha]
    exact not_lt.mpr ((le_iff_units ha hb).mp hab)
  have hinterval : (plainRange a b).interval = ⟨numeralValue (plainChars a), numeralValue (plainChars b)⟩ := by
    simp only [RangeToken.interval, RangeToken.min?, RangeToken.max?, plainRange,
      boundValue?_negatable (isNegatable_plainChars ha), boundValue?_negatable (isNegatable_plainChars hb), hfinite,
      hfinite', if_true, Option.getD_some, Interval.ordered]
    exact if_neg hnot
  rw [samplingCall_of_interval hinterval hfinite hfinite', drawCall, drawCall, plainChars_of_alike hlow,
    plainChars_of_alike hhigh]

/-- What stands between a number and the range that it is multiplied by. -/
def timesOpening : List Char :=
  [' ', '*', ' ', '(']

theorem not_of_mem_timesOpening : ∀ c ∈ timesOpening, ¬ IsBoundChar c ∧ ¬ EndsFactor c := by
  intro c hc
  simp only [timesOpening, List.mem_cons, List.not_mem_nil, or_false] at hc
  have hdigit : ¬ isDigit c = true := by rcases hc with rfl | rfl | rfl | rfl <;> decide
  have hmark : c ∉ ['.', '+', '-'] ∧ c ≠ ')' := by rcases hc with rfl | rfl | rfl | rfl <;> decide
  exact ⟨not_or.mpr ⟨hdigit, hmark.1⟩, not_or.mpr ⟨hdigit, hmark.2⟩⟩

section

variable (hbase : IsNegatable base) (hleast : (leastFactor low high).isFinite = true)
  (hgreatest : (greatestFactor low high).isFinite = true)

include hbase hleast hgreatest

theorem substituteRanges_changedChars :
    substituteRanges (fun _ token => samplingCall token) (changedChars base low high) =
      base ++ timesOpening ++
        (samplingCall (plainRange (leastFactor low high) (greatestFactor low high)) ++ [')']) := by
  have hnone := List.forall_mem_nil fun b => isBlank b = true
  have htext : changedChars base low high = base ++ timesOpening ++ (plainChars (leastFactor low high) ++
      (percentChars false ++ ([] ++ '~' :: ([] ++ (plainChars (greatestFactor low high) ++
        (percentChars false ++ [')'])))))) := by
    simp [changedChars, percentChars, timesOpening]
  have hbefore : base ++ timesOpening = base ++ [' ', '*', ' '] ++ ['('] := by simp [timesOpening]
  obtain ⟨hends, halone⟩ := opening_spec hnone (base ++ [' ', '*', ' '])
  rw [← hbefore] at hends halone
  obtain ⟨text, hfind⟩ := find_range (isNegatable_plainChars hgreatest) hnone hnone
    (stops_cons (show isDigit ')' = false ∧ ')' ≠ '.' by decide) []) (by simp) halone false false
    (isNegatable_plainChars hleast) hends
  have hopen := not_of_mem_timesOpening
  have hfront : ∀ rest, NothingIn RangeToken.find [] (base ++ timesOpening) rest := fun rest => by
    refine findsNumeral_range.nothingIn (.append ?_ (noneFollows_of_not fun c hc hd => (hopen c hc).1 (.inl hd)))
      (.inr fun c hc => (hopen c ?_).1)
    · exact noneFollows_negatable findsNumeral_range.stops (by decide) hbase
        (not_continuesRange forall_mem_space (show isBlank '*' = false by decide) (by decide) false _)
    · rw [List.getLast?_append] at hc
      exact List.mem_of_getLast? hc
  have hclose : ∀ c ∈ [')'], ¬ IsBoundChar c :=
    List.forall_mem_singleton.mpr (not_or.mpr ⟨by decide, by decide⟩)
  rw [htext, substituteRanges_occurrence _ (hfront _) hfind fun _ => findsNumeral_range.nothingIn_of_not hclose]
  rfl

/-- A number that is multiplied by a range, in the sampling form. -/
theorem finish_changedChars :
    finish (substituteRanges (fun _ token => samplingCall token) (changedChars base low high)) none =
      base ++ (timesOpening ++
        (samplingCall (plainRange (leastFactor low high) (greatestFactor low high)) ++ [')'])) := by
  have hnone := List.forall_mem_nil fun b => isBlank b = true
  have hstar : isBlank '*' = false := by decide
  have hparen : isBlank '(' = false := by decide
  have hminus : ¬ EndsFactor '-' := not_or.mpr ⟨by decide, by decide⟩
  have hopen : ∀ c ∈ [' ', '*', ' '], ¬ EndsFactor c := fun c hc =>
    (not_of_mem_timesOpening c (List.mem_append_left ['('] hc)).2
  have hpercent : '%' ∉ base ++ [' ', '*', ' '] := by
    simpa using hbase.not_mem (by decide) (by decide)
  have hfinish := finish_parenthesis (plainRange (leastFactor low high) (greatestFactor low high))
    (base ++ [' ', '*', ' ']) hnone hnone hpercent
    (.append (noneFollows_negatable ContinuesFactor.stops hminus hbase
      (not_continuesFactor forall_mem_space hstar (by decide) _)) (noneFollows_of_not hopen))
  have hspaced : ∀ rest, singleSpaced (skipBlanks (base ++ ([' '] ++ '*' :: ([' '] ++ '(' :: rest)))) =
      base ++ (timesOpening ++ singleSpaced rest) := fun rest => by
    rw [← List.nil_append (base ++ _), skipBlanks_negatable hnone hbase, singleSpaced_word hbase.not_blank,
      singleSpaced_gap forall_mem_space hstar, singleSpaced_gap forall_mem_space hparen]
    rfl
  have htext : ∀ call, base ++ timesOpening ++ (call ++ [')']) =
      base ++ [' ', '*', ' '] ++ '(' :: ([] ++ (call ++ ([] ++ [')']))) := by
    simp [timesOpening]
  rw [substituteRanges_changedChars hbase hleast hgreatest, htext, hfinish, List.append_assoc]
  refine (hspaced _).trans ?_
  rw [singleSpaced_gap_call hnone, List.nil_append, singleSpaced_char (by decide)]
  rfl

end

/-! ## The intervals -/

/-- Two percentages denote the interval between their hundredths. -/
theorem percentCall_eq (hlow : IsNegatable low) (hhigh : IsNegatable high)
    (hx : (numeralValue low).isFinite = true) (hy : (numeralValue high).isFinite = true) :
    ∃ a b, Ascending (numeralValue low / 100) (numeralValue high / 100) a b ∧
      percentCall low high = drawCall a b := by
  have hfinite : ∀ {x : Float}, x.isFinite = true → (x / 100).isFinite = true := fun hx =>
    (finite_hundredth hx).choose_spec.2.1
  have hinterval : RangeToken.interval ⟨[], low, high, true, true⟩ =
      .ordered (numeralValue low / 100) (numeralValue high / 100) := by
    simp only [RangeToken.interval, RangeToken.min?, RangeToken.max?, boundValue?_negatable hlow,
      boundValue?_negatable hhigh, hx, hy, if_true, Option.getD_some]
  rcases Interval.ordered_cases (not_isNaN_of_isFinite (hfinite hx)) (not_isNaN_of_isFinite (hfinite hy)) with
    ⟨hcase, hle⟩ | ⟨hcase, hle⟩
  · exact ⟨_, _, ⟨.inl ⟨rfl, rfl⟩, hle⟩,
      samplingCall_of_interval (hinterval.trans hcase) (hfinite hx) (hfinite hy)⟩
  · exact ⟨_, _, ⟨.inr ⟨rfl, rfl⟩, hle⟩,
      samplingCall_of_interval (hinterval.trans hcase) (hfinite hy) (hfinite hx)⟩

/-- The lesser and the greater factor are the two factors in ascending order; of two zeros the first may
stand for both. -/
theorem exists_factors (hx : (numeralValue low).isFinite = true)
    (hy : (numeralValue high).isFinite = true) :
    ∃ a b, Ascending (growthFactor low) (growthFactor high) a b ∧ a.isFinite = true ∧ b.isFinite = true ∧
      leastFactor low high = a ∧ Alike (greatestFactor low high) b := by
  have hlow : (growthFactor low).isFinite = true := isFinite_growth hx
  have hhigh : (growthFactor high).isFinite = true := isFinite_growth hy
  have hless := lt_iff_units hlow hhigh
  have hgreater := lt_iff_units hhigh hlow
  rcases lt_trichotomy (units (growthFactor low)) (units (growthFactor high)) with h | h | h
  · refine ⟨_, _, ⟨.inl ⟨rfl, rfl⟩, (le_iff_units hlow hhigh).mpr h.le⟩, hlow, hhigh, ?_, ?_⟩
    · exact if_neg fun hlt => (hgreater.mp hlt).asymm h
    · rw [greatestFactor, if_pos (hless.mpr h)]
  · refine ⟨_, _, ⟨.inl ⟨rfl, rfl⟩, (le_iff_units hlow hhigh).mpr h.le⟩, hlow, hhigh, ?_, ?_⟩
    · exact if_neg fun hlt => (hgreater.mp hlt).ne' h
    · rw [greatestFactor, if_neg fun hlt => (hless.mp hlt).ne h]
      exact (alike_iff_units hlow hhigh).mpr h
  · refine ⟨_, _, ⟨.inr ⟨rfl, rfl⟩, (le_iff_units hhigh hlow).mpr h.le⟩, hhigh, hlow, ?_, ?_⟩
    · exact if_pos (hgreater.mpr h)
    · rw [greatestFactor, if_neg fun hlt => (hless.mp hlt).asymm h]

theorem changedCall_eq (hx : (numeralValue low).isFinite = true) (hy : (numeralValue high).isFinite = true) :
    ∃ a b, Ascending (growthFactor low) (growthFactor high) a b ∧ (leastFactor low high).isFinite = true ∧
      (greatestFactor low high).isFinite = true ∧
      samplingCall (plainRange (leastFactor low high) (greatestFactor low high)) = drawCall a b := by
  obtain ⟨a, b, ⟨hcases, hle⟩, ha, hb, rfl, halike⟩ := exists_factors hx hy
  have hfinite : (greatestFactor low high).isFinite = true := halike.isFinite_eq.trans hb
  have hascending : leastFactor low high ≤ greatestFactor low high := by
    rw [le_iff_units ha hfinite, halike.units_eq]
    exact (le_iff_units ha hb).mp hle
  refine ⟨_, b, ⟨hcases, hle⟩, ha, hfinite, ?_⟩
  rw [samplingCall_plainRange ha hfinite hascending, drawCall, drawCall, plainChars_of_alike halike]

namespace NormalForm

theorem ofText_ofList {raw text : List Char}
    (h : finish (substituteRanges (fun _ token => samplingCall token) (expand raw)) none = text) :
    ofText (String.ofList raw) = ⟨String.ofList text, mentionsSampling text⟩ := by
  rw [ofText, String.toList_ofList, h]

/-- Percent ranges in all spellings. Without a number in front, white space inside the parentheses is kept, as
one blank, where both percentages have a sign; with a number in front, nothing is kept of the spelling. -/
theorem ofText_percentRange (hlow : IsNegatable low) (hhigh : IsNegatable high) (hbase : IsNegatable base) :
    (∀ own mark (s : Spaces), IsSeparator mark →
      ofText (String.ofList (percentRange own mark low high s)) =
        ⟨String.ofList ('(' :: (gap (kept own s.opening) ++
          (percentCall low high ++ (gap (kept own s.closing) ++ [')'])))), true⟩) ∧
    (∀ own mark (s : Spaces) u₀, IsSeparator mark → (∀ b ∈ u₀, isBlank b = true) →
      ofText (String.ofList (base ++ (u₀ ++ percentRange own mark low high s))) =
        ofText (String.ofList (changedChars base low high))) ∧
    ((numeralValue low).isFinite = true → (numeralValue high).isFinite = true →
      (∃ a b, Ascending (numeralValue low / 100) (numeralValue high / 100) a b ∧
        percentCall low high = drawCall a b) ∧
      ∃ a b, Ascending (1 + numeralValue low / 100) (1 + numeralValue high / 100) a b ∧
        ofText (String.ofList (changedChars base low high)) =
          ⟨String.ofList (base ++ (" * (".toList ++ (drawCall a b ++ [')']))), true⟩) := by
  refine ⟨fun own mark s hmark => ?_, fun own mark s u₀ hmark hu₀ => ?_, fun hx hy => ⟨?_, ?_⟩⟩
  · obtain ⟨s', hopening, hclosing, hexpand⟩ := expand_percentRange hlow hhigh hmark
    have hfinish := finish_percentRange hlow hhigh s'
    rw [← hexpand, hopening, hclosing] at hfinish
    rw [ofText_ofList hfinish]
    exact congrArg _
      (mentionsSampling_call ('(' :: gap (kept own s.opening)) (gap (kept own s.closing) ++ [')']))
  · have hsame : expand (base ++ (u₀ ++ percentRange own mark low high s)) =
        expand (changedChars base low high) :=
      (expand_changed hbase hlow hhigh hmark hu₀).trans (expand_changedChars hbase).symm
    rw [ofText_ofList rfl, ofText_ofList rfl, hsame]
  · exact percentCall_eq hlow hhigh hx hy
  · obtain ⟨a, b, hascending, hleast, hgreatest, hcall⟩ := changedCall_eq hx hy
    have hfinish := finish_changedChars hbase hleast hgreatest
    rw [← expand_changedChars hbase] at hfinish
    have hmentions : mentionsSampling (base ++ timesOpening ++
        (samplingCall (plainRange (leastFactor low high) (greatestFactor low high)) ++ [')'])) = true :=
      mentionsSampling_call (base ++ timesOpening) [')']
    rw [List.append_assoc] at hmentions
    rw [hcall] at hfinish hmentions
    refine ⟨a, b, hascending, ?_⟩
    rw [ofText_ofList hfinish, hmentions]
    rfl

/-- Five, and percentages of ten and twenty behind it, in two spellings. -/
theorem five_percentRange :
    (IsNegatable ['1', '0'] ∧ IsNegatable ['2', '0'] ∧ IsNegatable ['5']) ∧
      (numeralValue ['1', '0']).isFinite = true ∧ (numeralValue ['2', '0']).isFinite = true ∧
      ofText (String.ofList (['5'] ++ ([' '] ++ percentRange false '~' ['1', '0'] ['2', '0'] .shared))) =
        ofText (String.ofList (['5'] ++ ([] ++ percentRange true '-' ['1', '0'] ['2', '0'] .shared))) ∧
      ∃ a b, Ascending (1 + numeralValue ['1', '0'] / 100) (1 + numeralValue ['2', '0'] / 100) a b ∧
        ofText (String.ofList (changedChars ['5'] ['1', '0'] ['2', '0'])) =
          ⟨String.ofList (['5'] ++ (" * (".toList ++ (drawCall a b ++ [')']))), true⟩ := by
  have hten : IsNegatable ['1', '0'] := (isNumeral_of_isDigit (by decide) (by decide)).isNegatable
  have htwenty : IsNegatable ['2', '0'] := (isNumeral_of_isDigit (by decide) (by decide)).isNegatable
  have hfive : IsNegatable ['5'] := (isNumeral_of_isDigit (by decide) (by decide)).isNegatable
  obtain ⟨-, hsame, hvalues⟩ := ofText_percentRange hten htwenty hfive
  have hx : (numeralValue ['1', '0']).isFinite = true := by decide
  have hy : (numeralValue ['2', '0']).isFinite = true := by decide
  refine ⟨⟨hten, htwenty, hfive⟩, hx, hy, ?_, (hvalues hx hy).2⟩
  exact (hsame false '~' .shared [' '] (.inl rfl) forall_mem_space).trans
    (hsame true '-' .shared [] (.inr rfl) (List.forall_mem_nil _)).symm

/-- White space is not kept alike in all spellings. -/
theorem percentRange_spellings_differ :
    ¬ ∀ (own own' : Bool) (mark mark' : Char) (low high : List Char) (s : Spaces), IsSeparator mark →
      IsSeparator mark' → IsNegatable low → IsNegatable high →
      (ofText (String.ofList (percentRange own mark low high s))).expression =
        (ofText (String.ofList (percentRange own' mark' low high s))).expression := by
  intro h
  have hsame := h true false '~' '-' ['1', '0'] ['2', '0']
    (.atMark [' '] [' '] forall_mem_space forall_mem_space) (.inl rfl) (.inr rfl)
    (isNumeral_of_isDigit (by decide) (by decide)).isNegatable
    (isNumeral_of_isDigit (by decide) (by decide)).isNegatable
  revert hsame
  decide +kernel

end NormalForm

end RangeCalc
