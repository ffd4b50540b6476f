import RangeCalc.Proofs.Shorthand.Stretch

/-!
# Sampling calls in the sampling form

* `substituteRanges_eq`: the ranges of a text replaced by their calls;
* `gap`: what is left of white space between two words;
* `noneFollows_call`, `singleSpaced_call`: no product sign is missing in a call, and its spacing is kept;
* `drawCall`, `samplingCall_of_interval`: the call that draws between two finite numbers;
* `finish_eq`, `finish_call`: the last steps where no product sign is missing.
-/

namespace RangeCalc

open Text Shorthand Binary64

theorem substituteRanges_eq {text : List Char} {ps : List (Piece FoundRange)}
    (hps : Scans RangeToken.find [] text ps) :
    substituteRanges (fun _ token => samplingCall token) text = rewritten rangeCall ps := by
  rw [substituteRanges, hps.segments_eq]
  exact replaced_eq ps 0

/-- A text with one range. -/
theorem substituteRanges_occurrence {rest text : List Char} {r : FoundRange} (front : List Char)
    (hfront : NothingIn RangeToken.find [] front text)
    (hsome : RangeToken.find front.reverse text = some (r, rest))
    (hrest : ∀ before, NothingIn RangeToken.find before rest []) :
    substituteRanges (fun _ token => samplingCall token) (front ++ text) = front ++ (rangeCall r ++ rest) := by
  obtain ⟨covered, hscan⟩ := Scans.exists_of_occurrence front RangeToken.find_covers hfront hsome hrest
  rw [substituteRanges_eq hscan, rewritten_occurrence]

/-! ## White space -/

namespace Text

variable {u w : List Char}

/-- What is left of white space between two words. -/
def gap (u : List Char) : List Char :=
  if u = [] then [] else [' ']

theorem singleSpaced_word (hw : ∀ c ∈ w, isBlank c = false) (s : List Char) :
    singleSpaced (w ++ s) = w ++ singleSpaced s := by
  induction w with
  | nil => rfl
  | cons c w ih =>
    obtain ⟨hc, hw⟩ := List.forall_mem_cons.mp hw
    rw [List.cons_append, singleSpaced_char hc, ih hw, List.cons_append]

theorem singleSpaced_gap {c : Char} (hu : ∀ b ∈ u, isBlank b = true) (hc : isBlank c = false) (s : List Char) :
    singleSpaced (u ++ c :: s) = gap u ++ c :: singleSpaced s := by
  rw [gap]
  split
  next hnil => rw [hnil, List.nil_append, List.nil_append, singleSpaced_char hc]
  next hne =>
    have hspace : c ≠ ' ' := by
      rintro rfl
      cases hc
    rw [singleSpaced_blanks_append hu hne, singleSpaced, if_pos isBlank_space, singleSpaced_char hc]
    split
    · cases ‹_›
    · exact absurd (List.cons.inj ‹_›).1 hspace
    · rfl

theorem singleSpaced_gap_word (hu : ∀ b ∈ u, isBlank b = true) (hne : w ≠ []) (hw : ∀ c ∈ w, isBlank c = false)
    (s : List Char) : singleSpaced (u ++ (w ++ s)) = gap u ++ (w ++ singleSpaced s) := by
  obtain ⟨c, w, rfl⟩ := List.exists_cons_of_ne_nil hne
  obtain ⟨hc, hw⟩ := List.forall_mem_cons.mp hw
  rw [List.cons_append, singleSpaced_gap hu hc, singleSpaced_word hw, List.cons_append]

end Text

/-! ## Calls -/

namespace Shorthand

theorem startsFactor_of_all {cs : List Char} (h : cs.all (fun c => c == '(' || isNameStart c) = true) :
    ∀ c ∈ cs, StartsFactor c := fun c hc => by
  simpa [StartsFactor] using List.all_eq_true.mp h c hc

end Shorthand

/-- What a call starts with. -/
def callOpening : List Char :=
  ['s', 'a', 'm', 'p', 'l', 'e', '(', 'u', 'n', 'i', 'f', 'o', 'r', 'm', '(']

theorem startsFactor_of_mem_callOpening : ∀ c ∈ callOpening, StartsFactor c :=
  startsFactor_of_all (by decide)

theorem samplingCall_eq (token : RangeToken) :
    samplingCall token = callOpening ++ (boundChars token.interval.min ++
      ',' :: ' ' :: (boundChars token.interval.max ++ [')', ')'])) := by
  have hopening : "sample(uniform(".toList = callOpening := rfl
  delta samplingCall
  rw [hopening]
  simp only [List.append_assoc, List.cons_append, List.nil_append]

/-- A bound is undefined or finite. -/
def IsBoundValue (x : Float) : Prop :=
  x.isNaN = true ∨ x.isFinite = true

theorem isFinite_of_boundValue? {text : List Char} {percent : Bool} {x : Float}
    (h : boundValue? text percent = some x) : x.isFinite = true := by
  simp only [boundValue?, bind, Option.bind_eq_some_iff] at h
  obtain ⟨value, -, _, hguard, hx⟩ := h
  have hfinite : value.isFinite = true := by
    by_contra hnot
    rw [guard, if_neg hnot] at hguard
    cases hguard
  obtain rfl : (if percent then value / 100 else value) = x := Option.some.inj hx
  split
  · exact (finite_hundredth hfinite).choose_spec.2.1
  · exact hfinite

theorem isBoundValue_boundValue? (text : List Char) (percent : Bool) :
    IsBoundValue ((boundValue? text percent).getD nan) := by
  cases h : boundValue? text percent with
  | none => exact .inl (by decide)
  | some x => exact .inr (isFinite_of_boundValue? h)

theorem isBoundValue_interval (token : RangeToken) :
    IsBoundValue token.interval.min ∧ IsBoundValue token.interval.max := by
  have hmin : IsBoundValue (token.min?.getD nan) := isBoundValue_boundValue? _ _
  have hmax : IsBoundValue (token.max?.getD nan) := isBoundValue_boundValue? _ _
  rw [RangeToken.interval, Interval.ordered]
  split
  · exact ⟨hmax, hmin⟩
  · exact ⟨hmin, hmax⟩

variable {token : RangeToken} {x : Float} {rest : List Char}

theorem boundChars_of_isFinite (hx : x.isFinite = true) : boundChars x = plainChars x := by
  rw [boundChars, not_isNaN_of_isFinite hx]
  rfl

/-- What is written for a bound is a name or a numeral. -/
theorem boundChars_cases (hx : IsBoundValue x) : boundChars x = ['n', 'a', 'n'] ∨ IsNegatable (boundChars x) := by
  rcases hx with hx | hx
  · rw [boundChars, if_pos hx]
    exact .inl rfl
  · rw [boundChars_of_isFinite hx]
    exact .inr (isNegatable_plainChars hx)

theorem startsFactor_of_mem_nan : ∀ c ∈ ['n', 'a', 'n'], StartsFactor c :=
  startsFactor_of_all (by decide)

theorem boundChars_not_blank (hx : IsBoundValue x) : ∀ c ∈ boundChars x, isBlank c = false := by
  intro c hc
  rcases boundChars_cases hx with heq | hplain
  · exact (startsFactor_of_mem_nan c (heq ▸ hc)).not_blank
  · exact hplain.not_blank c hc

theorem boundChars_ne_nil (hx : IsBoundValue x) : boundChars x ≠ [] := by
  rcases boundChars_cases hx with heq | hplain
  · rw [heq]
    exact List.cons_ne_nil _ _
  · obtain ⟨c, tail, heq, -⟩ := hplain.head
    rw [heq]
    exact List.cons_ne_nil _ _

theorem noneFollows_boundChars (hx : IsBoundValue x) (hrest : ¬ ContinuesFactor rest) :
    NoneFollows EndsFactor ContinuesFactor (boundChars x) rest := by
  rcases boundChars_cases hx with heq | hplain
  · rw [heq]
    exact noneFollows_of_not fun c hc => (startsFactor_of_mem_nan c hc).not_endsFactor
  · refine noneFollows_negatable ContinuesFactor.stops ?_ hplain hrest
    rintro (h | h)
    · exact absurd h (by decide)
    · cases h

theorem not_continuesFactor {u : List Char} (hu : ∀ b ∈ u, isBlank b = true) {c : Char}
    (hblank : isBlank c = false) (hc : (c == '(' || isNameStart c) = false) (tail : List Char) :
    ¬ ContinuesFactor (u ++ c :: tail) := by
  rintro ⟨d, hd, hstarts⟩
  rw [skipBlanks_append hu hblank] at hd
  obtain rfl : c = d := Option.some.inj hd
  have : ¬ StartsFactor c := by simpa [StartsFactor] using hc
  exact this hstarts

/-- No product sign is missing in a call. -/
theorem noneFollows_call (hrest : ¬ ContinuesFactor rest) :
    NoneFollows EndsFactor ContinuesFactor (samplingCall token) rest := by
  obtain ⟨hmin, hmax⟩ := isBoundValue_interval token
  have hclose : ∀ tail, ¬ ContinuesFactor (')' :: tail) :=
    not_continuesFactor (List.forall_mem_nil _) (by decide) (by decide)
  have hcomma : ∀ tail, ¬ ContinuesFactor (',' :: tail) :=
    not_continuesFactor (List.forall_mem_nil _) (by decide) (by decide)
  have hend : NoneFollows EndsFactor ContinuesFactor [')', ')'] rest :=
    .cons (fun _ => hclose _) (.cons (fun _ => hrest) noneFollows_nil)
  have hnot : ∀ c ∈ [',', ' '], ¬ EndsFactor c := by
    rintro c hc (h | rfl)
    · simp only [List.mem_cons, List.not_mem_nil, or_false] at hc
      rcases hc with rfl | rfl <;> exact absurd h (by decide)
    · exact absurd hc (by decide)
  rw [samplingCall_eq]
  refine .append (noneFollows_of_not fun c hc => (startsFactor_of_mem_callOpening c hc).not_endsFactor) ?_
  refine .append (noneFollows_boundChars hmin (hcomma _)) ?_
  refine NoneFollows.append (x := [',', ' ']) (noneFollows_of_not hnot) ?_
  exact .append (noneFollows_boundChars hmax (hclose _)) hend

/-- The spacing of a call is kept. -/
theorem singleSpaced_call (s : List Char) :
    singleSpaced (samplingCall token ++ s) = samplingCall token ++ singleSpaced s := by
  obtain ⟨hmin, hmax⟩ := isBoundValue_interval token
  have hlow := boundChars_not_blank hmin
  have hhigh := boundChars_not_blank hmax
  have hopening : ∀ c ∈ callOpening, isBlank c = false := fun c hc =>
    (startsFactor_of_mem_callOpening c hc).not_blank
  have hspace : ∀ b ∈ [' '], isBlank b = true := List.forall_mem_singleton.mpr isBlank_space
  have hclose : isBlank ')' = false := by decide
  obtain ⟨d, tail, heq⟩ := List.exists_cons_of_ne_nil (boundChars_ne_nil hmax)
  have hmiddle := singleSpaced_gap hspace (hhigh d (heq ▸ List.mem_cons_self)) (tail ++ ')' :: ')' :: s)
  have hlast := singleSpaced_word hhigh (')' :: ')' :: s)
  rw [singleSpaced_char hclose, singleSpaced_char hclose] at hlast
  rw [heq, List.cons_append, singleSpaced_char (hhigh d (heq ▸ List.mem_cons_self))] at hlast
  rw [(List.cons.inj hlast).2] at hmiddle
  rw [samplingCall_eq, heq]
  simp only [List.append_assoc, List.cons_append, List.nil_append] at hmiddle ⊢
  rw [singleSpaced_word hopening, singleSpaced_word hlow, singleSpaced_char (by decide), hmiddle]
  rfl

theorem singleSpaced_gap_call {u : List Char} (hu : ∀ b ∈ u, isBlank b = true) (s : List Char) :
    singleSpaced (u ++ (samplingCall token ++ s)) = gap u ++ (samplingCall token ++ singleSpaced s) := by
  have hcall : singleSpaced (samplingCall token ++ s) = samplingCall token ++ singleSpaced s := singleSpaced_call s
  rw [samplingCall_eq, callOpening] at hcall ⊢
  have hs : isBlank 's' = false := (startsFactor_of_mem_callOpening 's' List.mem_cons_self).not_blank
  simp only [List.cons_append, List.nil_append, singleSpaced_char hs] at hcall ⊢
  rw [singleSpaced_gap hu hs, (List.cons.inj hcall).2]

theorem skipBlanks_call (rest : List Char) :
    skipBlanks (samplingCall token ++ rest) = samplingCall token ++ rest := by
  rw [samplingCall_eq, callOpening]
  exact skipBlanks_char (startsFactor_of_mem_callOpening 's' List.mem_cons_self).not_blank _

/-- The call that draws between two numbers. -/
def drawCall (a b : Float) : List Char :=
  callOpening ++ (plainChars a ++ ',' :: ' ' :: (plainChars b ++ [')', ')']))

theorem samplingCall_of_interval {a b : Float} (h : token.interval = ⟨a, b⟩) (ha : a.isFinite = true)
    (hb : b.isFinite = true) : samplingCall token = drawCall a b := by
  rw [samplingCall_eq, h, drawCall, boundChars_of_isFinite ha, boundChars_of_isFinite hb]

/-- A text with a call mentions sampling. -/
theorem mentionsSampling_call (x y : List Char) : mentionsSampling (x ++ (samplingCall token ++ y)) = true := by
  have hinfix : "sample(".toList <:+: lowerAscii (x ++ (samplingCall token ++ y)) := by
    refine ⟨lowerAscii x, lowerAscii (['u', 'n', 'i', 'f', 'o', 'r', 'm', '('] ++ (boundChars token.interval.min ++
      ',' :: ' ' :: (boundChars token.interval.max ++ [')', ')'])) ++ y), ?_⟩
    have hword : "sample(".toList = lowerAscii ['s', 'a', 'm', 'p', 'l', 'e', '('] := by decide
    rw [samplingCall_eq, hword]
    simp only [lowerAscii, ← List.map_append]
    simp [callOpening]
  rw [mentionsSampling, occursIn_iff.mpr hinfix, Bool.true_or]

/-- Where no product sign is missing, white space is squeezed. -/
theorem finish_eq {text out : List Char} (hpercent : replaceEach percent text = out)
    (h : NoneFollows EndsFactor ContinuesFactor out []) : finish text none = singleSpaced (skipBlanks out) := by
  rw [finish, hpercent, insertProducts_of_noneFollows h, squeeze_eq]

/-- A call in a text without percentages in which no product sign is missing. -/
theorem finish_call {front back : List Char} (hpercent : '%' ∉ front ++ back)
    (hfront : NoneFollows EndsFactor ContinuesFactor front (samplingCall token ++ back))
    (hback : NoneFollows EndsFactor ContinuesFactor back []) (hrest : ¬ ContinuesFactor back) :
    finish (front ++ (samplingCall token ++ back)) none =
      singleSpaced (skipBlanks (front ++ (samplingCall token ++ back))) := by
  have hcall : '%' ∉ samplingCall token := not_mem_samplingCall (by decide) (by decide) (by decide) token
  refine finish_eq (replaceEach_of_free (free_percent_of_not_mem ?_))
    (.append (by rwa [List.append_nil]) (.append (noneFollows_call (by rwa [List.append_nil])) hback))
  simp only [List.mem_append, not_or] at hpercent ⊢
  exact ⟨hpercent.1, hcall, hpercent.2⟩

end RangeCalc
