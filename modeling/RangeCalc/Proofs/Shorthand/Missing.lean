import RangeCalc.Proofs.Shorthand.Stretch

/-!
# All product signs in one pass

Whether a product sign is missing can be seen from the last word before a place and the text behind it, so that
the four rules write what one pass writes.

* `Missing`: a product sign is missing between what has been passed and the rest of a text;
* `missingProduct`: the rule that writes it;
* `Supplies`: how a text comes about by writing some of the missing signs;
* `Supplies.multipliedFrom_eq`: the others are missing still;
* `insertProducts_eq`: the four rules, one after the other, write all missing signs and nothing else.
-/

namespace RangeCalc.Shorthand

open Text

/-! ## Words -/

/-- A character of a word or a number. -/
def isWordPart (c : Char) : Bool :=
  isWordChar c || c == '.'

/-- The word that ends after these characters, nearest first. -/
def lastWord (before : List Char) : List Char :=
  (before.takeWhile isWordPart).reverse

/-- A character of numerals. -/
def IsNumeralChar (c : Char) : Prop :=
  isDigit c = true ∨ c = '.'

section

variable {before before' w n : List Char} {c d d' : Char}

theorem IsNumeralChar.isWordPart (h : IsNumeralChar c) : isWordPart c = true := by
  rcases h with h | rfl
  · rw [Shorthand.isWordPart, isWordChar_of_isDigit h, Bool.true_or]
  · rfl

theorem StartsFactor.not_isNumeralChar (h : StartsFactor c) : ¬ IsNumeralChar c := by
  rintro (hdigit | rfl)
  · rw [h.not_isDigit] at hdigit
    cases hdigit
  · rcases h with h | h <;> exact absurd h (by decide)

theorem standsAlone_iff : standsAlone before = true ↔ ∀ c ∈ before.head?, isWordPart c = false := by
  cases before <;> simp [standsAlone, isWordPart]

theorem lastWord_append (hw : ∀ c ∈ w, isWordPart c = true) (halone : standsAlone before = true) :
    lastWord (w.reverse ++ before) = w := by
  have hbefore : before.takeWhile isWordPart = [] := by
    cases before with
    | nil => rfl
    | cons c before =>
      rw [List.takeWhile_cons_of_neg]
      simpa using standsAlone_iff.mp halone c rfl
  rw [lastWord, List.takeWhile_append_of_pos (by simpa using hw), hbefore, List.append_nil, List.reverse_reverse]

theorem exists_lastWord (before : List Char) :
    ∃ rest, before = (lastWord before).reverse ++ rest ∧ standsAlone rest = true := by
  refine ⟨before.dropWhile isWordPart, ?_, standsAlone_iff.mpr fun c hc => ?_⟩
  · rw [lastWord, List.reverse_reverse, List.takeWhile_append_dropWhile]
  · have hnot := List.head?_dropWhile_not isWordPart before
    rw [Option.mem_def.mp hc] at hnot
    simpa using hnot

theorem mem_lastWord (hw : ∀ c ∈ w, isWordPart c = true) (hc : isWordPart c = true) :
    c ∈ lastWord (w ++ c :: before) := by
  rw [lastWord, List.takeWhile_append_of_pos hw, List.takeWhile_cons_of_pos hc]
  simp

theorem lastWord_of_not (hw : ∀ c ∈ w, isWordPart c = true) (hc : isWordPart c = false) :
    lastWord (w ++ c :: before) = w.reverse := by
  rw [lastWord, List.takeWhile_append_of_pos hw, List.takeWhile_cons_of_neg (by simp [hc]), List.append_nil]

/-! ## Contexts -/

/-- Behind the same further characters of a numeral a numeral ends after both. -/
def SameEnd (before before' : List Char) : Prop :=
  ∀ w, (∀ c ∈ w, IsNumeralChar c) → (IsNumeral (lastWord (w ++ before)) ↔ IsNumeral (lastWord (w ++ before')))

theorem SameEnd.refl (before : List Char) : SameEnd before before :=
  fun _ _ => Iff.rfl

theorem SameEnd.lastWord_iff (h : SameEnd before before') :
    IsNumeral (lastWord before) ↔ IsNumeral (lastWord before') :=
  h [] nofun

/-- Another character than one of a numeral hides what stands before it. -/
theorem sameEnd_of_not (hc : ¬ IsNumeralChar c) : SameEnd (c :: before) (c :: before') := by
  intro w hw
  have hparts : ∀ c ∈ w, isWordPart c = true := fun c hc => (hw c hc).isWordPart
  cases hpart : isWordPart c with
  | true =>
    exact ⟨fun hn => absurd (hn.mem (mem_lastWord hparts hpart)) hc,
      fun hn => absurd (hn.mem (mem_lastWord hparts hpart)) hc⟩
  | false => rw [lastWord_of_not hparts hpart, lastWord_of_not hparts hpart]

theorem SameEnd.cons (h : SameEnd before before') (c : Char) : SameEnd (c :: before) (c :: before') := by
  by_cases hc : IsNumeralChar c
  · intro w hw
    have := h (w ++ [c]) (List.forall_mem_append.mpr ⟨hw, List.forall_mem_singleton.mpr hc⟩)
    simpa using this
  · exact sameEnd_of_not hc

theorem not_isNumeral_behind (hw : ∀ c ∈ w, IsNumeralChar c) (hd : ¬ IsNumeralChar d) :
    ¬ IsNumeral (lastWord (w ++ '.' :: d :: before)) := by
  intro hn
  have hparts : ∀ c ∈ w ++ ['.'], isWordPart c = true :=
    List.forall_mem_append.mpr ⟨fun c hc => (hw c hc).isWordPart, List.forall_mem_singleton.mpr rfl⟩
  rw [show w ++ '.' :: d :: before = (w ++ ['.']) ++ d :: before by simp] at hn
  cases hpart : isWordPart d with
  | true => exact hd (hn.mem (mem_lastWord hparts hpart))
  | false =>
    rw [lastWord_of_not hparts hpart, List.reverse_append, List.reverse_singleton] at hn
    obtain ⟨c, tail, heq, hc⟩ := hn.head
    obtain ⟨rfl, -⟩ := List.cons.inj heq
    exact absurd hc (by decide)

/-- No numeral begins with another character than a digit. -/
theorem sameEnd_behind (hc : isDigit c = false) (hd : ¬ IsNumeralChar d) (hd' : ¬ IsNumeralChar d') :
    SameEnd (c :: d :: before) (c :: d' :: before') := by
  rcases eq_or_ne c '.' with rfl | hpoint
  · exact fun w hw => iff_of_false (not_isNumeral_behind hw hd) (not_isNumeral_behind hw hd')
  · exact sameEnd_of_not fun h => h.elim (fun h => by rw [hc] at h; cases h) hpoint

end

/-! ## Places -/

/-- A product sign is missing between what has been passed, nearest first, and the rest. -/
def Missing (before rest : List Char) : Prop :=
  ContinuesFactor rest ∧
    (before.head? = some ')' ∨
      IsNumeral (lastWord before) ∧ startsWithExponent (skipBlanks rest) = false)

/-- Whether a product sign is missing. -/
def isMissing (before rest : List Char) : Bool :=
  (skipBlanks rest).head?.any (fun c => c == '(' || isNameStart c) &&
    (before.head? == some ')' ||
      numeral? (lastWord before) == some (lastWord before, []) && !startsWithExponent (skipBlanks rest))

/-- The product sign is written between a factor and what follows it, perhaps after white space. -/
def missingProduct : Finder (List Char)
  | before, c :: rest => if isMissing (c :: before) rest then some ([c, '*'], skipBlanks rest) else none
  | _, [] => none

section

variable {before before' rest rest' text text' bs : List Char} {c r : Char}

theorem numeral?_eq_self_iff {n : List Char} : numeral? n = some (n, []) ↔ IsNumeral n := by
  constructor
  · exact fun h => (readsFront_numeral?.eq_some_iff.mp h).holds
  · intro hn
    have := numeral?_append hn stops_nil
    rwa [List.append_nil] at this

theorem isMissing_iff : isMissing before rest = true ↔ Missing before rest := by
  rw [isMissing, Missing, Bool.and_eq_true, Bool.or_eq_true, Bool.and_eq_true, beq_iff_eq, beq_iff_eq,
    numeral?_eq_self_iff, Bool.not_eq_true', ContinuesFactor]
  refine and_congr_left' ?_
  cases (skipBlanks rest).head? <;> simp [StartsFactor]

theorem Missing.endsFactor (h : Missing (c :: before) rest) : EndsFactor c := by
  rcases h.2 with hclose | ⟨hn, -⟩
  · exact .inr (Option.some.inj hclose)
  · obtain ⟨init, d, heq, hd⟩ := hn.last
    refine .inl ?_
    rw [lastWord, List.takeWhile_cons] at heq
    split at heq
    · rw [List.reverse_cons] at heq
      rwa [(List.append_inj' heq rfl).2 |> List.singleton_inj.mp]
    · simp at heq

theorem not_missing_of_not (hc : ¬ EndsFactor c) : ¬ Missing (c :: before) rest :=
  fun h => hc h.endsFactor

/-- In a word with other characters than those of numerals no product sign is missing. -/
theorem not_missing_of_mem {w : List Char} (hw : ∀ c ∈ w, isWordPart c = true)
    (hc : ∃ c ∈ w, ¬ IsNumeralChar c) : ¬ Missing (w.reverse ++ before) rest := by
  obtain ⟨c, hmem, hc⟩ := hc
  rintro ⟨-, hclose | ⟨hn, -⟩⟩
  · rw [List.head?_append_of_ne_nil _ (by simpa using List.ne_nil_of_mem hmem)] at hclose
    exact absurd (hw ')' (by simpa using List.mem_of_mem_head? hclose)) (by decide)
  · refine hc (hn.mem ?_)
    rw [lastWord, List.takeWhile_append_of_pos (by simpa using hw)]
    simp [hmem]

theorem not_endsFactor_star : ¬ EndsFactor '*' := by
  rintro (h | h)
  · exact absurd h (by decide)
  · cases h

theorem not_missing_star : ¬ Missing before ('*' :: rest) := by
  rintro ⟨⟨c, hc, hstarts⟩, -⟩
  obtain rfl : '*' = c := Option.some.inj hc
  exact hstarts.ne_star rfl

/-- What is missing behind a character can be seen from what ends there and from how the rest begins. -/
theorem missing_congr (hbefore : SameEnd (c :: before) (c :: before'))
    (hfactor : ContinuesFactor rest ↔ ContinuesFactor rest')
    (hexponent : startsWithExponent (skipBlanks rest) = startsWithExponent (skipBlanks rest')) :
    Missing (c :: before) rest ↔ Missing (c :: before') rest' := by
  rw [Missing, Missing, hfactor, hexponent, hbefore.lastWord_iff, List.head?_cons, List.head?_cons]

/-! ## The pass -/

/-- The text with the missing product signs, where `before` has been passed. -/
def multipliedFrom (before text : List Char) : List Char :=
  (segmentsFrom missingProduct before 0 text).flatMap Segment.text

theorem multipliedFrom_of_not (h : ¬ Missing (c :: before) rest) :
    multipliedFrom before (c :: rest) = c :: multipliedFrom (c :: before) rest := by
  rw [← isMissing_iff] at h
  rw [multipliedFrom, segmentsFrom, missingProduct, if_neg h]
  rfl

theorem skipBlanks_continues (hbs : ∀ b ∈ bs, isBlank b = true) (hr : StartsFactor r) :
    skipBlanks (bs ++ r :: rest) = r :: rest :=
  skipBlanks_append hbs hr.not_blank

theorem multipliedFrom_of_missing (hbs : ∀ b ∈ bs, isBlank b = true) (hr : StartsFactor r)
    (h : Missing (c :: before) (bs ++ r :: rest)) :
    multipliedFrom before (c :: (bs ++ r :: rest)) =
      c :: '*' :: multipliedFrom (bs.reverse ++ c :: before) (r :: rest) := by
  have hsome : missingProduct before ((c :: bs) ++ r :: rest) = some ([c, '*'], r :: rest) := by
    rw [List.cons_append, missingProduct, if_pos (isMissing_iff.mpr h), skipBlanks_continues hbs hr]
  have hsegments := Scans.segmentsFrom_found (List.cons_ne_nil c bs) hsome
  rw [List.cons_append] at hsegments
  rw [multipliedFrom, hsegments, List.reverse_cons, List.append_assoc]
  rfl

theorem multipliedFrom_blanks (hbs : ∀ b ∈ bs, isBlank b = true) (before rest : List Char) :
    multipliedFrom before (bs ++ rest) = bs ++ multipliedFrom (bs.reverse ++ before) rest := by
  induction bs generalizing before with
  | nil => rfl
  | cons b bs ih =>
    obtain ⟨hb, hbs⟩ := List.forall_mem_cons.mp hbs
    have hnot : ¬ EndsFactor b := fun h => by
      rw [h.not_blank] at hb
      cases hb
    rw [List.cons_append, multipliedFrom_of_not (not_missing_of_not hnot), ih hbs]
    simp

/-! ## Texts with some of the signs -/

/-- The second text is the first one, of which `before` has been passed, with some of the missing product
signs. -/
inductive Supplies : (before text text' : List Char) → Prop where
  | nil {before : List Char} : Supplies before [] []
  | char {before text text' : List Char} {c : Char} (h : Supplies (c :: before) text text') :
      Supplies before (c :: text) (c :: text')
  | star {before bs text text' : List Char} {c r : Char} (hbs : ∀ b ∈ bs, isBlank b = true) (hr : StartsFactor r)
      (hmissing : Missing (c :: before) (bs ++ r :: text))
      (h : Supplies (r :: (bs.reverse ++ c :: before)) text text') :
      Supplies before (c :: (bs ++ r :: text)) (c :: '*' :: r :: text')

namespace Supplies

theorem refl (before text : List Char) : Supplies before text text := by
  induction text generalizing before with
  | nil => exact .nil
  | cons c text ih => exact .char (ih _)

theorem chars (cs : List Char) (h : Supplies (cs.reverse ++ before) text text') :
    Supplies before (cs ++ text) (cs ++ text') := by
  induction cs generalizing before with
  | nil => exact h
  | cons c cs ih =>
    refine .char (ih ?_)
    rwa [List.reverse_cons, List.append_assoc] at h

theorem head?_eq (h : Supplies before text text') : text.head? = text'.head? := by
  cases h <;> rfl

/-- A character that no product sign follows is taken from both texts. -/
theorem of_cons (h : Supplies before (c :: text) (c :: text')) (hc : ¬ EndsFactor c) :
    Supplies (c :: before) text text' := by
  cases h with
  | char h => exact h
  | star _ _ hmissing _ => exact absurd hmissing.endsFactor hc

/-- The texts begin with the same white space. -/
theorem exists_blanks (h : Supplies before text text') :
    ∃ bs rest rest', (∀ b ∈ bs, isBlank b = true) ∧ text = bs ++ rest ∧ text' = bs ++ rest' ∧
      skipBlanks rest = rest ∧ skipBlanks rest' = rest' ∧ Supplies (bs.reverse ++ before) rest rest' := by
  induction h with
  | nil => exact ⟨[], [], [], nofun, rfl, rfl, rfl, rfl, .nil⟩
  | @char before text text' c h ih =>
    cases hc : isBlank c with
    | false =>
      exact ⟨[], _, _, nofun, rfl, rfl, skipBlanks_char hc _, skipBlanks_char hc _, .char h⟩
    | true =>
      obtain ⟨bs, rest, rest', hbs, rfl, rfl, hrest, hrest', hsupplies⟩ := ih
      refine ⟨c :: bs, rest, rest', List.forall_mem_cons.mpr ⟨hc, hbs⟩, rfl, rfl, hrest, hrest', ?_⟩
      rwa [List.reverse_cons, List.append_assoc]
  | star hbs hr hmissing h _ =>
    have hc := hmissing.endsFactor.not_blank
    exact ⟨[], _, _, nofun, rfl, rfl, skipBlanks_char hc _, skipBlanks_char hc _, .star hbs hr hmissing h⟩

theorem exists_head_iff (h : Supplies before text text') (P : Char → Prop) :
    (∃ d tail, text = d :: tail ∧ P d) ↔ ∃ d tail, text' = d :: tail ∧ P d := by
  cases h with
  | nil => rfl
  | char h => simp
  | star => simp

/-- The texts begin with an exponent if one of them does. -/
theorem startsWithExponent_eq (h : Supplies before text text') :
    startsWithExponent text = startsWithExponent text' := by
  have hletter : ∀ {e}, e = 'e' ∨ e = 'E' → ¬ EndsFactor e := by
    rintro e (rfl | rfl) <;> simp [EndsFactor, show isDigit 'e' = false by decide, show isDigit 'E' = false by decide]
  have hsign : ∀ {s}, s = '+' ∨ s = '-' → ¬ EndsFactor s := by
    rintro s (rfl | rfl) <;> simp [EndsFactor, not_isDigit_sign]
  rw [Bool.eq_iff_iff]
  cases h with
  | nil => rfl
  | star _ _ hmissing _ =>
    rw [startsWithExponent_iff, startsWithExponent_iff]
    exact iff_of_false (fun h => hletter h.1 hmissing.endsFactor) fun h => hletter h.1 hmissing.endsFactor
  | char h =>
    rw [startsWithExponent_iff, startsWithExponent_iff]
    refine and_congr_right' (or_congr (h.exists_head_iff _) ?_)
    cases h with
    | nil => rfl
    | star _ _ hmissing _ =>
      refine iff_of_false ?_ ?_
      · rintro ⟨s, d, tail, heq, hs, -⟩
        exact hsign hs ((List.cons.inj heq).1 ▸ hmissing.endsFactor)
      · rintro ⟨s, d, tail, heq, hs, -⟩
        exact hsign hs ((List.cons.inj heq).1 ▸ hmissing.endsFactor)
    | @char _ _ _ s h =>
      have hhead := h.exists_head_iff fun d => (s = '+' ∨ s = '-') ∧ isDigit d = true
      simpa using hhead

theorem continuesFactor_iff (h : Supplies before text text') : ContinuesFactor text ↔ ContinuesFactor text' := by
  obtain ⟨bs, rest, rest', hbs, rfl, rfl, hrest, hrest', hsupplies⟩ := h.exists_blanks
  rw [ContinuesFactor, ContinuesFactor, skipBlanks_append_of_blank hbs, skipBlanks_append_of_blank hbs, hrest,
    hrest', hsupplies.head?_eq]

/-- A product sign is missing behind the same characters of both texts. -/
theorem missing_iff (h : Supplies (c :: before) text text') (hbefore : SameEnd before before') :
    Missing (c :: before) text ↔ Missing (c :: before') text' := by
  refine missing_congr (hbefore.cons c) h.continuesFactor_iff ?_
  obtain ⟨bs, rest, rest', hbs, rfl, rfl, hrest, hrest', hsupplies⟩ := h.exists_blanks
  rw [skipBlanks_append_of_blank hbs, skipBlanks_append_of_blank hbs, hrest, hrest', hsupplies.startsWithExponent_eq]

/-- With all missing signs the two texts are the same. -/
theorem multipliedFrom_eq (h : Supplies before text text') (hbefore : SameEnd before before') :
    multipliedFrom before text = multipliedFrom before' text' := by
  induction h generalizing before' with
  | nil => rfl
  | @char before text text' c h ih =>
    have hsame := ih (hbefore.cons c)
    by_cases hmissing : Missing (c :: before) text
    · -- Behind the same white space the rests are the same, too.
      have hmissing' := (h.missing_iff hbefore).mp hmissing
      obtain ⟨bs, rest, rest', hbs, rfl, rfl, hrest, hrest', hsupplies⟩ := h.exists_blanks
      obtain ⟨r, hr, hstarts⟩ := hmissing.1
      rw [skipBlanks_append_of_blank hbs, hrest] at hr
      obtain ⟨tail, rfl⟩ := List.head?_eq_some_iff.mp hr
      obtain ⟨tail', rfl⟩ := List.head?_eq_some_iff.mp (hsupplies.head?_eq ▸ hr)
      rw [multipliedFrom_blanks hbs, multipliedFrom_blanks hbs] at hsame
      rw [multipliedFrom_of_missing hbs hstarts hmissing, multipliedFrom_of_missing hbs hstarts hmissing',
        List.append_cancel_left hsame]
    · rw [multipliedFrom_of_not hmissing, multipliedFrom_of_not ((h.missing_iff hbefore).not.mp hmissing), hsame]
  | @star before bs text text' c r hbs hr hmissing h ih =>
    rw [multipliedFrom_of_missing hbs hr hmissing, multipliedFrom_of_not not_missing_star,
      multipliedFrom_of_not (not_missing_of_not not_endsFactor_star),
      multipliedFrom_of_not (not_missing_of_not hr.not_endsFactor),
      multipliedFrom_of_not (not_missing_of_not hr.not_endsFactor), ih (sameEnd_of_not hr.not_isNumeralChar)]

end Supplies

end

/-! ## The four rules -/

section

variable {rule : Finder (List Char)} {Factor : List Char → Prop} {alone : List Char → Bool}
  {Follows : List Char → Prop} (hrule : Multiplies rule Factor alone Follows)
  (hmissing : ∀ {before init l bs rest}, alone before = true → Factor (init ++ [l]) →
    (∀ b ∈ bs, isBlank b = true) → Follows rest → Missing (l :: (init.reverse ++ before)) (bs ++ rest))

include hrule hmissing

/-- A rule that writes a product sign only where one is missing. -/
theorem Multiplies.supplies {before text : List Char} {ps : List (Piece (List Char))}
    (h : Scans rule before text ps) : Supplies before text (rewritten id ps) := by
  induction h with
  | nil => exact .nil
  | char _ _ ih => exact .char ih
  | @found before covered after out ps hne hsome _ ih =>
    obtain ⟨halone, f, bs, r, hf, hbs, hfollows, htext, rfl⟩ := hrule.eq_some hsome
    obtain ⟨_, _, heq, hr⟩ := hrule.starts hfollows
    obtain ⟨rfl, -⟩ := List.cons.inj heq
    obtain ⟨init, l, rfl, -⟩ := (hrule.isFactor hf).last
    obtain rfl : covered = init ++ [l] ++ (bs ++ [r]) := List.append_cancel_right (htext.trans (by simp))
    have hrest : Supplies (r :: (bs.reverse ++ l :: (init.reverse ++ before))) after (rewritten id ps) := by
      simpa using ih
    have hsupplies := Supplies.chars init (.star hbs hr (hmissing halone hf hbs hfollows) hrest)
    simpa using hsupplies

theorem Multiplies.multiplied_eq (text : List Char) :
    replaceEach missingProduct (replaceEach rule text) = replaceEach missingProduct text := by
  obtain ⟨ps, hps⟩ := Scans.exists_scan hrule.covers [] text
  rw [hps.replaceEach_eq]
  exact ((hrule.supplies hmissing hps).multipliedFrom_eq (.refl _)).symm

end

section

variable {before init bs rest : List Char} {l : Char}

theorem lastWord_numeral (halone : standsAlone before = true) (hn : IsNumeral (init ++ [l])) :
    lastWord (l :: (init.reverse ++ before)) = init ++ [l] := by
  have := lastWord_append (fun c hc => IsNumeralChar.isWordPart (hn.mem hc)) halone
  rwa [List.reverse_append, List.reverse_singleton, List.append_assoc, List.singleton_append] at this

theorem OpensParenthesis.missing (hbs : ∀ b ∈ bs, isBlank b = true) (h : OpensParenthesis rest)
    (hend : l = ')' ∨ standsAlone before = true ∧ IsNumeral (init ++ [l])) :
    Missing (l :: (init.reverse ++ before)) (bs ++ rest) := by
  obtain ⟨tail, rfl⟩ := h
  have hskip : skipBlanks (bs ++ '(' :: tail) = '(' :: tail := skipBlanks_continues hbs (.inl rfl)
  rw [Missing, ContinuesFactor, hskip]
  refine ⟨⟨'(', rfl, .inl rfl⟩, hend.imp (congrArg some) fun ⟨halone, hn⟩ => ⟨?_, ?_⟩⟩
  · rwa [lastWord_numeral halone hn]
  · refine Bool.of_not_eq_true fun h => ?_
    rcases (startsWithExponent_iff.mp h).1 with h | h <;> exact absurd h (by decide)

theorem OpensName.missing (hbs : ∀ b ∈ bs, isBlank b = true) (h : OpensName rest)
    (hend : l = ')' ∨ standsAlone before = true ∧ IsNumeral (init ++ [l]) ∧ startsWithExponent rest = false) :
    Missing (l :: (init.reverse ++ before)) (bs ++ rest) := by
  obtain ⟨c, tail, rfl, hc⟩ := h
  rw [Missing, ContinuesFactor, skipBlanks_continues hbs (.inr hc)]
  refine ⟨⟨c, rfl, .inr hc⟩, hend.imp (congrArg some) fun ⟨halone, hn, hexponent⟩ => ⟨?_, hexponent⟩⟩
  rwa [lastWord_numeral halone hn]

end

/-- Where none of the four rules finds anything no sign is missing. -/
theorem ProductFree.free_missingProduct {text : List Char} (h : ProductFree text) :
    Free (Found missingProduct) text := by
  rintro pre (- | ⟨c, post⟩) rfl hfound
  · cases hfound
  rw [Found, missingProduct] at hfound
  split at hfound
  next hmissing =>
    obtain ⟨⟨r, hr, hstarts⟩, hend⟩ := isMissing_iff.mp hmissing
    obtain ⟨bs, hbs, hpost⟩ := skipBlanks_split post
    obtain ⟨tail, htail⟩ := List.head?_eq_some_iff.mp hr
    rw [htail] at hpost hend
    subst hpost
    rcases hend with hclose | ⟨hn, hexponent⟩
    · obtain rfl : c = ')' := Option.some.inj hclose
      rcases hstarts with rfl | hletter
      · exact h.parenthesisParenthesis pre _ rfl (multiplies_parenthesisParenthesis.found rfl rfl hbs ⟨tail, rfl⟩)
      · exact h.parenthesisName pre _ rfl (multiplies_parenthesisName.found rfl rfl hbs ⟨r, tail, rfl, hletter⟩)
    · obtain ⟨rest, hrest, halone⟩ := exists_lastWord (c :: pre.reverse)
      have hpre : pre ++ [c] = rest.reverse ++ lastWord (c :: pre.reverse) := by
        simpa using congrArg List.reverse hrest
      have htext : pre ++ c :: (bs ++ r :: tail) =
          rest.reverse ++ (lastWord (c :: pre.reverse) ++ (bs ++ r :: tail)) := by
        rw [← List.append_assoc, ← hpre]
        simp
      rw [← List.reverse_reverse rest] at halone
      rcases hstarts with rfl | hletter
      · exact h.numberParenthesis _ _ htext (multiplies_numberParenthesis.found halone hn hbs ⟨tail, rfl⟩)
      · exact h.numberName _ _ htext (multiplies_numberName.found halone hn hbs ⟨⟨r, tail, rfl, hletter⟩, hexponent⟩)
  next => cases hfound

/-- The four rules, one after the other, write all missing product signs and nothing else. -/
theorem insertProducts_eq (text : List Char) : insertProducts text none = replaceEach missingProduct text := by
  have hclose : ∀ {init : List Char} {l : Char}, init ++ [l] = [')'] → l = ')' := fun heq => by
    simpa using congrArg List.getLast? heq
  rw [← replaceEach_of_free (productFree_insertProducts text).free_missingProduct]
  show replaceEach missingProduct (replaceEach parenthesisName (replaceEach numberName
    (replaceEach parenthesisParenthesis (replaceEach numberParenthesis text)))) = _
  rw [multiplies_parenthesisName.multiplied_eq fun _ hf hbs hfollows => hfollows.missing hbs (.inl (hclose hf)),
    multiplies_numberName.multiplied_eq fun halone hn hbs hfollows =>
      hfollows.1.missing hbs (.inr ⟨halone, hn, hfollows.2⟩),
    multiplies_parenthesisParenthesis.multiplied_eq fun _ hf hbs hfollows =>
      hfollows.missing hbs (.inl (hclose hf)),
    multiplies_numberParenthesis.multiplied_eq fun halone hn hbs hfollows =>
      hfollows.missing hbs (.inr ⟨halone, hn⟩)]

end RangeCalc.Shorthand
