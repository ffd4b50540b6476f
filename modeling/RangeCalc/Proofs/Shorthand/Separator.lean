import RangeCalc.Proofs.Shorthand.Tidy
import RangeCalc.Shorthand.Expand

/-!
# Thousands separators

A comma between a digit and exactly three digits is dropped. No comma comes to stand there later.

* `thousands_free`: no separator is left where they have been dropped;
* `free_thousands_rewritten`: what a replacement must be like to bring about no separator;
* `takeWhile_isDigit_sameFront`, `takeWhile_isDigit_alone`: replacements that leave the digits after a comma;
* `thousands_inherited`: tidying brings about no separator.
-/

namespace RangeCalc.Shorthand

open Text

/-- A separator stands between a digit and exactly three digits. -/
theorem found_thousands_iff {before text : List Char} :
    Found thousands before text ↔ (∃ d ∈ before.head?, isDigit d = true) ∧
      ∃ rest, text = ',' :: rest ∧ (rest.takeWhile isDigit).length = 3 := by
  unfold Found
  constructor
  · intro h
    rw [thousands.eq_def] at h
    split at h
    next d before rest =>
      simp only at h
      split at h
      next hgroup => exact ⟨⟨d, rfl, hgroup.1⟩, rest, rfl, hgroup.2⟩
      next => cases h
    next => cases h
  · rintro ⟨⟨d, hd, hdigit⟩, rest, rfl, hgroup⟩
    obtain ⟨before, rfl⟩ := List.head?_eq_some_iff.mp hd
    simp only [thousands]
    rw [if_pos ⟨hdigit, hgroup⟩]
    rfl

theorem thousands_eq_some {before text out after : List Char}
    (h : thousands before text = some (out, after)) :
    (∃ d ∈ before.head?, isDigit d = true) ∧ out = [] ∧ text = ',' :: after ∧
      (after.takeWhile isDigit).length = 3 := by
  obtain ⟨hbefore, rest, rfl, hgroup⟩ := found_thousands_iff.mp (Option.isSome_of_mem h)
  obtain ⟨d, hd, hdigit⟩ := hbefore
  obtain ⟨before, rfl⟩ := List.head?_eq_some_iff.mp hd
  simp only [thousands] at h
  rw [if_pos ⟨hdigit, hgroup⟩] at h
  obtain ⟨rfl, rfl⟩ := Prod.mk.inj (Option.some.inj h)
  exact ⟨⟨d, hd, hdigit⟩, rfl, rfl, hgroup⟩

theorem thousands_covers : thousands.Covers := by
  intro before text out after h
  obtain ⟨-, -, rfl, -⟩ := thousands_eq_some h
  exact ⟨[','], List.cons_ne_nil _ _, rfl⟩

/-- Where separators are dropped, the digits in front stay as many, or three more follow. -/
theorem takeWhile_isDigit_thousands {before text : List Char} {ps : List (Piece (List Char))}
    (h : Scans thousands before text ps) :
    ((rewritten id ps).takeWhile isDigit).length = (text.takeWhile isDigit).length ∨
      (text.takeWhile isDigit).length + 3 ≤ ((rewritten id ps).takeWhile isDigit).length := by
  induction h with
  | nil => exact .inl rfl
  | @char before rest c ps _ _ ih =>
    rw [rewritten_char, List.takeWhile_cons, List.takeWhile_cons]
    split
    · simp only [List.length_cons]
      omega
    · exact .inl rfl
  | @found before covered after out ps _ hsome _ ih =>
    obtain ⟨-, rfl, htext, hgroup⟩ := thousands_eq_some hsome
    rw [rewritten_found, htext, List.takeWhile_cons_of_neg (by decide)]
    simp only [id_eq, List.nil_append, List.length_nil]
    omega

/-- After a character other than a digit, three digits are left only where there were three. -/
theorem takeWhile_isDigit_thousands_eq {before text : List Char} {ps : List (Piece (List Char))} {b : Char}
    (h : Scans thousands (b :: before) text ps) (hb : isDigit b = false)
    (hgroup : ((rewritten id ps).takeWhile isDigit).length = 3) : (text.takeWhile isDigit).length = 3 := by
  rcases takeWhile_isDigit_thousands h with heq | hle
  · rw [← heq, hgroup]
  -- Otherwise the text starts with no digit, so a separator is dropped at its front.
  · have hzero : (text.takeWhile isDigit).length = 0 := by omega
    generalize hbefore : b :: before = passed at h
    cases h with
    | nil => cases hgroup
    | @char _ rest c ps _ _ =>
      rcases hc : isDigit c with _ | _
      · rw [rewritten_char, List.takeWhile_cons_of_neg (by simp [hc])] at hgroup
        cases hgroup
      · rw [List.takeWhile_cons_of_pos hc] at hzero
        cases hzero
    | found _ hsome _ =>
      obtain ⟨⟨d, hd, hdigit⟩, -⟩ := thousands_eq_some hsome
      rw [← hbefore] at hd
      rw [← Option.some.inj hd, hb] at hdigit
      cases hdigit

/-- No separator is left where they have been dropped. -/
theorem thousands_free (text : List Char) : Free (Found thousands) (replaceEach thousands text) := by
  obtain ⟨ps, hps⟩ := Scans.exists_scan thousands_covers [] text
  rw [hps.replaceEach_eq]
  rintro pre post heq hfound
  obtain ⟨⟨d, hd, hdigit⟩, rest, rfl, hgroup⟩ := found_thousands_iff.mp hfound
  have hout : ∀ out covered, .found out covered ∈ ps → out = [] ∧ covered = [','] := by
    intro out covered hmem
    obtain ⟨before, after, hsome⟩ := hps.exists_at hmem
    obtain ⟨-, rfl, htext, -⟩ := thousands_eq_some hsome
    exact ⟨rfl, List.append_cancel_right htext⟩
  rcases exists_piece heq with ⟨front, back, rfl, rfl, rfl⟩ | ⟨front, out, covered, back, u, v, rfl, hsplit, -, -⟩
  · have hbefore : ∃ d ∈ (textOf front).reverse.head?, isDigit d = true := by
      rcases List.eq_nil_or_concat front with rfl | ⟨front, c | ⟨out, covered⟩, rfl⟩
      · cases hd
      · simp only [List.concat_eq_append, rewritten_append, rewritten_char, rewritten_nil,
          List.reverse_append, List.reverse_singleton, List.singleton_append, List.head?_cons] at hd
        exact ⟨d, by simpa using hd, hdigit⟩
      · rw [List.concat_eq_append, List.append_assoc, List.singleton_append] at hps
        obtain ⟨-, -, -, hafter⟩ := thousands_eq_some hps.at_found.2
        rw [textOf_char, List.takeWhile_cons_of_neg (by decide)] at hafter
        cases hafter
    have hnone := hps.at_char
    rw [show front ++ .char ',' :: back = front ++ [.char ','] ++ back by simp] at hps
    have hdrop := hps.drop
    simp only [textOf_append, textOf_char, textOf_nil, List.reverse_append, List.reverse_singleton,
      List.append_nil, List.cons_append] at hdrop hnone
    have hrest := takeWhile_isDigit_thousands_eq hdrop (by decide) hgroup
    have : Found thousands (textOf front).reverse (',' :: textOf back) :=
      found_thousands_iff.mpr ⟨hbefore, _, rfl, hrest⟩
    rw [Found, hnone] at this
    cases this
  · obtain ⟨rfl, -⟩ := hout out covered (by simp)
    simp at hsplit

/-- Tidying brings about no separator. -/
theorem thousands_inherited : Inherited (Found thousands) where
  starts before text h := by
    obtain ⟨-, rest, rfl, -⟩ := found_thousands_iff.mp h
    exact ⟨',', rest, rfl, by decide, by decide⟩
  back before before' c rest rest' hbeside htidies h := by
    obtain ⟨hbefore, group, heq, hgroup⟩ := found_thousands_iff.mp h
    obtain ⟨rfl, rfl⟩ := List.cons.inj heq
    obtain ⟨group', heq', hrest⟩ := htidies.drop_char' (by decide) (by simp [EndsFactor]; decide)
    obtain ⟨-, rfl⟩ := List.cons.inj heq'
    refine found_thousands_iff.mpr ⟨hbeside.isDigit ?_ hbefore, rest, rfl, ?_⟩
    · simp [StartsFactor, isNameStart, isAsciiLetter]
    · rw [hrest.takeWhile_isDigit, hgroup]

/-! ## Other replacements -/

/-- A replacement of which no digit and no comma before a digit is seen from behind. -/
structure NoSeparator (out : List Char) : Prop where
  comma : ∀ u v, out = u ++ ',' :: v → ∃ w, v = ' ' :: w
  last : ∃ init c, out = init ++ [c] ∧ isDigit c = false

/-- Replacements bring about no separator if they leave the digits after a comma. -/
theorem free_thousands_rewritten {α : Type} {out : α → List Char} {ps : List (Piece α)}
    (h : Free (Found thousands) (textOf ps))
    (hout : ∀ a covered, .found a covered ∈ ps → NoSeparator (out a))
    (hgroup : ∀ front back, ps = front ++ .char ',' :: back →
      ((rewritten out back).takeWhile isDigit).length = 3 → ((textOf back).takeWhile isDigit).length = 3) :
    Free (Found thousands) (rewritten out ps) := by
  rintro pre post heq hfound
  obtain ⟨⟨d, hd, hdigit⟩, rest, rfl, hrest⟩ := found_thousands_iff.mp hfound
  rcases exists_piece heq with ⟨front, back, rfl, rfl, rfl⟩ | ⟨front, a, covered, back, u, v, rfl, hsplit, -, rfl⟩
  · refine h (textOf front) (',' :: textOf back) (by simp)
      (found_thousands_iff.mpr ⟨?_, _, rfl, hgroup front back rfl hrest⟩)
    rcases List.eq_nil_or_concat front with rfl | ⟨front, c | ⟨a, covered⟩, rfl⟩
    · cases hd
    · exact ⟨d, by simpa using hd, hdigit⟩
    · obtain ⟨init, c, hinit, hc⟩ := (hout a covered (by simp)).last
      simp only [List.concat_eq_append, rewritten_append, rewritten_found, rewritten_nil, hinit,
        List.append_nil, List.reverse_append, List.reverse_singleton, List.singleton_append] at hd
      rw [← Option.some.inj hd, hc] at hdigit
      cases hdigit
  · obtain ⟨w, rfl⟩ := (hout a covered (by simp)).comma u v hsplit
    rw [List.cons_append, List.takeWhile_cons_of_neg (by decide)] at hrest
    cases hrest

/-- Two texts that start alike, up to characters other than digits. -/
def SameFront (covered out : List Char) : Prop :=
  ∃ w x r y s, covered = w ++ x :: r ∧ out = w ++ y :: s ∧ isDigit x = false ∧ isDigit y = false

theorem takeWhile_isDigit_append_cons {x : Char} (w rest : List Char) (hx : isDigit x = false) :
    (w ++ x :: rest).takeWhile isDigit = w.takeWhile isDigit := by
  induction w with
  | nil => exact List.takeWhile_cons_of_neg (by simp [hx])
  | cons c w ih => rw [List.cons_append, List.takeWhile_cons, List.takeWhile_cons, ih]

/-- Replacements that start as the text does leave the digits in front. -/
theorem takeWhile_isDigit_sameFront {α : Type} {out : α → List Char} {ps : List (Piece α)}
    (h : ∀ a covered, .found a covered ∈ ps → SameFront covered (out a)) :
    (rewritten out ps).takeWhile isDigit = (textOf ps).takeWhile isDigit := by
  induction ps with
  | nil => rfl
  | cons p ps ih =>
    rcases p with c | ⟨a, covered⟩
    · have hrest := ih fun a covered hmem => h a covered (List.mem_cons_of_mem _ hmem)
      rw [rewritten_char, textOf_char, List.takeWhile_cons, List.takeWhile_cons, hrest]
    · obtain ⟨w, x, r, y, s, rfl, hout, hx, hy⟩ := h a covered List.mem_cons_self
      rw [rewritten_found, textOf_found, hout, List.append_assoc, List.append_assoc, List.cons_append,
        List.cons_append, takeWhile_isDigit_append_cons w _ hx, takeWhile_isDigit_append_cons w _ hy]

/-- A rule whose replacements start as the text does brings about no separator. -/
theorem free_thousands_replaceEach {rule : Finder (List Char)} {text : List Char} (hrule : rule.Covers)
    (hout : ∀ before covered out after, rule before (covered ++ after) = some (out, after) →
      SameFront covered out ∧ NoSeparator out)
    (h : Free (Found thousands) text) : Free (Found thousands) (replaceEach rule text) := by
  obtain ⟨ps, hps⟩ := Scans.exists_scan hrule [] text
  have hfound : ∀ out covered, .found out covered ∈ ps → SameFront covered out ∧ NoSeparator out := by
    intro out covered hmem
    obtain ⟨before, after, hsome⟩ := hps.exists_at hmem
    exact hout before covered out after hsome
  rw [hps.replaceEach_eq]
  refine free_thousands_rewritten (by rwa [hps.textOf_eq]) (fun out covered hmem => (hfound out covered hmem).2) ?_
  rintro front back rfl hgroup
  have hback : ∀ out covered, .found out covered ∈ back → SameFront covered (id out) := fun out covered hmem =>
    (hfound out covered (by simp [hmem])).1
  rwa [takeWhile_isDigit_sameFront hback] at hgroup

/-- Replacements of what stands alone that start with no digit leave the digits in front, if any are left. -/
theorem takeWhile_isDigit_alone {α : Type} {find : Finder α} {out : α → List Char} {before text : List Char}
    {ps : List (Piece α)} (h : Scans find before text ps)
    (halone : ∀ before text a after, find before text = some (a, after) → standsAlone before = true)
    (hout : ∀ a covered, .found a covered ∈ ps → ∃ x, (out a).head? = some x ∧ isDigit x = false)
    (hne : (rewritten out ps).takeWhile isDigit ≠ []) :
    (rewritten out ps).takeWhile isDigit = text.takeWhile isDigit := by
  obtain ⟨digits, hdigits⟩ : ∃ digits, (rewritten out ps).takeWhile isDigit = digits := ⟨_, rfl⟩
  have hall : ∀ c ∈ digits, isDigit c = true := fun c hc => List.mem_takeWhile_imp (hdigits ▸ hc)
  have hsplit : rewritten out ps = digits ++ (rewritten out ps).dropWhile isDigit := by
    rw [← hdigits, List.takeWhile_append_dropWhile]
  obtain ⟨back, rfl, hback⟩ := exists_chars_of_rewritten hsplit fun a covered hmem => by
    obtain ⟨x, hx, hdigit⟩ := hout a covered hmem
    refine ⟨x, hx, fun hin => ?_⟩
    rw [hall x hin] at hdigit
    cases hdigit
  have htail : (rewritten out back).takeWhile isDigit = [] := by
    rw [rewritten_append, rewritten_chars, List.takeWhile_append_of_pos hall] at hdigits
    exact List.append_right_eq_self.mp hdigits
  -- No replacement starts behind the last of these digits.
  have hstop : (textOf back).takeWhile isDigit = [] := by
    rcases back with - | ⟨c | ⟨a, covered⟩, back⟩
    · rfl
    · rw [rewritten_char, List.takeWhile_cons] at htail
      rw [textOf_char, List.takeWhile_cons]
      split at htail
      next => cases htail
      next hc => rw [if_neg hc]
    · have hbefore := halone _ _ _ _ h.at_found.2
      obtain ⟨init, d, rfl⟩ := (List.eq_nil_or_concat digits).resolve_left (hdigits ▸ hne)
      simp [standsAlone, isWordChar_of_isDigit (hall d (by simp))] at hbefore
  rw [hdigits, ← h.textOf_eq, textOf_append, textOf_chars, List.takeWhile_append_of_pos hall, hstop,
    List.append_nil]

end RangeCalc.Shorthand
