import RangeCalc.Text.Segment

/-!
# Occurrences with the text that they cover

* `Piece`: a segment together with its text;
* `Scans`: how a finder cuts a text into pieces, one constructor for each kind of place;
* `Scans.segments_eq`: the segments are those of the pieces;
* `Scans.at_found`: an occurrence is what the finder recognises at its place;
* `Scans.exists_found`: what the finder recognises at a place is an occurrence, unless an earlier one
  covers the place.
-/

namespace RangeCalc.Text

/-- A character that belongs to no occurrence, or an occurrence with the text that it covers. -/
inductive Piece (α : Type) where
  | char (c : Char)
  | found (a : α) (covered : List Char)

variable {α : Type}

def Piece.text : Piece α → List Char
  | char c => [c]
  | found _ covered => covered

def Piece.segment : Piece α → Segment α
  | char c => .char c
  | found a _ => .found a

/-- The text of some pieces. -/
def textOf (ps : List (Piece α)) : List Char :=
  ps.flatMap Piece.text

@[simp]
theorem textOf_nil : textOf ([] : List (Piece α)) = [] := rfl

@[simp]
theorem textOf_char (c : Char) (ps : List (Piece α)) : textOf (.char c :: ps) = c :: textOf ps := rfl

@[simp]
theorem textOf_found (a : α) (covered : List Char) (ps : List (Piece α)) :
    textOf (.found a covered :: ps) = covered ++ textOf ps := rfl

@[simp]
theorem textOf_append (ps qs : List (Piece α)) : textOf (ps ++ qs) = textOf ps ++ textOf qs := by
  simp [textOf]

@[simp]
theorem textOf_chars (cs : List Char) : textOf (cs.map Piece.char : List (Piece α)) = cs := by
  induction cs with
  | nil => rfl
  | cons c cs ih => rw [List.map_cons, textOf_char, ih]

/-- A finder that recognises an occurrence covers some text at the front, and the rest follows. -/
def Finder.Covers (find : Finder α) : Prop :=
  ∀ before text a after, find before text = some (a, after) →
    ∃ covered, covered ≠ [] ∧ text = covered ++ after

/-- How a finder cuts a text, of which `before` has been passed, into pieces. -/
inductive Scans (find : Finder α) : (before text : List Char) → List (Piece α) → Prop where
  | nil {before : List Char} : Scans find before [] []
  | char {before rest : List Char} {c : Char} {ps : List (Piece α)} (hnone : find before (c :: rest) = none)
      (h : Scans find (c :: before) rest ps) : Scans find before (c :: rest) (.char c :: ps)
  | found {before covered after : List Char} {a : α} {ps : List (Piece α)} (hne : covered ≠ [])
      (hsome : find before (covered ++ after) = some (a, after))
      (h : Scans find (covered.reverse ++ before) after ps) :
      Scans find before (covered ++ after) (.found a covered :: ps)

/-- The pieces at the front are characters where no occurrence starts. -/
theorem exists_chars_front {ps : List (Piece α)} {part post : List Char} (htext : textOf ps = part ++ post)
    (hfree : ∀ front a covered back, ps = front ++ .found a covered :: back →
      part.length ≤ (textOf front).length) :
    ∃ back, ps = part.map .char ++ back := by
  induction part generalizing ps with
  | nil => exact ⟨ps, rfl⟩
  | cons c part ih =>
    rcases ps with - | ⟨d | ⟨a, covered⟩, ps⟩
    · cases htext
    · rw [textOf_char, List.cons_append, List.cons.injEq] at htext
      obtain ⟨rfl, htext⟩ := htext
      obtain ⟨back, rfl⟩ := ih htext fun front a covered back hps => by
        simpa using hfree (.char d :: front) a covered back (by rw [hps, List.cons_append])
      exact ⟨back, rfl⟩
    · simpa using hfree [] a covered ps rfl

/-- The pieces of a stretch of text that no occurrence touches are its characters. -/
theorem exists_chars {ps : List (Piece α)} {pre part post : List Char} (hpart : part ≠ [])
    (htext : textOf ps = pre ++ (part ++ post))
    (hne : ∀ a covered, .found a covered ∈ ps → covered ≠ [])
    (hfree : ∀ front a covered back, ps = front ++ .found a covered :: back →
      (textOf front).length + covered.length ≤ pre.length ∨
        pre.length + part.length ≤ (textOf front).length) :
    ∃ front back, ps = front ++ part.map .char ++ back ∧ textOf front = pre := by
  have hpos := List.length_pos_iff.mpr hpart
  induction ps generalizing pre with
  | nil => simp [hpart] at htext
  | cons p ps ih =>
    rcases pre with - | ⟨c, pre⟩
    · rw [List.nil_append] at htext
      obtain ⟨back, hback⟩ := exists_chars_front htext fun front a covered back hps => by
        have := List.length_pos_iff.mpr (hne a covered (by simp [hps]))
        have := hfree front a covered back hps
        simp only [List.length_nil] at this
        omega
      exact ⟨[], back, hback, rfl⟩
    have hne' : ∀ a covered, .found a covered ∈ ps → covered ≠ [] :=
      fun a covered hmem => hne a covered (List.mem_cons_of_mem _ hmem)
    rcases p with d | ⟨b, covering⟩
    · rw [textOf_char, List.cons_append, List.cons.injEq] at htext
      obtain ⟨rfl, htext⟩ := htext
      obtain ⟨front, back, rfl, rfl⟩ := ih htext hne' fun front a covered back hps => by
        have := hfree (.char d :: front) a covered back (by rw [hps, List.cons_append])
        simp only [textOf_char, List.length_cons] at this
        omega
      exact ⟨.char d :: front, back, rfl, rfl⟩
    · have hle : covering.length ≤ (c :: pre).length := by
        have := hfree [] b covering ps rfl
        simp only [textOf_nil, List.length_nil, List.length_cons] at this ⊢
        omega
      obtain ⟨pre', hpre, hrest⟩ : ∃ pre', c :: pre = covering ++ pre' ∧
        textOf ps = pre' ++ (part ++ post) := by
        rw [textOf_found] at htext
        rcases List.append_eq_append_iff.mp htext with ⟨pre', hpre, hrest⟩ | ⟨z, hz, hrest⟩
        · exact ⟨pre', hpre, hrest⟩
        · have hlength := congrArg List.length hz
          rw [List.length_append] at hlength
          obtain rfl : z = [] := List.eq_nil_of_length_eq_zero (by omega)
          exact ⟨[], by simpa using hz.symm, by simpa using hrest.symm⟩
      obtain ⟨front, back, rfl, rfl⟩ := ih hrest hne' fun front a covered back hps => by
        have := hfree (.found b covering :: front) a covered back (by rw [hps, List.cons_append])
        rw [hpre, textOf_found, List.length_append, List.length_append] at this
        omega
      exact ⟨.found b covering :: front, back, rfl, hpre.symm⟩

namespace Scans

variable {find : Finder α} {before text : List Char} {ps : List (Piece α)}

theorem textOf_eq (h : Scans find before text ps) : textOf ps = text := by
  induction h with
  | nil => rfl
  | char _ _ ih => rw [textOf_char, ih]
  | found _ _ _ ih => rw [textOf_found, ih]

theorem segmentsFrom_skip (find : Finder α) (before covered after : List Char) :
    segmentsFrom find before covered.length (covered ++ after) =
      segmentsFrom find (covered.reverse ++ before) 0 after := by
  induction covered generalizing before with
  | nil => rfl
  | cons c covered ih =>
    rw [List.length_cons, List.cons_append, segmentsFrom, ih, List.reverse_cons, List.append_assoc,
      List.singleton_append]

/-- The segments go on behind an occurrence. -/
theorem segmentsFrom_found {covered after : List Char} {a : α} (hne : covered ≠ [])
    (hsome : find before (covered ++ after) = some (a, after)) :
    segmentsFrom find before 0 (covered ++ after) =
      .found a :: segmentsFrom find (covered.reverse ++ before) 0 after := by
  obtain ⟨c, covered, rfl⟩ := List.exists_cons_of_ne_nil hne
  rw [List.cons_append] at hsome ⊢
  rw [segmentsFrom, hsome]
  simp only [List.length_append, Nat.add_sub_cancel, segmentsFrom_skip, List.reverse_cons,
    List.append_assoc, List.singleton_append]

theorem segmentsFrom_eq (h : Scans find before text ps) :
    segmentsFrom find before 0 text = ps.map Piece.segment := by
  induction h with
  | nil => rfl
  | char hnone _ ih => rw [segmentsFrom, hnone, List.map_cons, ← ih, Piece.segment]
  | @found before covered after a ps hne hsome _ ih =>
    rw [segmentsFrom_found hne hsome, List.map_cons, ← ih, Piece.segment]

theorem segments_eq (h : Scans find [] text ps) : segments find text = ps.map Piece.segment :=
  h.segmentsFrom_eq

/-- Every text is cut into pieces. -/
theorem exists_scan (hfind : find.Covers) (before text : List Char) : ∃ ps, Scans find before text ps := by
  induction hn : text.length using Nat.strongRecOn generalizing before text with
  | ind n ih =>
    subst hn
    rcases text with - | ⟨c, rest⟩
    · exact ⟨[], .nil⟩
    cases h : find before (c :: rest) with
    | none =>
      obtain ⟨ps, hps⟩ := ih _ (Nat.lt_succ_self _) (c :: before) rest rfl
      exact ⟨_, .char h hps⟩
    | some result =>
      obtain ⟨a, after⟩ := result
      obtain ⟨covered, hne, hsplit⟩ := hfind _ _ _ _ h
      rw [hsplit] at h ih ⊢
      have hlength : after.length < (covered ++ after).length := by
        have := List.length_pos_iff.mpr hne
        rw [List.length_append]
        omega
      obtain ⟨ps, hps⟩ := ih _ hlength (covered.reverse ++ before) after rfl
      exact ⟨_, .found hne h hps⟩

/-- Where some pieces end, the scan goes on with what has been passed. -/
theorem drop {front back : List (Piece α)} (h : Scans find before text (front ++ back)) :
    Scans find ((textOf front).reverse ++ before) (textOf back) back := by
  induction front generalizing before text with
  | nil =>
    rw [List.nil_append] at h
    rw [h.textOf_eq]
    exact h
  | cons p front ih =>
    rw [List.cons_append] at h
    cases h with
    | char _ h => simpa using ih h
    | found _ _ h => simpa using ih h

/-- An occurrence is what the finder recognises at its place. -/
theorem at_found {front back : List (Piece α)} {a : α} {covered : List Char}
    (h : Scans find before text (front ++ .found a covered :: back)) :
    covered ≠ [] ∧
      find ((textOf front).reverse ++ before) (covered ++ textOf back) = some (a, textOf back) := by
  have hdrop := h.drop
  rw [textOf_found] at hdrop
  generalize hrest : covered ++ textOf back = rest at hdrop
  cases hdrop with
  | found hne hsome _ =>
    obtain rfl := List.append_cancel_left hrest
    exact ⟨hne, hsome⟩

theorem covered_ne_nil {a : α} {covered : List Char} (h : Scans find before text ps)
    (hmem : .found a covered ∈ ps) : covered ≠ [] := by
  obtain ⟨front, back, rfl⟩ := List.append_of_mem hmem
  exact h.at_found.1

/-- What the finder recognises at a place is an occurrence, unless an earlier one covers the place. -/
theorem exists_found {x y after : List Char} {a : α} (hfind : find.Covers)
    (h : Scans find before (x ++ y) ps) (ha : find (x.reverse ++ before) y = some (a, after))
    (hfree : ∀ front b covered back, ps = front ++ .found b covered :: back →
      (textOf front).length < x.length → (textOf front).length + covered.length ≤ x.length) :
    ∃ front covered back, ps = front ++ .found a covered :: back ∧ textOf front = x := by
  generalize htext : x ++ y = text at h
  induction h generalizing x with
  | nil =>
    obtain ⟨covered, hne, hy⟩ := hfind _ _ _ _ ha
    rw [(List.append_eq_nil_iff.mp htext).2] at hy
    exact absurd (List.append_eq_nil_iff.mp hy.symm).1 hne
  | @char before rest c ps hnone h ih =>
    rcases x with - | ⟨d, x⟩
    · obtain rfl : y = c :: rest := htext
      rw [List.reverse_nil, List.nil_append, hnone] at ha
      cases ha
    · obtain ⟨rfl, hrest⟩ := List.cons.inj htext
      obtain ⟨front, covered, back, rfl, rfl⟩ := ih (by simpa using ha)
        (fun front b covered back hps hlt => by
          have := hfree (.char d :: front) b covered back (by rw [hps, List.cons_append]) (by simpa using hlt)
          simp only [textOf_char, List.length_cons] at this
          omega) hrest
      exact ⟨.char d :: front, covered, back, rfl, rfl⟩
  | @found before covered rest b ps hne hsome h ih =>
    rcases x with - | ⟨d, x⟩
    · obtain rfl : y = covered ++ rest := htext
      rw [List.reverse_nil, List.nil_append, hsome] at ha
      obtain ⟨rfl, rfl⟩ := Prod.mk.inj (Option.some.inj ha)
      exact ⟨[], covered, ps, rfl, rfl⟩
    · have hle : covered.length ≤ (d :: x).length := by
        simpa using hfree [] b covered ps rfl (Nat.succ_pos _)
      obtain ⟨x', hx, hrest⟩ : ∃ x', d :: x = covered ++ x' ∧ x' ++ y = rest := by
        rcases List.append_eq_append_iff.mp htext with ⟨z, hz, hy⟩ | ⟨x', hx, hrest⟩
        · have hlength := congrArg List.length hz
          rw [List.length_append] at hlength
          obtain rfl : z = [] := List.eq_nil_of_length_eq_zero (by omega)
          exact ⟨[], by simpa using hz.symm, hy⟩
        · exact ⟨x', hx, hrest.symm⟩
      rw [hx, List.reverse_append, List.append_assoc] at ha
      obtain ⟨front, covered', back, rfl, rfl⟩ := ih ha (fun front b' covered' back hps hlt => by
        have := hfree (.found b covered :: front) b' covered' back (by rw [hps, List.cons_append])
        rw [hx, textOf_found, List.length_append, List.length_append] at this
        omega) hrest
      exact ⟨.found b covered :: front, covered', back, rfl, hx.symm⟩

/-- Where an occurrence ends inside a stretch of text, it ends with the front of that stretch. -/
theorem ends_inside {pre part post covered : List Char} {a : α} {front back : List (Piece α)}
    (h : Scans find before (pre ++ (part ++ post)) (front ++ .found a covered :: back))
    (hbefore : (textOf front).length ≤ pre.length)
    (hstart : pre.length < (textOf front).length + covered.length)
    (hstop : (textOf front).length + covered.length < pre.length + part.length) :
    ∃ z head tail, covered = z ++ head ∧ textOf front ++ z = pre ∧
    part = head ++ tail ∧ head ≠ [] ∧
      tail ≠ [] := by
  have htext := h.textOf_eq
  rw [textOf_append, textOf_found] at htext
  obtain ⟨z, hz, hrest⟩ : ∃ z, pre = textOf front ++ z ∧
    covered ++ textOf back = z ++ (part ++ post) := by
    rcases List.append_eq_append_iff.mp htext with ⟨z, hz, hrest⟩ | ⟨z, hz, hrest⟩
    · exact ⟨z, hz, hrest⟩
    · have hnil : z = [] := by
        refine List.eq_nil_of_length_eq_zero ?_
        rw [hz, List.length_append] at hbefore
        omega
      subst hnil
      exact ⟨[], by simpa using hz.symm, by simpa using hrest.symm⟩
  obtain ⟨head, rfl, hback⟩ : ∃ head, covered = z ++ head ∧ part ++ post = head ++ textOf back := by
    rcases List.append_eq_append_iff.mp hrest with ⟨w, hw, -⟩ | ⟨head, hhead, hback⟩
    · rw [hz, List.length_append, hw, List.length_append] at hstart
      omega
    · exact ⟨head, hhead, hback⟩
  rw [hz, List.length_append, List.length_append] at hstart hstop
  obtain ⟨tail, rfl, -⟩ : ∃ tail, part = head ++ tail ∧ textOf back = tail ++ post := by
    rcases List.append_eq_append_iff.mp hback with ⟨w, rfl, -⟩ | ⟨tail, htail, hpost⟩
    · rw [List.length_append] at hstop
      omega
    · exact ⟨tail, htail, hpost⟩
  rw [List.length_append] at hstop
  refine ⟨z, head, tail, rfl, hz.symm, rfl, ?_, ?_⟩
  · rintro rfl
    simp at hstart
  · rintro rfl
    simp only [List.length_nil] at hstop
    omega

end Scans

theorem occursIn_iff {part text : List Char} : occursIn part text = true ↔ part <:+: text := by
  induction text with
  | nil => simp [occursIn]
  | cons c rest ih =>
    rw [occursIn, Bool.or_eq_true, List.isPrefixOf_iff_prefix, ih, List.infix_cons_iff]

end RangeCalc.Text
