import Mathlib.Data.List.Induction
import RangeCalc.Proofs.Text.Segment

/-!
# Texts with occurrences replaced

* `rewritten`: the text of some pieces with each occurrence replaced;
* `Scans.at_char`, `Scans.exists_at`: what the finder says at the place of a piece;
* `exists_piece`: a character of that text stands in a character or in a replacement;
* `exists_chars_of_rewritten`, `exists_chars_end`: a front of that text at which no replacement can start,
  and an end at which none can end;
* `last_rewritten`: what is known of the last character before a place;
* `Free`: no place of a text has a property;
* `replaceEach_of_free`: a text in which a finder recognises nothing is left as it is.
-/

namespace RangeCalc.Text

variable {α : Type}

/-- The text of a piece with an occurrence replaced. -/
def Piece.rewritten (out : α → List Char) : Piece α → List Char
  | char c => [c]
  | found a _ => out a

/-- The text of some pieces with each occurrence replaced. -/
def rewritten (out : α → List Char) (ps : List (Piece α)) : List Char :=
  ps.flatMap (Piece.rewritten out)

variable {out : α → List Char} {ps qs : List (Piece α)} {a : α} {covered : List Char} {c : Char}

@[simp]
theorem rewritten_nil : rewritten out [] = [] := rfl

@[simp]
theorem rewritten_char : rewritten out (.char c :: ps) = c :: rewritten out ps := rfl

@[simp]
theorem rewritten_found : rewritten out (.found a covered :: ps) = out a ++ rewritten out ps := rfl

@[simp]
theorem rewritten_append : rewritten out (ps ++ qs) = rewritten out ps ++ rewritten out qs := by
  simp [rewritten]

@[simp]
theorem rewritten_chars (cs : List Char) : rewritten out (cs.map .char) = cs := by
  induction cs with
  | nil => rfl
  | cons c cs ih => rw [List.map_cons, rewritten_char, ih]

/-- A text with each occurrence replaced, by its pieces. -/
theorem Scans.replaceEach_eq {rule : Finder (List Char)} {text : List Char} {ps : List (Piece (List Char))}
    (h : Scans rule [] text ps) : replaceEach rule text = rewritten id ps := by
  rw [replaceEach, h.segments_eq, List.flatMap_map, rewritten]
  congr 1
  funext p
  cases p <;> rfl

/-! ## Places -/

/-- Where a piece is a character, the finder recognises nothing. -/
theorem Scans.at_char {find : Finder α} {before text : List Char} {front back : List (Piece α)}
    (h : Scans find before text (front ++ .char c :: back)) :
    find ((textOf front).reverse ++ before) (c :: textOf back) = none := by
  have hdrop := h.drop
  rw [textOf_char] at hdrop
  generalize c :: textOf back = rest at hdrop ⊢
  cases hdrop with
  | char hnone _ => exact hnone

/-- An occurrence was recognised somewhere. -/
theorem Scans.exists_at {find : Finder α} {before text : List Char} (h : Scans find before text ps)
    (hmem : .found a covered ∈ ps) : ∃ before' after, find before' (covered ++ after) = some (a, after) := by
  obtain ⟨front, back, rfl⟩ := List.append_of_mem hmem
  exact ⟨_, _, h.at_found.2⟩

/-- A character is one of the text, or it stands in a replacement. -/
theorem exists_piece {pre post : List Char} (h : rewritten out ps = pre ++ c :: post) :
    (∃ front back, ps = front ++ .char c :: back ∧ rewritten out front = pre ∧
      rewritten out back = post) ∨
    ∃ front a covered back u v, ps = front ++ .found a covered :: back ∧ out a = u ++ c :: v ∧
      pre = rewritten out front ++ u ∧ post = v ++ rewritten out back := by
  induction ps generalizing pre with
  | nil => simp at h
  | cons p ps ih =>
    rcases p with d | ⟨a, covered⟩
    · rw [rewritten_char] at h
      rcases pre with - | ⟨e, pre⟩
      · obtain ⟨rfl, rfl⟩ := List.cons.inj h
        exact .inl ⟨[], ps, rfl, rfl, rfl⟩
      · obtain ⟨rfl, hrest⟩ := List.cons.inj h
        rcases ih hrest with ⟨front, back, rfl, rfl, rfl⟩ | ⟨front, a, covered, back, u, v, rfl, hu, rfl, rfl⟩
        · exact .inl ⟨.char d :: front, back, rfl, rfl, rfl⟩
        · exact .inr ⟨.char d :: front, a, covered, back, u, v, rfl, hu, rfl, rfl⟩
    · rw [rewritten_found] at h
      have hbeyond : ∀ pre', pre = out a ++ pre' → rewritten out ps = pre' ++ c :: post →
          (∃ front back, .found a covered :: ps = front ++ .char c :: back ∧ rewritten out front = pre ∧
            rewritten out back = post) ∨
          ∃ front b covering back u v, .found a covered :: ps = front ++ .found b covering :: back ∧
            out b = u ++ c :: v ∧ pre = rewritten out front ++ u ∧ post = v ++ rewritten out back := by
        rintro pre' rfl hrest
        rcases ih hrest with ⟨front, back, rfl, rfl, rfl⟩ | ⟨front, b, covering, back, u, v, rfl, hu, rfl, rfl⟩
        · exact .inl ⟨.found a covered :: front, back, rfl, rfl, rfl⟩
        · exact .inr ⟨.found a covered :: front, b, covering, back, u, v, rfl, hu, by simp, rfl⟩
      rcases List.append_eq_append_iff.mp h with ⟨pre', hpre, hrest⟩ | ⟨z, hz, hrest⟩
      · exact hbeyond pre' hpre hrest
      · rcases z with - | ⟨d, z⟩
        · exact hbeyond [] (by simpa using hz.symm) hrest.symm
        · obtain ⟨rfl, rfl⟩ := List.cons.inj hrest
          exact .inr ⟨[], a, covered, ps, pre, z, rfl, hz, rfl, rfl⟩

/-- A front of the text with replacements, at whose characters no replacement can start, consists of
characters. -/
theorem exists_chars_of_rewritten {part post : List Char} (h : rewritten out ps = part ++ post)
    (hout : ∀ a covered, .found a covered ∈ ps → ∃ x, (out a).head? = some x ∧ x ∉ part) :
    ∃ back, ps = part.map .char ++ back ∧ rewritten out back = post := by
  induction part generalizing ps with
  | nil => exact ⟨ps, rfl, h⟩
  | cons d part ih =>
    rcases ps with - | ⟨e | ⟨a, covered⟩, ps⟩
    · cases h
    · obtain ⟨rfl, hrest⟩ := List.cons.inj h
      obtain ⟨back, rfl, rfl⟩ := ih hrest fun a covered hmem =>
        (hout a covered (List.mem_cons_of_mem _ hmem)).imp fun x hx =>
          ⟨hx.1, fun hin => hx.2 (List.mem_cons_of_mem _ hin)⟩
      exact ⟨back, rfl, rfl⟩
    · obtain ⟨x, hx, hnot⟩ := hout a covered List.mem_cons_self
      obtain ⟨tail, htail⟩ := List.head?_eq_some_iff.mp hx
      rw [rewritten_found, htail, List.cons_append] at h
      rw [(List.cons.inj h).1] at hnot
      exact absurd List.mem_cons_self hnot

/-- The end of the text with replacements, at whose characters no replacement can end, consists of
characters. -/
theorem exists_chars_end {pre part : List Char} (h : rewritten out ps = pre ++ part)
    (hout : ∀ a covered, .found a covered ∈ ps → ∃ x, (out a).getLast? = some x ∧ x ∉ part) :
    ∃ front, ps = front ++ part.map .char ∧ rewritten out front = pre := by
  induction part using List.reverseRecOn generalizing ps with
  | nil => exact ⟨ps, by simp, by simpa using h⟩
  | append_singleton part d ih =>
    rw [← List.append_assoc] at h
    rcases List.eq_nil_or_concat ps with rfl | ⟨front, e | ⟨a, covered⟩, rfl⟩
    · simp at h
    · rw [List.concat_eq_append, rewritten_append, rewritten_char, rewritten_nil] at h
      obtain ⟨hfront, heq⟩ := List.append_inj' h rfl
      obtain ⟨front, rfl, rfl⟩ := ih hfront fun a covered hmem =>
        (hout a covered (by simp [hmem])).imp fun x hx => ⟨hx.1, fun hin => hx.2 (by simp [hin])⟩
      exact ⟨front, by simp [List.singleton_inj.mp heq], rfl⟩
    · obtain ⟨x, hx, hnot⟩ := hout a covered (by simp)
      obtain ⟨init, hinit⟩ := List.getLast?_eq_some_iff.mp hx
      have hlast := congrArg List.getLast? h
      simp [hinit] at hlast
      exact absurd (by simp [hlast]) hnot

/-- What a replacement's last character shares with that of the text it covers, the last characters of two
texts share. -/
theorem last_rewritten {β : Type} (f : Option Char → β)
    (h : ∀ a covered, .found a covered ∈ ps →
      out a ≠ [] ∧ covered ≠ [] ∧ f (out a).getLast? = f covered.getLast?) :
    f (rewritten out ps).getLast? = f (textOf ps).getLast? := by
  rcases List.eq_nil_or_concat ps with rfl | ⟨front, p, rfl⟩
  · rfl
  · rcases p with c | ⟨a, covered⟩
    · simp
    · obtain ⟨hout, hcovered, hlast⟩ := h a covered (by simp)
      rw [List.getLast?_eq_some_getLast hout, List.getLast?_eq_some_getLast hcovered] at hlast
      simp only [List.concat_eq_append, rewritten_append, textOf_append, rewritten_found, textOf_found,
        rewritten_nil, textOf_nil, List.append_nil, List.getLast?_append,
        List.getLast?_eq_some_getLast hout, List.getLast?_eq_some_getLast hcovered, Option.some_or, hlast]

/-! ## Texts without occurrences -/

/-- No place of a text has a property, which is one of what stands before the place, nearest first, and
of the text from there on. -/
def Free (P : List Char → List Char → Prop) (text : List Char) : Prop :=
  ∀ pre post, text = pre ++ post → ¬ P pre.reverse post

/-- A finder recognises something at a place. -/
def Found (find : Finder α) (before text : List Char) : Prop :=
  (find before text).isSome = true

theorem segments_of_free {find : Finder α} {text : List Char} (h : Free (Found find) text) :
    segments find text = text.map .char := by
  have hscan : ∀ pre post, text = pre ++ post → segmentsFrom find pre.reverse 0 post = post.map .char := by
    intro pre post heq
    induction post generalizing pre with
    | nil => rfl
    | cons c post ih =>
      have hnone : find pre.reverse (c :: post) = none := Option.not_isSome_iff_eq_none.mp (h pre _ heq)
      have hnext := ih (pre ++ [c]) (by simpa using heq)
      rw [List.reverse_append, List.reverse_singleton, List.singleton_append] at hnext
      rw [segmentsFrom, hnone, hnext]
      rfl
  exact hscan [] text rfl

theorem replaceEach_of_free {rule : Finder (List Char)} {text : List Char} (h : Free (Found rule) text) :
    replaceEach rule text = text := by
  rw [replaceEach, segments_of_free h, List.flatMap_map]
  exact List.flatMap_singleton' text

end RangeCalc.Text
