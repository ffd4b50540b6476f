import RangeCalc.Proofs.Range.Marked

/-!
# The ranges of a text as marks

* `numbered`: a text with its ranges, by number, as marks;
* `RangesApart`: texts in which no range runs into what follows it;
* `isChain_numbered`: the marks of such a text stand apart from what is around them;
* `infix_of_numbered`: what stands between the marks stands in the text.
-/

namespace RangeCalc

open Text Shorthand

/-- A text with its ranges as marks, counted from `index`. An operator stands apart from its range. -/
def numbered : (index : Nat) → List (Segment FoundRange) → List (Segment NumberedRange)
  | _, [] => []
  | index, .char c :: rest => .char c :: numbered index rest
  | index, .found r :: rest => (r.spaced []).map .char ++ .found (index, r.token) :: numbered (index + 1) rest

/-- Whether a range runs into what follows it: a digit, or another range without an operator between them. -/
def Text.Segment.RunsInto : Segment FoundRange → Segment FoundRange → Prop
  | .found _, .char c => isDigit c = true
  | .found _, .found r => r.operator = none
  | .char _, _ => False

instance : DecidableRel Segment.RunsInto
  | .found _, .char c => inferInstanceAs (Decidable (isDigit c = true))
  | .found _, .found r => inferInstanceAs (Decidable (r.operator = none))
  | .char _, _ => inferInstanceAs (Decidable False)

/-- No range runs into what follows it. -/
def RangesApart (text : List Char) : Prop :=
  (segments RangeToken.find text).IsChain fun s t => ¬ s.RunsInto t

instance (text : List Char) : Decidable (RangesApart text) :=
  inferInstanceAs (Decidable (List.IsChain _ _))

section

variable {index : Nat} {segs : List (Segment FoundRange)}

/-- The words that replace ranges are those written for the marks. -/
theorem substituteSegments_eq_written (replace : Nat → RangeToken → List Char) (index : Nat)
    (segs : List (Segment FoundRange)) :
    substituteSegments replace index segs = written (fun r => replace r.1 r.2) (numbered index segs) := by
  induction segs generalizing index with
  | nil => rfl
  | cons s segs ih =>
    rcases s with c | r
    · rw [substituteSegments, numbered, written_char, ih]
    · rw [substituteSegments, numbered, written_append, written_chars, written_found, ih, FoundRange.spaced]
      cases r.operator <;> simp

/-- The marks are the ranges with their numbers. -/
theorem marks_numbered (index : Nat) (segs : List (Segment FoundRange)) :
    (numbered index segs).filterMap Segment.found? =
      (segs.filterMap Segment.found?).mapIdx fun i r => (index + i, r.token) := by
  induction segs generalizing index with
  | nil => rfl
  | cons s segs ih =>
    rcases s with c | r
    · exact ih index
    · have hcount : (fun i (r : FoundRange) => (index + 1 + i, r.token)) = fun i r => (index + (i + 1), r.token) := by
        funext i r
        rw [Nat.add_assoc, Nat.add_comm 1]
      rw [numbered, filterMap_found?_chars, List.filterMap_cons, List.filterMap_cons]
      simp only [Segment.found?, List.mapIdx_cons, ih, hcount, Nat.add_zero]

end

/-! ## What stands around the marks -/

section

variable {before text : List Char} {ps : List (Piece FoundRange)} {index : Nat}

/-- Where a range follows it, a character is no part of a word. -/
theorem isWordPart_before_range {p : Segment FoundRange} {r : FoundRange} {after : List Char} {c : Char}
    (hfind : RangeToken.find before text = some (r, after))
    (hbefore : ∀ c, p = .char c → isWordPart c = true → before.head? = some c) (hp : p = .char c) :
    isWordPart c = false := by
  refine Bool.of_not_eq_true fun hc => ?_
  have halone := standsAlone_iff.mp (RangeToken.find_eq_some hfind).1 c (hbefore c hp hc)
  rw [hc] at halone
  cases halone

/-- The marks stand apart from what is around them, also from the segment in front. -/
theorem isChain_numbered (h : Scans RangeToken.find before text ps) {p : Segment FoundRange}
    {s : Segment NumberedRange} (hps : (p :: ps.map Piece.segment).IsChain fun s t => ¬ s.RunsInto t)
    (hbefore : ∀ c, p = .char c → isWordPart c = true → before.head? = some c)
    (hs : (∃ c, p = .char c ∧ s = .char c) ∨ ∃ r i, p = .found r ∧ s = .found i) :
    (s :: numbered index (ps.map Piece.segment)).IsChain Segment.Parted := by
  induction h generalizing p s index with
  | nil => exact List.isChain_singleton _
  | @char before rest c ps _ _ ih =>
    obtain ⟨hruns, hps⟩ := List.isChain_cons_cons.mp hps
    refine List.isChain_cons_cons.mpr ⟨?_, ih hps (fun d hd _ => ?_) (.inl ⟨c, rfl, rfl⟩)⟩
    · obtain ⟨d, -, rfl⟩ | ⟨r, i, rfl, rfl⟩ := hs
      · trivial
      · exact Bool.of_not_eq_true hruns
    · rw [Segment.char.inj hd]
      rfl
  | @found before covered after r ps _ hsome _ ih =>
    obtain ⟨hruns, hps⟩ := List.isChain_cons_cons.mp hps
    have hrest : (.found (index, r.token) :: numbered (index + 1) (ps.map Piece.segment)).IsChain Segment.Parted :=
      ih hps nofun (.inr ⟨r, _, rfl, rfl⟩)
    rw [List.map_cons, Piece.segment, numbered, FoundRange.spaced]
    cases hoperator : r.operator with
    | none =>
      refine List.isChain_cons_cons.mpr ⟨?_, hrest⟩
      obtain ⟨c, hp, rfl⟩ | ⟨r', i, rfl, rfl⟩ := hs
      · exact isWordPart_before_range hsome hbefore hp
      · exact absurd hoperator hruns
    | some sign =>
      have hspace : isWordPart ' ' = false := by decide +kernel
      refine List.isChain_cons_cons.mpr ⟨?_, List.isChain_cons_cons.mpr ⟨trivial,
        List.isChain_cons_cons.mpr ⟨hspace, hrest⟩⟩⟩
      obtain ⟨c, -, rfl⟩ | ⟨r', i, -, rfl⟩ := hs
      · trivial
      · exact not_isDigit_sign ((RangeToken.find_text hsome).2 sign hoperator)

/-- The ranges of a text stand apart if none runs into what follows it. -/
theorem RangesApart.isChain_numbered {text : List Char} (h : RangesApart text) :
    (numbered 0 (segments RangeToken.find text)).IsChain Segment.Parted := by
  obtain ⟨ps, hps⟩ := Scans.exists_scan RangeToken.find_covers [] text
  rw [RangesApart, hps.segments_eq] at h
  have hspace : (.char ' ' :: ps.map Piece.segment).IsChain fun s t : Segment FoundRange => ¬ s.RunsInto t :=
    h.cons fun _ _ => id
  rw [hps.segments_eq]
  refine (RangeCalc.isChain_numbered hps hspace (fun c hc hpart => ?_) (.inl ⟨' ', rfl, rfl⟩)).of_cons
  obtain rfl := Segment.char.inj hc
  exact absurd hpart (by decide +kernel)

/-! ## Names between the marks -/

theorem not_isNameStart_of_mem_spaced {r : FoundRange} {after : List Char}
    (h : RangeToken.find before text = some (r, after)) : ∀ c ∈ r.spaced [], isNameStart c = false := by
  rw [FoundRange.spaced]
  cases hoperator : r.operator with
  | none => exact List.forall_mem_nil _
  | some sign =>
    refine List.forall_mem_cons.mpr ⟨?_, List.forall_mem_singleton.mpr (by decide)⟩
    rcases (RangeToken.find_text h).2 sign hoperator with rfl | rfl <;> decide

variable {name : List Char}

/-- No name starts where an operator or a mark stands. -/
theorem eq_nil_of_prefix_mark {ι : Type} {out : List Char} {i : ι} {m : List (Segment ι)}
    (hname : ∀ c ∈ name, isNameStart c = true) (hout : ∀ c ∈ out, isNameStart c = false)
    (h : name.map .char <+: out.map .char ++ .found i :: m) : name = [] := by
  rcases name with - | ⟨d, name⟩
  · rfl
  · rcases out with - | ⟨o, out⟩
    · cases (List.cons_prefix_cons.mp h).1
    · obtain rfl := Segment.char.inj (List.cons_prefix_cons.mp h).1
      have hd := hname d List.mem_cons_self
      rw [hout d List.mem_cons_self] at hd
      cases hd

theorem prefix_of_numbered (hname : ∀ c ∈ name, isNameStart c = true) (h : Scans RangeToken.find before text ps)
    (hpre : name.map .char <+: numbered index (ps.map Piece.segment)) : name <+: text := by
  induction h generalizing name index with
  | nil =>
    rw [List.map_eq_nil_iff.mp (List.prefix_nil.mp hpre)]
  | char _ _ ih =>
    rcases name with - | ⟨d, name⟩
    · exact List.nil_prefix
    · obtain ⟨heq, hrest⟩ := List.cons_prefix_cons.mp hpre
      exact List.cons_prefix_cons.mpr ⟨Segment.char.inj heq, ih (List.forall_mem_cons.mp hname).2 hrest⟩
  | found _ hsome _ _ =>
    rw [eq_nil_of_prefix_mark hname (not_isNameStart_of_mem_spaced hsome) hpre]
    exact List.nil_prefix

/-- A name that stands between the marks stands in the text. -/
theorem infix_of_numbered (hne : name ≠ []) (hname : ∀ c ∈ name, isNameStart c = true)
    (h : Scans RangeToken.find before text ps)
    (hocc : name.map .char <:+: numbered index (ps.map Piece.segment)) : name <:+: text := by
  induction h generalizing index with
  | nil =>
    exact absurd (List.map_eq_nil_iff.mp (List.infix_nil.mp hocc)) hne
  | char hnone h ih =>
    rcases List.infix_cons_iff.mp hocc with hpre | hocc
    · exact (prefix_of_numbered hname (.char hnone h) hpre).isInfix
    · exact (ih hocc).trans (List.suffix_cons _ _).isInfix
  | @found before covered after r ps _ hsome _ ih =>
    have hforeign : ∀ c ∈ r.spaced [], ¬ isNameStart c = true := fun c hc => by
      simp [not_isNameStart_of_mem_spaced hsome c hc]
    rcases List.infix_cons_iff.mp (infix_of_chars_append hne hname hforeign hocc) with hpre | hocc
    · have hmark : name.map .char <+: [].map .char ++ .found (index, r.token) :: numbered (index + 1) _ := hpre
      exact absurd (eq_nil_of_prefix_mark hname (List.forall_mem_nil _) hmark) hne
    · exact (ih hocc).trans (List.suffix_append _ _).isInfix

/-- The stem of the placeholders of a text does not stand between its marks. -/
theorem not_stem_infix_numbered {text : List Char} {n : Nat} (hfree : ¬ stemWith n <:+: text) :
    ¬ (stemWith n).map .char <:+: numbered 0 (segments RangeToken.find text) := by
  obtain ⟨ps, hps⟩ := Scans.exists_scan RangeToken.find_covers [] text
  rw [hps.segments_eq]
  exact fun h => hfree (infix_of_numbered (stemWith_ne_nil n) isNameStart_of_mem_stemWith hps h)

end

end RangeCalc
