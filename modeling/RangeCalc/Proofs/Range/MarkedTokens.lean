import RangeCalc.Proofs.Formula.Squeeze
import RangeCalc.Proofs.Range.IntervalPhrase
import RangeCalc.Proofs.Range.Marked

/-!
# The tokens of texts with marks

No token stands on both sides of a mark's edge, so that a text has the tokens of what stands between its marks and
those of the words that are written for the marks.

* `SplitsMarked`: the tokens and marks of a text with marks;
* `splits_written_iff`: the tokens of the text with words for its marks;
* `Spelling.cutsApart_before`, `Spelling.cutsApart_behind`: the edges of a mark;
* `Settled.spaced`: white space does not matter.
-/

namespace RangeCalc

open Text Shorthand

/-! ## Tokens between marks -/

/-- The tokens and the marks of a text with marks, in order. -/
inductive SplitsMarked {ι : Type} : List (Segment ι) → List (Token ⊕ ι) → Prop where
  | chars {cs : List Char} {ts : List Token} (h : Splits cs ts) : SplitsMarked (cs.map .char) (ts.map .inl)
  | mark {cs : List Char} {ts : List Token} {i : ι} {m : List (Segment ι)} {ms : List (Token ⊕ ι)} (h : Splits cs ts)
      (hrest : SplitsMarked m ms) : SplitsMarked (cs.map .char ++ .found i :: m) (ts.map .inl ++ .inr i :: ms)

section

variable {ι : Type}

/-- A text with marks consists of the stretches before marks and the stretch behind the last one. -/
theorem stretch_induction {P : List (Segment ι) → Prop} (chars : ∀ cs : List Char, P (cs.map .char))
    (mark : ∀ (cs : List Char) (i : ι) m, P m → P (cs.map .char ++ .found i :: m)) (m : List (Segment ι)) : P m := by
  have hstretch : ∀ cs : List Char, P (cs.map .char ++ m) := by
    induction m with
    | nil => exact fun cs => by simpa using chars cs
    | cons s m ih =>
      rcases s with c | i
      · exact fun cs => by simpa using ih (cs ++ [c])
      · exact fun cs => mark cs i m (by simpa using ih [])
  simpa using hstretch []

end

/-! ## The edges of names -/

section

variable {x y l : List Char} {c d : Char}

theorem isNameChar_iff : isNameChar c = true ↔ isNameStart c = true ∨ c.isDigit = true := by
  simp [isNameChar, Char.isDigit, UInt32.le_iff_toNat_le]

theorem IsName.mem (hl : IsName l) (hc : c ∈ l) : isNameChar c = true := by
  obtain ⟨hfirst, hothers⟩ := hl
  rcases List.mem_cons.mp hc with rfl | hc
  · rw [isNameChar, hfirst, Bool.true_or]
  · exact hothers c hc

/-- A token with a letter or an underscore in it is a name, unless it is a literal with an exponent. -/
theorem isName_of_mem (hl : IsTokenText l) (hd : isNameStart d = true) (hne : d ≠ 'e' ∧ d ≠ 'E') (hmem : d ∈ l) :
    IsName l := by
  have hmark : ∀ x, isNameStart x = false → d ≠ x := by
    rintro x hx rfl
    rw [hd] at hx
    cases hx
  obtain ⟨t, ht, rfl⟩ := hl
  cases t with
  | name l => exact ht
  | number l =>
    rcases IsNumber.mem ht hmem with (h | h) | h | h | h
    · rw [not_isDigit_of_isNameStart hd] at h
      cases h
    · exact absurd h (hmark '.' (by decide))
    · exact absurd h (by simpa using hne)
    · exact absurd h (hmark '+' (by decide))
    · exact absurd h (hmark '-' (by decide))
  | doubleStar =>
    obtain rfl : d = '*' := by simpa [Token.chars] using hmem
    cases hd
  | _ => exact absurd (List.mem_singleton.mp hmem) (hmark _ (by decide))

/-- A cut before a name, behind what is no part of a word. -/
theorem cutsApart_before_name (hx : ∀ c ∈ x.getLast?, isWordPart c = false) (hd : isNameStart d = true)
    (hne : d ≠ 'e' ∧ d ≠ 'E') : CutsApart x (d :: y) := by
  intro z₁ z₂ h₁ h₂ hleft hright hl
  obtain ⟨z₁, c, rfl⟩ := (List.eq_nil_or_concat z₁).resolve_left h₁
  obtain ⟨e, z₂, rfl⟩ := List.exists_cons_of_ne_nil h₂
  obtain ⟨rfl, -⟩ := List.cons_prefix_cons.mp hright
  obtain ⟨w, rfl⟩ := hleft
  have hpart : isWordPart c = false := hx c (by simp)
  have hchar := (isName_of_mem hl hd hne (by simp)).mem (c := c) (by simp)
  rw [isWordPart, isWordChar_of_isNameChar hchar, Bool.true_or] at hpart
  cases hpart

/-- A cut behind a name, before what does not belong to it. -/
theorem cutsApart_behind_name (hd : isNameStart d = true) (hne : d ≠ 'e' ∧ d ≠ 'E')
    (hy : ∀ c ∈ y.head?, isNameChar c = false) : CutsApart (x ++ [d]) y := by
  intro z₁ z₂ h₁ h₂ hleft hright hl
  obtain ⟨z₁, rfl, -⟩ := (List.suffix_concat_iff.mp hleft).resolve_left h₁
  obtain ⟨c, z₂, rfl⟩ := List.exists_cons_of_ne_nil h₂
  obtain ⟨tail, rfl⟩ := hright
  have hstop : isNameChar c = false := hy c rfl
  rw [(isName_of_mem hl hd hne (by simp)).mem (by simp)] at hstop
  cases hstop

end

/-! ## The edges of marks -/

namespace Spelling

variable {n : Nat} {k : Spelling} {r : NumberedRange} {m : List (Segment NumberedRange)} {cs rest : List Char}

/-- The tokens of a word. -/
def tokens (n : Nat) : Spelling → NumberedRange → List Token
  | name, r => [.name (placeholderName (stemWith n) r.1)]
  | call, r => (intervalPhrase r.2.interval).tokens

theorem isName_placeholderName (n index : Nat) : IsName (placeholderName (stemWith n) index) := by
  have hchars : ∀ c ∈ placeholderName (stemWith n) index, isNameChar c = true := by
    refine List.forall_mem_append.mpr ⟨List.forall_mem_append.mpr ⟨fun c hc => ?_, fun c hc => ?_⟩, ?_⟩
    · exact isNameChar_iff.mpr (.inl (isNameStart_of_mem_stemWith c hc))
    · exact isNameChar_iff.mpr (.inr (isDigit_of_mem_digitChars c hc))
    · simp [isNameChar, isNameStart]
  obtain ⟨tail, htail⟩ := exists_stemWith_eq n
  rw [placeholderName, htail] at hchars ⊢
  exact ⟨by decide, fun d hd => hchars d (List.mem_cons_of_mem _ hd)⟩

theorem splits_word (n : Nat) (k : Spelling) (r : NumberedRange) : Splits (k.word n r) (k.tokens n r) := by
  cases k with
  | name => exact splits_chars (t := .name _) (isName_placeholderName n r.1)
  | call => exact splits_samplingCall r.2

/-- A cut before a mark. -/
theorem cutsApart_before (k : Spelling) (hcs : ∀ c ∈ cs.getLast?, isWordPart c = false) :
    CutsApart cs (k.word n r ++ rest) := by
  obtain ⟨c, tail, hword, hc, hne⟩ := k.exists_head n r
  rw [hword]
  exact cutsApart_before_name hcs hc hne

/-- A cut behind a mark. -/
theorem cutsApart_behind (k : Spelling) (hm : (.found r :: m).IsChain Segment.Parted)
    (hnone : ¬ ContinuesFactor (written (Spelling.call.word n) m)) :
    CutsApart (k.word n r) (written (k.word n) m) := by
  cases k with
  | call =>
    obtain ⟨init, hcall⟩ := samplingCall_concat r.2
    rw [word, hcall]
    exact cutsApart_behind_mark rfl
  | name =>
    have hend : Spelling.name.word n r = stemWith n ++ digitChars r.1 ++ ['_'] ++ ['_'] := by
      simp [word, placeholderName]
    rw [hend]
    refine cutsApart_behind_name rfl (by decide) fun c hc => Bool.of_not_eq_true fun hchar => ?_
    rcases m with - | ⟨d | i, m⟩
    · cases hc
    · obtain rfl : d = c := Option.some.inj hc
      have hdigit : isDigit d = false := (List.isChain_cons_cons.mp hm).1
      rcases isNameChar_iff.mp hchar with hstart | hascii
      · refine hnone ⟨d, ?_, .inr hstart⟩
        rw [written_char, skipBlanks_char (StartsFactor.not_blank (.inr hstart))]
        rfl
      · rw [isDigit_of_isDigit hascii] at hdigit
        cases hdigit
    · exact (List.isChain_cons_cons.mp hm).1

end Spelling

/-! ## The tokens of texts with words for marks -/

namespace Settled

variable {n : Nat} {front back m : List (Segment NumberedRange)} {r : NumberedRange} {cs : List Char}

theorem of_append (h : Settled n (front ++ back)) : Settled n back where
  parted := h.parted.right_of_append
  fresh hocc := h.fresh (hocc.trans (List.suffix_append front back).isInfix)
  none_follows left r right heq := h.none_follows (front ++ left) r right (by rw [heq, List.append_assoc])

theorem behind (h : Settled n (front ++ .found r :: m)) : Settled n m := by
  rw [← List.singleton_append, ← List.append_assoc] at h
  exact h.of_append

/-- Before a mark stands no part of a word. -/
theorem last_before (h : Settled n (cs.map .char ++ .found r :: m)) : ∀ c ∈ cs.getLast?, isWordPart c = false := by
  intro c hc
  obtain ⟨init, rfl⟩ := List.getLast?_eq_some_iff.mp hc
  have hchain := h.parted
  rw [List.map_append, List.append_assoc] at hchain
  exact (List.isChain_cons_cons.mp hchain.right_of_append).1

/-- No placeholder stands before the first mark. -/
theorem fresh_stretch (h : Settled n m) (hcs : cs.map Segment.char <+: m) : ¬ stemWith n <:+: cs := fun hocc =>
  h.fresh ((List.IsInfix.map Segment.char hocc).trans hcs.isInfix)

end Settled

section

variable {n : Nat} {k : Spelling} {r : NumberedRange} {m : List (Segment NumberedRange)} {cs : List Char}
  {ms : List (Token ⊕ NumberedRange)} {ts us : List Token}

/-- The tokens with those of a word for each mark. -/
def tokensWith (n : Nat) (k : Spelling) (ms : List (Token ⊕ NumberedRange)) : List Token :=
  ms.flatMap (Sum.elim ([·]) (k.tokens n))

theorem tokensWith_chars (ts : List Token) : tokensWith n k (ts.map .inl) = ts := by
  simp [tokensWith, List.flatMap_map]

theorem tokensWith_mark (ts : List Token) (r : NumberedRange) (ms : List (Token ⊕ NumberedRange)) :
    tokensWith n k (ts.map .inl ++ .inr r :: ms) = ts ++ (k.tokens n r ++ tokensWith n k ms) := by
  simp [tokensWith, List.flatMap_map]

/-- A mark between two stretches: the cuts before and behind it. -/
theorem splits_mark_iff (h : Settled n (cs.map .char ++ .found r :: m)) :
    Splits (written (k.word n) (cs.map .char ++ .found r :: m)) us ↔
      ∃ ts₁ ts₂, us = ts₁ ++ (k.tokens n r ++ ts₂) ∧ Splits cs ts₁ ∧ Splits (written (k.word n) m) ts₂ := by
  have hbehind := k.cutsApart_behind h.of_append.parted (h.none_follows _ _ _ rfl)
  rw [written_append, written_chars, written_found, Splits.append_iff (k.cutsApart_before h.last_before)]
  constructor
  · rintro ⟨ts₁, ts, rfl, hcs, hsplits⟩
    obtain ⟨ts', ts₂, rfl, hword, hrest⟩ := hsplits.of_append hbehind
    rw [hword.unique (k.splits_word n r)]
    exact ⟨ts₁, ts₂, rfl, hcs, hrest⟩
  · rintro ⟨ts₁, ts₂, rfl, hcs, hrest⟩
    exact ⟨ts₁, _, rfl, hcs, (k.splits_word n r).append hbehind hrest⟩

/-- The words for the marks change nothing else: in every spelling, a text has the tokens of what stands between its
marks, and those of the words. -/
theorem splits_written_iff (k : Spelling) (h : Settled n m) :
    Splits (written (k.word n) m) us ↔ ∃ ms, SplitsMarked m ms ∧ tokensWith n k ms = us := by
  constructor
  · induction m using stretch_induction generalizing us with
    | chars cs =>
      rw [written_chars]
      exact fun hcs => ⟨us.map .inl, .chars hcs, tokensWith_chars us⟩
    | mark cs r m ih =>
      intro hsplits
      obtain ⟨ts₁, ts₂, rfl, hcs, hrest⟩ := (splits_mark_iff h).mp hsplits
      obtain ⟨ms, hms, rfl⟩ := ih h.behind hrest
      exact ⟨_, .mark hcs hms, tokensWith_mark ts₁ r ms⟩
  · rintro ⟨ms, hms, rfl⟩
    induction hms with
    | chars hcs =>
      rw [written_chars, tokensWith_chars]
      exact hcs
    | @mark cs ts r m ms hcs _ ih =>
      exact (splits_mark_iff h).mpr ⟨ts, _, tokensWith_mark ts r ms, hcs, ih h.behind⟩

end

/-! ## White space -/

namespace Text

/-- A space for white space. -/
def Segment.spaced {ι : Type} : Segment ι → Segment ι
  | .char c => .char (RangeCalc.spaced c)
  | .found i => .found i

end Text

section

variable {n : Nat} {m : List (Segment NumberedRange)}

/-- The white space of a word consists of spaces. -/
theorem Spelling.eq_space_of_mem (k : Spelling) {r : NumberedRange} :
    ∀ c ∈ k.word n r, isBlank c = true → c = ' ' := by
  cases k with
  | name =>
    intro c hc hblank
    have hpart := isWordPart_of_mem_name c hc
    rw [isWordPart, not_isWordChar_of_isBlank hblank, Bool.false_or, beq_iff_eq] at hpart
    rw [hpart] at hblank
    cases hblank
  | call =>
    obtain ⟨hmin, hmax⟩ := isBoundValue_interval r.2
    intro c hc hblank
    rw [word, samplingCall_eq] at hc
    simp only [List.mem_append, List.mem_cons, List.not_mem_nil, or_false] at hc
    rcases hc with hc | hc | rfl | rfl | hc | rfl | rfl
    · rw [(startsFactor_of_mem_callOpening c hc).not_blank] at hblank
      cases hblank
    · rw [boundChars_not_blank hmin c hc] at hblank
      cases hblank
    · cases hblank
    · rfl
    · rw [boundChars_not_blank hmax c hc] at hblank
      cases hblank
    · cases hblank
    · cases hblank

theorem written_map_spaced (k : Spelling) (m : List (Segment NumberedRange)) :
    written (k.word n) (m.map Segment.spaced) = (written (k.word n) m).map spaced := by
  induction m with
  | nil => rfl
  | cons s m ih =>
    rcases s with c | r
    · rw [List.map_cons, Segment.spaced, written_char, written_char, ih, List.map_cons]
    · rw [List.map_cons, Segment.spaced, written_found, written_found, ih, List.map_append,
        map_spaced (Spelling.eq_space_of_mem k)]

theorem marks_map_spaced (m : List (Segment NumberedRange)) :
    (m.map Segment.spaced).filterMap Segment.found? = m.filterMap Segment.found? := by
  rw [List.filterMap_map]
  exact List.filterMap_congr fun s _ => by cases s <;> rfl

theorem rewrites_map_spaced (m : List (Segment NumberedRange)) : Rewrites Harmless m (m.map Segment.spaced) := by
  induction m with
  | nil => exact .nil
  | cons s m ih =>
    rcases s with c | r
    · rw [List.map_cons, Segment.spaced]
      cases hc : isBlank c with
      | true =>
        rw [spaced_of_blank hc]
        exact .piece (harmless_mark [c] (by decide +kernel) : Harmless [c] [' ']) ih
      | false =>
        rw [spaced_of_not hc]
        exact .char c ih
    · exact .found r ih

theorem continuesFactor_map_spaced {s : List Char} : ContinuesFactor (s.map spaced) ↔ ContinuesFactor s := by
  have hhead : (skipBlanks s).head?.map spaced = (skipBlanks s).head? := by
    cases h : (skipBlanks s).head? with
    | none => rfl
    | some c => exact congrArg some (spaced_of_not (head?_skipBlanks s c h))
  rw [ContinuesFactor, ContinuesFactor, skipBlanks_map_spaced, List.head?_map, hhead]

theorem Settled.map_spaced (h : Settled n m) : Settled n (m.map Segment.spaced) where
  parted := (rewrites_map_spaced m).isChain h.parted
  fresh := (rewrites_map_spaced m).fresh h.fresh
  none_follows front r back heq := by
    obtain ⟨front', back', rfl, -, hback⟩ := List.map_eq_append_iff.mp heq
    obtain ⟨s, back', rfl, hs, rfl⟩ := List.map_eq_cons_iff.mp hback
    rcases s with c | r'
    · cases hs
    · rw [written_map_spaced, continuesFactor_map_spaced]
      exact h.none_follows front' r' back' rfl

end

end RangeCalc
