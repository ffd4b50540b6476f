import RangeCalc.Proofs.Text.Segment
import RangeCalc.Proofs.Text.Squeeze

/-!
# Texts with other white space

Texts that differ in the amount and kind of their white space alone have the same text with single spaces
(`singleSpaced`). White space at the end counts for nothing, and white space at the front only as there or
not.

* `SameWords`: such texts, and `SameWords.front`: how they start;
* `infix_squeeze_iff`: the same words stand in them;
* `Passes`: how far reading a text goes without stopping inside white space;
* `SameWords.reverse_append`: what is passed in such texts differs in white space alone, also backwards.
-/

namespace RangeCalc.Text

/-- The text with each run of white space made one space, and none at the end. -/
def singleSpaced : List Char → List Char
  | [] => []
  | c :: rest =>
    if isBlank c then
      match singleSpaced rest with
      | [] => []
      | ' ' :: tail => ' ' :: tail
      | tail => ' ' :: tail
    else c :: singleSpaced rest

/-- Whether two texts differ in white space alone. -/
def SameWords (s t : List Char) : Prop :=
  singleSpaced s = singleSpaced t

/-! ## Single spaces -/

section

variable {c d : Char} {s t u : List Char}

theorem singleSpaced_char (hc : isBlank c = false) (s : List Char) :
    singleSpaced (c :: s) = c :: singleSpaced s := by
  rw [singleSpaced, if_neg (by simp [hc])]

theorem singleSpaced_blank (hc : isBlank c = true) :
    (singleSpaced s = [] ∧ singleSpaced (c :: s) = []) ∨
      (∃ tail, singleSpaced s = ' ' :: tail ∧ singleSpaced (c :: s) = ' ' :: tail) ∨
        ∃ d tail, d ≠ ' ' ∧ singleSpaced s = d :: tail ∧ singleSpaced (c :: s) = ' ' :: d :: tail := by
  rw [singleSpaced, if_pos hc]
  rcases h : singleSpaced s with - | ⟨d, tail⟩
  · exact .inl ⟨rfl, rfl⟩
  · by_cases hd : d = ' '
    · subst hd
      exact .inr (.inl ⟨tail, rfl, rfl⟩)
    · refine .inr (.inr ⟨d, tail, hd, rfl, ?_⟩)
      split
      next hnil => cases hnil
      next htail => exact absurd (List.cons.inj htail).1 hd
      next => rfl

theorem singleSpaced_of_blank (h : ∀ c ∈ u, isBlank c = true) : singleSpaced u = [] := by
  induction u with
  | nil => rfl
  | cons c u ih =>
    rw [singleSpaced, if_pos (h c List.mem_cons_self), ih fun d hd => h d (List.mem_cons_of_mem c hd)]

theorem skipBlanks_char (hc : isBlank c = false) (s : List Char) : skipBlanks (c :: s) = c :: s :=
  List.dropWhile_cons_of_neg (by simp [hc])

theorem skipBlanks_blank (hc : isBlank c = true) (s : List Char) : skipBlanks (c :: s) = skipBlanks s :=
  List.dropWhile_cons_of_pos hc

theorem skipBlanks_append_of_blank (h : ∀ c ∈ u, isBlank c = true) (s : List Char) :
    skipBlanks (u ++ s) = skipBlanks s :=
  List.dropWhile_append_of_pos h

theorem singleSpaced_skipBlanks (s : List Char) : singleSpaced (skipBlanks s) = skipBlanks (singleSpaced s) := by
  induction s with
  | nil => rfl
  | cons c s ih =>
    cases hc : isBlank c with
    | false => rw [skipBlanks_char hc, singleSpaced_char hc, skipBlanks_char hc]
    | true =>
      rw [skipBlanks_blank hc, ih]
      rcases singleSpaced_blank (s := s) hc with ⟨h, hcons⟩ | ⟨tail, h, hcons⟩ | ⟨d, tail, -, h, hcons⟩
      · rw [h, hcons]
      · rw [h, hcons]
      · rw [h, hcons, skipBlanks_blank isBlank_space]

/-- What is left of single spaces at the end is dropped. -/
theorem squeezeRuns_eq_append (s : List Char) :
    ∃ tail, (∀ c ∈ tail, isBlank c = true) ∧ squeezeRuns s = singleSpaced s ++ tail := by
  induction s with
  | nil => exact ⟨[], nofun, rfl⟩
  | cons c s ih =>
    obtain ⟨tail, htail, hs⟩ := ih
    cases hc : isBlank c with
    | false => exact ⟨tail, htail, by rw [squeezeRuns_char hc, singleSpaced_char hc, hs, List.cons_append]⟩
    | true =>
      rcases singleSpaced_blank (s := s) hc with ⟨h, hcons⟩ | ⟨u, h, hcons⟩ | ⟨d, u, hd, h, hcons⟩ <;>
        rw [h] at hs <;> rw [hcons] <;>
        rcases squeezeRuns_blank hc s with ⟨v, hv, heq⟩ | ⟨hhead, heq⟩
      · exact ⟨tail, htail, by rw [heq, ← hv, hs]⟩
      · refine ⟨' ' :: tail, List.forall_mem_cons.mpr ⟨isBlank_space, htail⟩, ?_⟩
        rw [heq, hs, List.nil_append, List.nil_append]
      · exact ⟨tail, htail, by rw [heq, ← hv, hs]⟩
      · exact absurd (by rw [hs]; rfl) hhead
      · exact absurd (List.cons.inj (hv.symm.trans hs)).1.symm hd
      · exact ⟨tail, htail, by rw [heq, hs, List.cons_append, List.cons_append, List.cons_append]⟩

theorem getLast?_singleSpaced (s : List Char) : ∀ c ∈ (singleSpaced s).getLast?, isBlank c = false := by
  induction s with
  | nil => exact nofun
  | cons c s ih =>
    cases hc : isBlank c with
    | false =>
      rw [singleSpaced_char hc, List.getLast?_cons]
      intro d hd
      cases hlast : (singleSpaced s).getLast? with
      | none =>
        rw [hlast] at hd
        obtain rfl : c = d := by simpa using hd
        exact hc
      | some e =>
        rw [hlast] at hd
        exact ih d (by simpa [hlast] using hd)
    | true =>
      rcases singleSpaced_blank (s := s) hc with ⟨h, hcons⟩ | ⟨u, h, hcons⟩ | ⟨d, u, hd, h, hcons⟩
      · rw [hcons]
        exact nofun
      · rw [hcons, ← h]
        exact ih
      · rw [hcons, List.getLast?_cons_cons, ← h]
        exact ih

/-- Squeezing drops the white space in front as well. -/
theorem squeeze_eq (s : List Char) : squeeze s = singleSpaced (skipBlanks s) := by
  obtain ⟨tail, htail, hs⟩ := squeezeRuns_eq_append s
  obtain ⟨lead, -, hlead⟩ := skipBlanks_split (singleSpaced s)
  have hlast : ∀ c ∈ (skipBlanks (singleSpaced s)).reverse.head?, isBlank c = false := by
    intro c hc
    refine getLast?_singleSpaced s c ?_
    rw [hlead, List.getLast?_append, ← List.head?_reverse, hc]
    rfl
  obtain ⟨tail', htail', hskip⟩ : ∃ tail', (∀ c ∈ tail', isBlank c = true) ∧
      skipBlanks (squeezeRuns s) = skipBlanks (singleSpaced s) ++ tail' := by
    rw [hs, skipBlanks, List.dropWhile_append]
    split
    next hempty =>
      exact ⟨[], fun _ hc => absurd hc List.not_mem_nil, by
        rw [skipBlanks, List.isEmpty_iff.mp hempty, List.dropWhile_eq_nil_iff.mpr htail, List.append_nil]⟩
    next => exact ⟨tail, htail, rfl⟩
  rw [squeeze, trim, hskip, List.reverse_append, skipBlanks_append_of_blank (by simpa using htail'),
    skipBlanks_of_head hlast, List.reverse_reverse, singleSpaced_skipBlanks]

end

/-! ## The same words -/

section

variable {c : Char} {s t u v : List Char}

theorem SameWords.symm (h : SameWords s t) : SameWords t s := Eq.symm h

theorem SameWords.cons (c : Char) (h : SameWords s t) : SameWords (c :: s) (c :: t) := by
  rw [SameWords] at h ⊢
  rw [singleSpaced, h, singleSpaced]

theorem SameWords.append (u : List Char) (h : SameWords s t) : SameWords (u ++ s) (u ++ t) := by
  induction u with
  | nil => exact h
  | cons c u ih => exact ih.cons c

theorem sameWords_of_blank (hu : ∀ c ∈ u, isBlank c = true) (hv : ∀ c ∈ v, isBlank c = true) :
    SameWords u v :=
  (singleSpaced_of_blank hu).trans (singleSpaced_of_blank hv).symm

/-- White space in front is as good as one space. -/
theorem singleSpaced_blanks_append (hu : ∀ c ∈ u, isBlank c = true) (hne : u ≠ []) (s : List Char) :
    singleSpaced (u ++ s) = singleSpaced (' ' :: s) := by
  induction u with
  | nil => exact absurd rfl hne
  | cons c u ih =>
    have hc := hu c List.mem_cons_self
    have hspace (t : List Char) : singleSpaced (c :: t) = singleSpaced (' ' :: t) := by
      rw [singleSpaced, if_pos hc, singleSpaced, if_pos isBlank_space]
    rcases u with - | ⟨d, u⟩
    · exact hspace s
    · have hrest := ih (fun d hd => hu d (List.mem_cons_of_mem c hd)) (List.cons_ne_nil d u)
      have htwo : SameWords (' ' :: (d :: u ++ s)) (' ' :: ' ' :: s) := SameWords.cons ' ' hrest
      rw [List.cons_append, hspace, htwo]
      -- the second space adds nothing
      rcases singleSpaced_blank (s := s) isBlank_space with ⟨-, h⟩ | ⟨tail, -, h⟩ | ⟨e, tail, -, -, h⟩ <;>
        rcases singleSpaced_blank (s := ' ' :: s) isBlank_space with
          ⟨h', hcons⟩ | ⟨tail', h', hcons⟩ | ⟨e', tail', he, h', hcons⟩ <;>
        rw [hcons] <;> first | exact h'.symm | skip
      all_goals rw [h] at h'
      · cases h'
      · exact absurd (List.cons.inj h').1.symm he
      · exact absurd (List.cons.inj h').1.symm he

theorem SameWords.blanks (hu : ∀ c ∈ u, isBlank c = true) (hv : ∀ c ∈ v, isBlank c = true) (hne : u ≠ [])
    (hne' : v ≠ []) (h : SameWords s t) : SameWords (u ++ s) (v ++ t) := by
  rw [SameWords, singleSpaced_blanks_append hu hne, singleSpaced_blanks_append hv hne']
  exact SameWords.cons ' ' h

theorem SameWords.skip (h : SameWords s t) : SameWords (skipBlanks s) (skipBlanks t) := by
  rw [SameWords, singleSpaced_skipBlanks, singleSpaced_skipBlanks, h]

/-- How two texts with the same words start: with the same character, or both with white space if at all. -/
inductive SameFront : List Char → List Char → Prop
  | char {c : Char} {s t : List Char} (hc : isBlank c = false) (h : SameWords s t) : SameFront (c :: s) (c :: t)
  | blank {s t : List Char} (hs : ∀ c ∈ s.head?, isBlank c = true) (ht : ∀ c ∈ t.head?, isBlank c = true)
    (h : SameWords s t) : SameFront s t

theorem head?_singleSpaced (h : ∀ c ∈ s.head?, isBlank c = true) :
    ∀ c ∈ (singleSpaced s).head?, isBlank c = true := by
  rcases s with - | ⟨c, s⟩
  · exact nofun
  · rcases singleSpaced_blank (s := s) (h c rfl) with ⟨-, hcons⟩ | ⟨u, -, hcons⟩ | ⟨d, u, -, -, hcons⟩ <;>
      rw [hcons]
    · exact nofun
    · rintro d ⟨⟩
      rfl
    · rintro d ⟨⟩
      rfl

theorem SameWords.front (h : SameWords s t) : SameFront s t := by
  -- a text that starts with a character shows it
  have hchar : ∀ {c s t}, isBlank c = false → SameWords (c :: s) t → ∃ t', t = c :: t' ∧ SameWords s t' := by
    intro c s t hc h
    rw [SameWords, singleSpaced_char hc] at h
    have hhead : (singleSpaced t).head? = some c := by rw [← h]; rfl
    rcases t with - | ⟨d, t⟩
    · cases h
    · cases hd : isBlank d with
      | true =>
        have := head?_singleSpaced (s := d :: t) (by simpa using hd) c hhead
        rw [hc] at this
        cases this
      | false =>
        rw [singleSpaced_char hd] at h
        obtain ⟨rfl, hrest⟩ := List.cons.inj h
        exact ⟨t, rfl, hrest⟩
  rcases s with - | ⟨c, s⟩
  · refine .blank nofun (fun d hd => ?_) h
    obtain ⟨t, rfl⟩ := List.head?_eq_some_iff.mp hd
    by_contra hno
    obtain ⟨s', hs', -⟩ := hchar (Bool.not_eq_true _ ▸ hno) h.symm
    cases hs'
  · cases hc : isBlank c with
    | false =>
      obtain ⟨t', rfl, ht⟩ := hchar hc h
      exact .char hc ht
    | true =>
      refine .blank (by simpa using hc) (fun d hd => ?_) h
      obtain ⟨t, rfl⟩ := List.head?_eq_some_iff.mp hd
      by_contra hno
      obtain ⟨s', hs', -⟩ := hchar (Bool.not_eq_true _ ▸ hno) h.symm
      rw [(List.cons.inj hs').1] at hc
      exact hno hc

end

/-- A front without white space is one of the other text as well. -/
theorem SameWords.exists_front {n rest t : List Char} (hn : ∀ c ∈ n, isBlank c = false)
    (h : SameWords (n ++ rest) t) : ∃ rest', t = n ++ rest' ∧ SameWords rest rest' := by
  induction n generalizing t with
  | nil => exact ⟨t, rfl, h⟩
  | cons c n ih =>
    rw [List.cons_append] at h
    cases h.front with
    | char hc hrest =>
      obtain ⟨rest', rfl, hrest'⟩ := ih (fun d hd => hn d (List.mem_cons_of_mem c hd)) hrest
      exact ⟨rest', rfl, hrest'⟩
    | blank hs _ _ =>
      have := hn c List.mem_cons_self
      rw [hs c rfl] at this
      cases this

/-! ## Words in a text -/

section

variable {part : List Char} (hpart : ∀ c ∈ part, isBlank c = false)
include hpart

theorem prefix_singleSpaced_iff (s : List Char) : part <+: singleSpaced s ↔ part <+: s := by
  induction part generalizing s with
  | nil => simp
  | cons d part ih =>
    have hd := hpart d List.mem_cons_self
    rcases s with - | ⟨c, s⟩
    · rfl
    cases hc : isBlank c with
    | false =>
      rw [singleSpaced_char hc, List.cons_prefix_cons, List.cons_prefix_cons,
        ih fun d hd => hpart d (List.mem_cons_of_mem _ hd)]
    | true =>
      have hno : ∀ {t : List Char}, (∀ c ∈ t.head?, isBlank c = true) → ¬ d :: part <+: t := by
        rintro t ht ⟨rest, rfl⟩
        rw [ht d rfl] at hd
        cases hd
      exact iff_of_false (hno (head?_singleSpaced (by simpa using hc))) (hno (by simpa using hc))

variable (hne : part ≠ [])
include hne

theorem infix_blank_cons_iff {c : Char} (hc : isBlank c = true) (s : List Char) :
    part <:+: c :: s ↔ part <:+: s := by
  obtain ⟨d, part, rfl⟩ := List.exists_cons_of_ne_nil hne
  have hd := hpart d List.mem_cons_self
  rw [List.infix_cons_iff, List.cons_prefix_cons, or_iff_right]
  rintro ⟨rfl, -⟩
  rw [hc] at hd
  cases hd

theorem infix_singleSpaced_iff (s : List Char) : part <:+: singleSpaced s ↔ part <:+: s := by
  induction s with
  | nil => rfl
  | cons c s ih =>
    cases hc : isBlank c with
    | false =>
      rw [List.infix_cons_iff, ← prefix_singleSpaced_iff hpart, singleSpaced_char hc, List.infix_cons_iff, ih]
    | true =>
      rw [infix_blank_cons_iff hpart hne hc, ← ih]
      rcases singleSpaced_blank (s := s) hc with ⟨h, hcons⟩ | ⟨tail, h, hcons⟩ | ⟨d, tail, -, h, hcons⟩
      · rw [h, hcons]
      · rw [h, hcons]
      · rw [h, hcons, infix_blank_cons_iff hpart hne isBlank_space]

theorem infix_skipBlanks_iff (s : List Char) : part <:+: skipBlanks s ↔ part <:+: s := by
  induction s with
  | nil => rfl
  | cons c s ih =>
    cases hc : isBlank c with
    | false => rw [skipBlanks_char hc]
    | true => rw [skipBlanks_blank hc, infix_blank_cons_iff hpart hne hc, ih]

/-- A word stands in a text where it stands in the squeezed text. -/
theorem infix_squeeze_iff (s : List Char) : part <:+: squeeze s ↔ part <:+: s := by
  rw [squeeze_eq, infix_singleSpaced_iff hpart hne, infix_skipBlanks_iff hpart hne]

end

/-! ## What is passed -/

/-- Whether reading a text up to a rest passes something and does not stop inside white space. -/
def Passes (s rest : List Char) : Prop :=
  ∃ x, x ≠ [] ∧ s = x ++ rest ∧
    ((∀ c ∈ x.getLast?, isBlank c = false) ∨ ∃ c ∈ rest.head?, isBlank c = false)

section

variable {x x' s t b b' : List Char}

theorem squeezeRuns_eq_nil (h : squeezeRuns x = []) : x = [] := by
  rcases x with - | ⟨c, x⟩
  · rfl
  · cases hc : isBlank c with
    | false =>
      rw [squeezeRuns_char hc] at h
      cases h
    | true => rcases squeezeRuns_blank hc x with ⟨v, -, heq⟩ | ⟨-, heq⟩ <;> cases heq.symm.trans h

/-- Where a text is not cut inside white space, its parts have their own single spaces. -/
theorem singleSpaced_append
    (h : (∀ c ∈ x.getLast?, isBlank c = false) ∨ ∃ c ∈ s.head?, isBlank c = false) :
    singleSpaced (x ++ s) = squeezeRuns x ++ singleSpaced s := by
  induction x with
  | nil => rfl
  | cons c x ih =>
    have ih := ih (h.imp_left fun h d hd => h d (by rw [List.getLast?_cons, hd]; rfl))
    cases hc : isBlank c with
    | false => rw [List.cons_append, singleSpaced_char hc, squeezeRuns_char hc, ih, List.cons_append]
    | true =>
      -- a cut right behind this white space has a character behind it
      have hnil : x = [] → ∃ d u, d ≠ ' ' ∧ singleSpaced s = d :: u := by
        rintro rfl
        obtain ⟨d, hd, hblank⟩ := h.resolve_left fun h => by simp [hc] at h
        obtain ⟨s, rfl⟩ := List.head?_eq_some_iff.mp hd
        refine ⟨d, _, fun h => ?_, singleSpaced_char hblank s⟩
        rw [h, isBlank_space] at hblank
        cases hblank
      rw [List.cons_append]
      rcases singleSpaced_blank (s := x ++ s) hc with ⟨hs, -⟩ | ⟨u, hs, hcons⟩ | ⟨d, u, hd, hs, hcons⟩ <;>
        rw [ih] at hs
      · obtain ⟨hx, hs⟩ := List.append_eq_nil_iff.mp hs
        obtain ⟨d, u, -, hd⟩ := hnil (squeezeRuns_eq_nil hx)
        cases hs.symm.trans hd
      · rw [hcons]
        rcases squeezeRuns_blank hc x with ⟨v, hv, heq⟩ | ⟨hhead, -⟩
        · rw [heq, ← hv, hs]
        · rcases hx : squeezeRuns x with - | ⟨e, w⟩ <;> rw [hx] at hs hhead
          · obtain ⟨d, v, hne, hd⟩ := hnil (squeezeRuns_eq_nil hx)
            exact absurd (List.cons.inj (hd.symm.trans hs)).1 hne
          · exact absurd (congrArg some (List.cons.inj hs).1) hhead
      · rw [hcons]
        rcases squeezeRuns_blank hc x with ⟨v, hv, -⟩ | ⟨-, heq⟩
        · rw [hv] at hs
          exact absurd (List.cons.inj hs).1.symm hd
        · rw [heq, List.cons_append, hs]

/-- White space gives one space before a text that starts with none. -/
theorem squeezeRuns_blanks_append {u : List Char} (hu : ∀ c ∈ u, isBlank c = true) (hne : u ≠ [])
    (hx : ∀ c ∈ x.head?, isBlank c = false) : squeezeRuns (u ++ x) = ' ' :: squeezeRuns x := by
  have hhead : (squeezeRuns x).head? ≠ some ' ' := by
    rcases x with - | ⟨c, x⟩
    · exact nofun
    · have hc := hx c rfl
      rw [squeezeRuns_char hc]
      rintro ⟨⟩
      cases hc
  induction u with
  | nil => exact absurd rfl hne
  | cons c u ih =>
    have hc := hu c List.mem_cons_self
    rcases squeezeRuns_blank hc (u ++ x) with ⟨v, hv, heq⟩ | ⟨hno, heq⟩ <;> rcases u with - | ⟨d, u⟩
    · exact absurd (by rw [← List.nil_append x, hv]; rfl) hhead
    · rw [List.cons_append, heq, ← hv, ih (fun d hd => hu d (List.mem_cons_of_mem c hd)) (List.cons_ne_nil d u)]
    · exact heq
    · rw [ih (fun d hd => hu d (List.mem_cons_of_mem c hd)) (List.cons_ne_nil d u)] at hno
      exact absurd rfl hno

/-- A text that starts with white space, cut where that ends. -/
theorem exists_blanks_front {c : Char} (hc : isBlank c = true) (y : List Char) :
    ∃ u r, c :: y = u ++ r ∧ (∀ d ∈ u, isBlank d = true) ∧ u ≠ [] ∧ (∀ d ∈ r.head?, isBlank d = false) ∧
      squeezeRuns (c :: y) = ' ' :: squeezeRuns r := by
  obtain ⟨u, hu, hsplit⟩ := skipBlanks_split (c :: y)
  have hhead := head?_skipBlanks (c :: y)
  have hne : u ≠ [] := by
    rintro rfl
    have := hhead c (by rw [← List.nil_append (skipBlanks _), ← hsplit]; rfl)
    rw [hc] at this
    cases this
  exact ⟨u, _, hsplit, hu, hne, hhead, (congrArg squeezeRuns hsplit).trans
    (squeezeRuns_blanks_append hu hne hhead)⟩

/-- What is passed, backwards. -/
theorem SameWords.reverse_append (hb : SameWords b b') (h : squeezeRuns x = squeezeRuns x') :
    SameWords (x.reverse ++ b) (x'.reverse ++ b') := by
  induction hn : x.length using Nat.strongRecOn generalizing x x' b b' with
  | ind n ih =>
    subst hn
    rcases x with - | ⟨c, y⟩
    · rw [squeezeRuns_eq_nil h.symm]
      exact hb
    cases hc : isBlank c with
    | false =>
      rw [squeezeRuns_char hc] at h
      rcases x' with - | ⟨c', y'⟩
      · cases h
      cases hc' : isBlank c' with
      | false =>
        rw [squeezeRuns_char hc'] at h
        obtain ⟨rfl, hrest⟩ := List.cons.inj h
        simpa using ih y.length (Nat.lt_succ_self _) (hb.cons c) hrest rfl
      | true =>
        obtain ⟨u, r, hr, hu, hne, -, heq⟩ := exists_blanks_front hc' y'
        rw [heq] at h
        rw [(List.cons.inj h).1, isBlank_space] at hc
        cases hc
    | true =>
      obtain ⟨u, r, hr, hu, hne, -, heq⟩ := exists_blanks_front hc y
      rw [heq] at h
      rcases x' with - | ⟨c', y'⟩
      · cases h
      cases hc' : isBlank c' with
      | false =>
        rw [squeezeRuns_char hc'] at h
        rw [← (List.cons.inj h).1, isBlank_space] at hc'
        cases hc'
      | true =>
        obtain ⟨u', r', hr', hu', hne', -, heq'⟩ := exists_blanks_front hc' y'
        rw [heq'] at h
        have hshorter : r.length < (c :: y).length := by
          rw [hr, List.length_append]
          have := List.length_pos_iff.mpr hne
          omega
        have hpassed : SameWords (u.reverse ++ b) (u'.reverse ++ b') :=
          hb.blanks (by simpa using hu) (by simpa using hu') (by simpa using hne) (by simpa using hne')
        rw [hr, hr']
        simpa using ih r.length hshorter hpassed (List.cons.inj h).2 rfl

theorem Passes.trans {rest : List Char} (h : Passes s t) (h' : Passes t rest) : Passes s rest := by
  obtain ⟨x, hx, rfl, -⟩ := h
  obtain ⟨y, hy, rfl, hclean⟩ := h'
  refine ⟨x ++ y, by simp [hx], (List.append_assoc ..).symm, hclean.imp_left fun hlast c hc => hlast c ?_⟩
  simpa [List.getLast?_append, List.getLast?_eq_some_getLast hy] using hc

theorem Passes.of_skipBlanks {rest : List Char} (h : Passes (skipBlanks s) rest) : Passes s rest := by
  obtain ⟨x, hx, hsplit, hclean⟩ := h
  obtain ⟨u, -, hs⟩ := skipBlanks_split s
  refine ⟨u ++ x, by simp [hx], by rw [List.append_assoc, ← hsplit]; exact hs,
    hclean.imp_left fun hlast c hc => hlast c ?_⟩
  simpa [List.getLast?_append, List.getLast?_eq_some_getLast hx] using hc

theorem Passes.length_lt {rest : List Char} (h : Passes s rest) : rest.length < s.length := by
  obtain ⟨x, hx, rfl, -⟩ := h
  have := List.length_pos_iff.mpr hx
  rw [List.length_append]
  omega

/-- Where two texts with the same words are passed up to the same words, what has been passed differs in
white space alone. -/
theorem SameWords.passed (hb : SameWords b b') (h : SameWords (x ++ s) (x' ++ t)) (hrest : SameWords s t)
    (hx : (∀ c ∈ x.getLast?, isBlank c = false) ∨ ∃ c ∈ s.head?, isBlank c = false)
    (hx' : (∀ c ∈ x'.getLast?, isBlank c = false) ∨ ∃ c ∈ t.head?, isBlank c = false) :
    SameWords (x.reverse ++ b) (x'.reverse ++ b') := by
  rw [SameWords, singleSpaced_append hx, singleSpaced_append hx', hrest] at h
  exact hb.reverse_append (List.append_cancel_right h)

end

end RangeCalc.Text
