import Mathlib.Data.Option.Basic
import RangeCalc.Proofs.Text.Spacing

/-!
# Occurrences in texts with other white space

A finder for which white space is only there or not, and which stops at none, finds the same in texts that
differ in white space alone.

* `Finder.KeepsWords`: such finders, up to what is looked at of an occurrence;
* `sameSegments_segmentsFrom`: the segments of two such texts;
* `squeeze_replaceEach`, `map_occurrences`: replacing, and the occurrences alone.
-/

namespace RangeCalc.Text

variable {α γ : Type}

/-! ## White space without occurrences -/

/-- Whether a finder recognises nothing that starts with white space. -/
def SkipsBlanks (find : Finder α) : Prop :=
  ∀ before c rest, isBlank c = true → find before (c :: rest) = none

theorem segmentsFrom_blanks {find : Finder α} (hfind : SkipsBlanks find) {u : List Char}
    (hu : ∀ c ∈ u, isBlank c = true) (before rest : List Char) :
    segmentsFrom find before 0 (u ++ rest) =
      u.map .char ++ segmentsFrom find (u.reverse ++ before) 0 rest := by
  induction u generalizing before with
  | nil => rfl
  | cons c u ih =>
    rw [List.cons_append, segmentsFrom, hfind before c _ (hu c List.mem_cons_self),
      ih fun d hd => hu d (List.mem_cons_of_mem c hd)]
    simp

theorem replaceEach_of_blank {rule : Finder (List Char)} (hrule : SkipsBlanks rule) {text : List Char}
    (h : ∀ c ∈ text, isBlank c = true) : replaceEach rule text = text := by
  have hsegments := segmentsFrom_blanks hrule h [] []
  rw [List.append_nil, segmentsFrom_nil, List.append_nil] at hsegments
  rw [replaceEach, segments, hsegments, List.flatMap_map]
  exact List.flatMap_singleton' text

/-! ## Reading two texts -/

theorem SameWords.skipBlanks_eq_nil {s t : List Char} (h : SameWords s t) (hs : skipBlanks s = []) :
    skipBlanks t = [] := by
  have hskip := h.skip
  rw [hs] at hskip
  cases hskip.front with
  | blank _ ht _ =>
    by_contra hne
    obtain ⟨c, rest, hc⟩ := List.exists_cons_of_ne_nil hne
    have hno := head?_skipBlanks t c (by rw [hc]; rfl)
    rw [ht c (by rw [hc]; rfl)] at hno
    cases hno

/-- How two texts with the same words are read: both up to rests with the same words, outside white space. -/
structure BothPass (s t rest rest' : List Char) : Prop where
  same : SameWords rest rest'
  left : Passes s rest
  right : Passes t rest'

/-- Whether a reader reads the same from texts with the same words. -/
def KeepsReading {β : Type} (read : List Char → Option (β × List Char)) : Prop :=
  ∀ ⦃s t⦄, SameWords s t → Option.Rel (fun p q => p.1 = q.1 ∧ BothPass s t p.2 q.2) (read s) (read t)

section

variable {β : Type} {s t rest rest' u v : List Char} {c : Char}

theorem relates_bind {R : α → α → Prop} {S : β → β → Prop} {o o' : Option α} {k k' : α → Option β}
    (h : Option.Rel R o o') (hk : ∀ a a', R a a' → Option.Rel S (k a) (k' a')) :
    Option.Rel S (o >>= k) (o' >>= k') := by
  cases h with
  | none => exact .none
  | some ha => exact hk _ _ ha

theorem relates_imp {R S : α → α → Prop} {o o' : Option α} (h : Option.Rel R o o')
    (hRS : ∀ a a', R a a' → S a a') : Option.Rel S o o' := by
  cases h with
  | none => exact .none
  | some ha => exact .some (hRS _ _ ha)

theorem relates_guard {S : β → β → Prop} {p q : Prop} [Decidable p] [Decidable q] (hpq : p ↔ q)
    {o o' : Option β} (h : p → Option.Rel S o o') :
    Option.Rel S (guard p >>= fun _ => o) (guard q >>= fun _ => o') := by
  by_cases hp : p
  · rw [guard, if_pos hp, guard, if_pos (hpq.mp hp)]
    exact h hp
  · rw [guard, if_neg hp, guard, if_neg (mt hpq.mpr hp)]
    exact .none

theorem passes_char (hc : isBlank c = false) (s : List Char) : Passes (c :: s) s :=
  ⟨[c], List.cons_ne_nil _ _, rfl, .inl (by simpa using hc)⟩

namespace BothPass

theorem char (hc : isBlank c = false) (h : SameWords s t) : BothPass (c :: s) (c :: t) s t :=
  ⟨h, passes_char hc s, passes_char hc t⟩

theorem trans (h : BothPass s t rest rest') (h' : BothPass rest rest' u v) : BothPass s t u v :=
  ⟨h'.same, h.left.trans h'.left, h.right.trans h'.right⟩

theorem of_skipBlanks (h : BothPass (skipBlanks s) (skipBlanks t) u v) : BothPass s t u v :=
  ⟨h.same, h.left.of_skipBlanks, h.right.of_skipBlanks⟩

/-- White space in front of a character is passed as well. -/
theorem skip (h : BothPass s t rest rest') (hne : Text.skipBlanks rest ≠ []) :
    BothPass s t (Text.skipBlanks rest) (Text.skipBlanks rest') := by
  have hskip : ∀ {s rest}, Passes s rest → Text.skipBlanks rest ≠ [] → Passes s (Text.skipBlanks rest) := by
    rintro s rest ⟨x, hx, rfl, -⟩ hne
    obtain ⟨u, -, hsplit⟩ := skipBlanks_split rest
    obtain ⟨c, tail, hc⟩ := List.exists_cons_of_ne_nil hne
    refine ⟨x ++ u, by simp [hx], by rw [List.append_assoc, ← hsplit], .inr ⟨c, by rw [hc]; rfl, ?_⟩⟩
    exact head?_skipBlanks rest c (by rw [hc]; rfl)
  exact ⟨h.same.skip, hskip h.left hne, hskip h.right fun hnil => hne (h.same.symm.skipBlanks_eq_nil hnil)⟩

variable {read : List Char → Option (β × List Char)} (h : BothPass s t rest rest')
include h

theorem reads (hread : KeepsReading read) :
    Option.Rel (fun p q => p.1 = q.1 ∧ BothPass s t p.2 q.2) (read rest) (read rest') :=
  relates_imp (hread h.same) fun _ _ hpq => ⟨hpq.1, h.trans hpq.2⟩

theorem reads_skipBlanks (hread : KeepsReading read) :
    Option.Rel (fun p q => p.1 = q.1 ∧ BothPass s t p.2 q.2) (read (skipBlanks rest))
      (read (skipBlanks rest')) :=
  relates_imp (hread h.same.skip) fun _ _ hpq => ⟨hpq.1, h.trans hpq.2.of_skipBlanks⟩

end BothPass

end

/-- Whether a finder finds the same, as far as `view` shows, in two texts with the same words. -/
structure Finder.KeepsWords (find : Finder α) (view : α → γ) : Prop where
  skipsBlanks : SkipsBlanks find
  rel : ∀ {b b' s t}, SameWords b b' → SameWords s t →
    Option.Rel (fun p q => view p.1 = view q.1 ∧ BothPass s t p.2 q.2) (find b s) (find b' t)

/-- Segments that are the same up to white space and what `view` shows of occurrences. -/
inductive SameSegments (view : α → γ) : List (Segment α) → List (Segment α) → Prop
  | ends {u v : List Char} (hu : ∀ c ∈ u, isBlank c = true) (hv : ∀ c ∈ v, isBlank c = true) :
    SameSegments view (u.map .char) (v.map .char)
  | blanks {u v : List Char} {l l' : List (Segment α)} (hu : ∀ c ∈ u, isBlank c = true)
    (hv : ∀ c ∈ v, isBlank c = true) (hne : u ≠ []) (hne' : v ≠ []) (h : SameSegments view l l') :
    SameSegments view (u.map .char ++ l) (v.map .char ++ l')
  | char (c : Char) {l l' : List (Segment α)} (h : SameSegments view l l') :
    SameSegments view (.char c :: l) (.char c :: l')
  | found {a a' : α} {l l' : List (Segment α)} (ha : view a = view a') (h : SameSegments view l l') :
    SameSegments view (.found a :: l) (.found a' :: l')

/-- White space in front of a character is there. -/
theorem lead_ne_nil {u s : List Char} (hs : ∀ c ∈ s.head?, isBlank c = true) (hsplit : s = u ++ skipBlanks s)
    (hne : skipBlanks s ≠ []) : u ≠ [] := by
  rintro rfl
  obtain ⟨c, rest, hc⟩ := List.exists_cons_of_ne_nil hne
  rw [List.nil_append, hc] at hsplit
  have hno := head?_skipBlanks s c (by rw [hc]; rfl)
  rw [hs c (by rw [hsplit]; rfl)] at hno
  cases hno

/-- The induction is on the text that is still to be read. The words in front of it are the same as well,
since no occurrence ends inside white space. -/
theorem sameSegments_segmentsFrom {find : Finder α} {view : α → γ} (hfind : find.KeepsWords view)
    {b b' s t : List Char} (hb : SameWords b b') (h : SameWords s t) :
    SameSegments view (segmentsFrom find b 0 s) (segmentsFrom find b' 0 t) := by
  induction hn : s.length using Nat.strongRecOn generalizing b b' s t with
  | ind n ih =>
    subst hn
    cases h.front with
    | @char c s t hc hrest =>
      have hrel := hfind.rel hb h
      rcases hp : find b (c :: s) with - | ⟨a, rest⟩ <;> rcases hq : find b' (c :: t) with - | ⟨a', rest'⟩ <;>
        rw [hp, hq] at hrel
      · rw [segmentsFrom, hp, segmentsFrom, hq]
        exact .char c (ih s.length (Nat.lt_succ_self _) (hb.cons c) hrest rfl)
      · cases hrel
      · cases hrel
      · obtain ⟨ha, hpass⟩ : view a = view a' ∧ BothPass (c :: s) (c :: t) rest rest' := by
          cases hrel with
          | some h => exact h
        obtain ⟨x, hx, hsplit, hclean⟩ := hpass.left
        obtain ⟨x', hx', hsplit', hclean'⟩ := hpass.right
        have hlt := hpass.left.length_lt
        rw [hsplit] at hp h hlt ih ⊢
        rw [hsplit'] at hq h ⊢
        rw [Scans.segmentsFrom_found hx hp, Scans.segmentsFrom_found hx' hq]
        exact .found ha (ih rest.length hlt (hb.passed h hpass.same hclean hclean') hpass.same rfl)
    | blank hs ht h =>
      obtain ⟨u, hu, hsplit⟩ := skipBlanks_split s
      obtain ⟨v, hv, hsplit'⟩ := skipBlanks_split t
      rw [hsplit, hsplit', segmentsFrom_blanks hfind.skipsBlanks hu,
        segmentsFrom_blanks hfind.skipsBlanks hv]
      by_cases hnil : skipBlanks s = []
      · rw [hnil, h.skipBlanks_eq_nil hnil, segmentsFrom_nil, segmentsFrom_nil, List.append_nil,
          List.append_nil]
        exact .ends hu hv
      · have hne := lead_ne_nil hs hsplit hnil
        have hne' := lead_ne_nil ht hsplit' fun hnil' => hnil (h.symm.skipBlanks_eq_nil hnil')
        have hlt : (skipBlanks s).length < s.length := by
          have := List.length_pos_iff.mpr hne
          have := congrArg List.length hsplit
          rw [List.length_append] at this
          omega
        have hpassed : SameWords (u.reverse ++ b) (v.reverse ++ b') :=
          hb.blanks (by simpa using hu) (by simpa using hv) (by simpa using hne) (by simpa using hne')
        exact .blanks hu hv hne hne' (ih _ hlt hpassed h.skip rfl)

/-! ## Whole texts -/

theorem squeeze_eq_iff {s t : List Char} :
    squeeze s = squeeze t ↔ SameWords (skipBlanks s) (skipBlanks t) := by
  rw [squeeze_eq, squeeze_eq, SameWords]

theorem squeeze_append {u : List Char} (hu : ∀ c ∈ u, isBlank c = true) (s : List Char) :
    squeeze (u ++ s) = squeeze s := by
  rw [squeeze_eq, skipBlanks_append_of_blank hu, squeeze_eq]

/-- In texts that are squeezed to the same, the segments are the same behind the white space in front. -/
theorem segments_of_squeeze {find : Finder α} {view : α → γ} (hfind : find.KeepsWords view)
    {s t : List Char} (h : squeeze s = squeeze t) :
    ∃ (u v : List Char) (l l' : List (Segment α)), (∀ c ∈ u, isBlank c = true) ∧
      (∀ c ∈ v, isBlank c = true) ∧ segments find s = u.map Segment.char ++ l ∧
      segments find t = v.map Segment.char ++ l' ∧ SameSegments view l l' := by
  obtain ⟨u, hu, hsplit⟩ := skipBlanks_split s
  obtain ⟨v, hv, hsplit'⟩ := skipBlanks_split t
  refine ⟨u, v, _, _, hu, hv, ?_, ?_, sameSegments_segmentsFrom hfind
    (show SameWords (u.reverse ++ []) (v.reverse ++ []) from ?_) (squeeze_eq_iff.mp h)⟩
  · rw [segments, ← segmentsFrom_blanks hfind.skipsBlanks hu, ← hsplit]
  · rw [segments, ← segmentsFrom_blanks hfind.skipsBlanks hv, ← hsplit']
  · exact sameWords_of_blank (by simpa using hu) (by simpa using hv)

theorem map_found?_char (u : List Char) : (u.map .char : List (Segment α)).filterMap Segment.found? = [] := by
  rw [List.filterMap_map]
  exact List.filterMap_eq_nil_iff.mpr fun _ _ => rfl

theorem SameSegments.map_found? {view : α → γ} {l l' : List (Segment α)} (h : SameSegments view l l') :
    (l.filterMap Segment.found?).map view = (l'.filterMap Segment.found?).map view := by
  induction h with
  | ends => rw [map_found?_char, map_found?_char]
  | blanks _ _ _ _ _ ih => rw [List.filterMap_append, List.filterMap_append, map_found?_char, map_found?_char,
      List.nil_append, List.nil_append, ih]
  | char c _ ih => exact ih
  | found ha _ ih => exact congrArg₂ List.cons ha ih

/-- The occurrences are the same, as far as is looked at them. -/
theorem map_occurrences {find : Finder α} {view : α → γ} (hfind : find.KeepsWords view) {s t : List Char}
    (h : squeeze s = squeeze t) : (occurrences find s).map view = (occurrences find t).map view := by
  obtain ⟨u, v, l, l', -, -, hs, ht, hsame⟩ := segments_of_squeeze hfind h
  rw [occurrences, occurrences, hs, ht, List.filterMap_append, List.filterMap_append, map_found?_char,
    map_found?_char, List.nil_append, List.nil_append, hsame.map_found?]

theorem flatMap_text_char (u : List Char) :
    (u.map .char : List (Segment (List Char))).flatMap Segment.text = u := by
  rw [List.flatMap_map]
  exact List.flatMap_singleton' u

theorem SameSegments.flatMap_text {l l' : List (Segment (List Char))} (h : SameSegments id l l') :
    SameWords (l.flatMap Segment.text) (l'.flatMap Segment.text) := by
  induction h with
  | ends hu hv => exact sameWords_of_blank (by rwa [flatMap_text_char]) (by rwa [flatMap_text_char])
  | blanks hu hv hne hne' _ ih =>
    rw [List.flatMap_append, List.flatMap_append, flatMap_text_char, flatMap_text_char]
    exact ih.blanks hu hv hne hne'
  | char c _ ih => exact ih.cons c
  | @found a a' _ _ ha _ ih =>
    obtain rfl : a = a' := ha
    exact ih.append a

theorem SameWords.squeeze {s t : List Char} (h : SameWords s t) :
    Text.squeeze s = Text.squeeze t :=
  squeeze_eq_iff.mpr h.skip

/-- Replacing keeps texts the same up to white space. -/
theorem squeeze_replaceEach {rule : Finder (List Char)} (hrule : rule.KeepsWords id) {s t : List Char}
    (h : squeeze s = squeeze t) : squeeze (replaceEach rule s) = squeeze (replaceEach rule t) := by
  obtain ⟨u, v, l, l', hu, hv, hs, ht, hsame⟩ := segments_of_squeeze hrule h
  rw [replaceEach, replaceEach, hs, ht, List.flatMap_append, List.flatMap_append, flatMap_text_char,
    flatMap_text_char, squeeze_append hu, squeeze_append hv]
  exact hsame.flatMap_text.squeeze

end RangeCalc.Text
