import RangeCalc.Proofs.Formula.Cut
import RangeCalc.Proofs.Text.Spacing

/-!
# Tokens and white space

Texts that differ in white space alone have the same tokens, if their white space is of the kind that may stand
between tokens.

* `Splits.of_squeeze_eq`: the tokens of texts that are squeezed to the same;
* `splits_squeeze_iff`: the tokens of a squeezed text are those of the text with spaces for all white space.
-/

namespace RangeCalc

open Text

/-- White space between tokens only. -/
def TokenSpaced (s : List Char) : Prop :=
  ∀ c ∈ s, isBlank c = true → isTokenBlank c = true

/-- A space for any white space. -/
def spaced (c : Char) : Char :=
  if isBlank c then ' ' else c

section

variable {s t rest rest' l : List Char} {c : Char} {ts : List Token}

theorem spaced_of_blank (hc : isBlank c = true) : spaced c = ' ' :=
  if_pos hc

theorem spaced_of_not (hc : isBlank c = false) : spaced c = c :=
  if_neg (by simp [hc])

theorem map_spaced (h : ∀ c ∈ s, isBlank c = true → c = ' ') : s.map spaced = s := by
  refine (List.map_congr_left fun c hc => ?_).trans (List.map_id s)
  cases hblank : isBlank c with
  | false => exact spaced_of_not hblank
  | true => rw [spaced_of_blank hblank, h c hc hblank, id_eq]

theorem singleSpaced_map_spaced (s : List Char) : singleSpaced (s.map spaced) = singleSpaced s := by
  induction s with
  | nil => rfl
  | cons c s ih =>
    cases hc : isBlank c with
    | false => rw [List.map_cons, spaced_of_not hc, singleSpaced_char hc, singleSpaced_char hc, ih]
    | true => rw [List.map_cons, spaced_of_blank hc, singleSpaced, if_pos isBlank_space, singleSpaced, if_pos hc, ih]

theorem skipBlanks_map_spaced (s : List Char) : skipBlanks (s.map spaced) = (skipBlanks s).map spaced := by
  induction s with
  | nil => rfl
  | cons c s ih =>
    cases hc : isBlank c with
    | false =>
      rw [List.map_cons, spaced_of_not hc, skipBlanks_char hc, skipBlanks_char hc, List.map_cons, spaced_of_not hc]
    | true => rw [List.map_cons, spaced_of_blank hc, skipBlanks_blank isBlank_space, skipBlanks_blank hc, ih]

theorem squeeze_map_spaced (s : List Char) : squeeze (s.map spaced) = squeeze s := by
  rw [squeeze_eq, squeeze_eq, skipBlanks_map_spaced, singleSpaced_map_spaced]

theorem tokenSpaced_map_spaced (s : List Char) : TokenSpaced (s.map spaced) := by
  intro c hc hblank
  obtain ⟨d, -, rfl⟩ := List.mem_map.mp hc
  cases hd : isBlank d with
  | false =>
    rw [spaced_of_not hd, hd] at hblank
    cases hblank
  | true => rw [spaced_of_blank hd]; rfl

theorem tokenSpaced_squeeze (s : List Char) : TokenSpaced (squeeze s) := by
  intro c hc hblank
  rw [(isSqueezed_squeeze s).space c hc hblank]
  rfl

theorem splits_skipBlanks_iff (hs : TokenSpaced s) : Splits (skipBlanks s) ts ↔ Splits s ts := by
  induction s with
  | nil => rfl
  | cons c s ih =>
    obtain ⟨hc, hs⟩ := List.forall_mem_cons.mp hs
    cases hblank : isBlank c with
    | false => rw [skipBlanks_char hblank]
    | true => rw [skipBlanks_blank hblank, splits_blank_iff (hc hblank), ih hs]

theorem squeeze_eq_nil_iff : squeeze s = [] ↔ skipBlanks s = [] := by
  rw [squeeze_eq]
  refine ⟨fun h => ?_, fun h => by rw [h]; rfl⟩
  have hhead := head?_skipBlanks s
  rcases hs : skipBlanks s with - | ⟨c, rest⟩
  · rfl
  · rw [hs] at h hhead
    rw [singleSpaced_char (hhead c rfl)] at h
    cases h

/-- The longest token in front of a text is the longest one in front of another with the same words. -/
theorem Front.of_sameWords (hfront : Front IsTokenText s l rest) (h : SameWords s (l ++ rest')) :
    Front IsTokenText (l ++ rest') l rest' where
  holds := hfront.holds
  split := rfl
  longest other hother hpre := by
    have hchars : ∀ c ∈ other, isBlank c = false := fun c hc => not_isBlank_of_mem hother hc
    have hsame : singleSpaced s = singleSpaced (l ++ rest') := h
    rw [← prefix_singleSpaced_iff hchars, ← hsame, prefix_singleSpaced_iff hchars] at hpre
    exact hfront.longest other hother hpre

/-- Texts that are squeezed to the same have the same tokens. -/
theorem Splits.of_squeeze_eq (hsplits : Splits s ts) (ht : TokenSpaced t) (h : squeeze s = squeeze t) :
    Splits t ts := by
  induction hsplits generalizing t with
  | nil =>
    rw [← splits_skipBlanks_iff ht, squeeze_eq_nil_iff.mp h.symm]
    exact .nil
  | blank hc _ ih =>
    rw [squeeze_eq, skipBlanks_blank (isBlank_of_isTokenBlank hc), ← squeeze_eq] at h
    exact ih ht h
  | @token u s rest ts hu hfront _ ih =>
    have hchars : ∀ c ∈ u.chars, isBlank c = false := fun c hc => not_isBlank_of_mem hfront.holds hc
    have hhead : skipBlanks s = s := by
      obtain ⟨d, tail, heq⟩ := List.exists_cons_of_ne_nil hu.chars_ne_nil
      rw [hfront.split, heq]
      exact skipBlanks_char (hchars d (heq ▸ List.mem_cons_self)) _
    have hsame : SameWords s (skipBlanks t) := by
      rw [squeeze_eq, squeeze_eq, hhead] at h
      exact h
    obtain ⟨rest', hrest', hwords⟩ := SameWords.exists_front hchars (hfront.split ▸ hsame)
    rw [hrest'] at hsame
    rw [← splits_skipBlanks_iff ht, hrest']
    refine .token hu (hfront.of_sameWords hsame) (ih (fun c hc => ?_) ?_)
    · exact ht c ((List.dropWhile_sublist _).subset (hrest' ▸ List.mem_append_right _ hc))
    · rw [squeeze_eq, squeeze_eq]
      exact hwords.skip

/-- The tokens of a squeezed text are those of the text with spaces for all white space. -/
theorem splits_squeeze_iff : Splits (squeeze s) ts ↔ Splits (s.map spaced) ts := by
  have hsame : squeeze (squeeze s) = squeeze (s.map spaced) := by
    rw [squeeze_eq_self (isSqueezed_squeeze s), squeeze_map_spaced]
  exact ⟨fun h => h.of_squeeze_eq (tokenSpaced_map_spaced s) hsame,
    fun h => h.of_squeeze_eq (tokenSpaced_squeeze s) hsame.symm⟩

end

end RangeCalc
