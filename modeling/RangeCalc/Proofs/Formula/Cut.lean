import RangeCalc.Proofs.Formula.Refusal

/-!
# Texts that are cut between tokens

* `CutsApart`: no token stands on both sides of a cut;
* `Splits.append_iff`: the tokens of a text that is cut so are those of its parts;
* `cutsApart_of_alone`, `cutsApart_of_blank`: such cuts beside characters that are parts of no longer token, and
  before white space; `cutsApart_of_mark`, `cutsApart_of_slash`: marks are such characters;
* `Splits.mem_cases`: the characters of a text that has tokens;
* `Splits.exists_first`, `Splits.exists_last`: the tokens at the ends of a text.
-/

namespace RangeCalc

open Text

variable {x y rest : List Char} {ts us : List Token} {c : Char}

/-- No token stands on both sides of the cut between the two texts. -/
def CutsApart (x y : List Char) : Prop :=
  ∀ z₁ z₂, z₁ ≠ [] → z₂ ≠ [] → z₁ <:+ x → z₂ <+: y → ¬ IsTokenText (z₁ ++ z₂)

theorem CutsApart.of_append (h : CutsApart (rest ++ x) y) : CutsApart x y :=
  fun z₁ z₂ h₁ h₂ hleft => h z₁ z₂ h₁ h₂ (hleft.trans (List.suffix_append rest x))

theorem CutsApart.tail (h : CutsApart (c :: x) y) : CutsApart x y :=
  fun z₁ z₂ h₁ h₂ hleft => h z₁ z₂ h₁ h₂ (hleft.trans (List.suffix_cons c x))

/-- The longest token at the front of the first text is the longest one in front of both. -/
theorem CutsApart.front {cs front : List Char} (h : CutsApart cs y) (hne : front ≠ [])
    (hfront : Front IsTokenText cs front rest) : Front IsTokenText (cs ++ y) front (rest ++ y) where
  holds := hfront.holds
  split := by rw [hfront.split, List.append_assoc]
  longest other hother hprefix := by
    have hcs : cs ≠ [] := by
      rw [hfront.split]
      exact List.append_ne_nil_of_left_ne_nil hne rest
    rcases List.prefix_or_prefix_of_prefix hprefix (List.prefix_append cs y) with hpre | ⟨z, rfl⟩
    · exact hfront.longest other hother hpre
    · rcases eq_or_ne z [] with rfl | hz
      · exact hfront.longest _ hother (by simp)
      · exact absurd hother (h cs z hcs hz List.suffix_rfl ((List.prefix_append_right_inj cs).mp hprefix))

theorem Splits.append (h : CutsApart x y) (hx : Splits x ts) (hy : Splits y us) :
    Splits (x ++ y) (ts ++ us) := by
  induction hx with
  | nil => exact hy
  | @blank c rest ts hc _ ih => exact .blank hc (ih h.tail)
  | @token t cs rest ts ht hfront _ ih =>
    have hrest : CutsApart rest y := (hfront.split ▸ h).of_append
    exact .token ht (h.front ht.chars_ne_nil hfront) (ih hrest)

theorem Splits.of_append (h : CutsApart x y) (hsplits : Splits (x ++ y) ts) :
    ∃ ts₁ ts₂, ts = ts₁ ++ ts₂ ∧ Splits x ts₁ ∧ Splits y ts₂ := by
  generalize htext : x ++ y = text at hsplits
  induction hsplits generalizing x with
  | nil =>
    obtain ⟨rfl, rfl⟩ := List.append_eq_nil_iff.mp htext
    exact ⟨[], [], rfl, .nil, .nil⟩
  | @blank c rest ts hc hrest ih =>
    rcases x with - | ⟨d, x⟩
    · obtain rfl : y = c :: rest := htext
      exact ⟨[], ts, rfl, .nil, .blank hc hrest⟩
    · obtain ⟨rfl, htail⟩ := List.cons.inj htext
      obtain ⟨ts₁, ts₂, rfl, hx, hy⟩ := ih h.tail htail
      exact ⟨ts₁, ts₂, rfl, .blank hc hx, hy⟩
  | @token t cs rest ts ht hfront hrest ih =>
    subst htext
    rcases List.append_eq_append_iff.mp hfront.split with ⟨z, hchars, hy⟩ | ⟨x', rfl, rfl⟩
    · -- The token goes to the end of the first text at least, so it ends there if it starts before.
      rcases eq_or_ne x [] with rfl | hx
      · exact ⟨[], t :: ts, rfl, .nil, .token ht hfront hrest⟩
      · obtain rfl : z = [] := by
          by_contra hz
          exact h x z hx hz List.suffix_rfl (hy ▸ List.prefix_append z rest) ⟨t, ht, hchars⟩
        rw [List.append_nil] at hchars
        refine ⟨[t], ts, rfl, .token ht ?_ .nil, hy ▸ hrest⟩
        exact ⟨⟨t, ht, rfl⟩, by rw [hchars, List.append_nil], fun _ _ hpre => hchars ▸ hpre.length_le⟩
    · obtain ⟨ts₁, ts₂, rfl, hx, hy⟩ := ih h.of_append rfl
      rw [List.append_assoc] at hfront
      exact ⟨t :: ts₁, ts₂, rfl, .token ht hfront.of_append hx, hy⟩

/-- The tokens of a text that is cut between tokens are those of its parts. -/
theorem Splits.append_iff (h : CutsApart x y) :
    Splits (x ++ y) ts ↔ ∃ ts₁ ts₂, ts = ts₁ ++ ts₂ ∧ Splits x ts₁ ∧ Splits y ts₂ := by
  refine ⟨Splits.of_append h, ?_⟩
  rintro ⟨ts₁, ts₂, rfl, hx, hy⟩
  exact hx.append h hy

/-! ## Characters that end tokens -/

/-- Marks that are parts of no longer token. -/
def isMark (c : Char) : Bool :=
  [' ', '(', ')', ','].elem c

/-- A character of no name and no literal is a token of its own, apart from the star. -/
theorem eq_of_alone (hc : isNameStart c = false ∧ isNameChar c = false ∧ isDigit c = false ∧
    c ∉ ['.', 'e', 'E', '+', '-', '*']) {l : List Char} (hl : IsTokenText l) (hmem : c ∈ l) : l = [c] := by
  obtain ⟨hstart, hname, hdigit, hother⟩ := hc
  obtain ⟨t, ht, rfl⟩ := hl
  cases t with
  | number l =>
    have := IsNumber.mem ht hmem
    simp_all
  | name l =>
    obtain ⟨hd, htail⟩ := ht
    rcases List.mem_cons.mp hmem with rfl | hmem
    · simp_all
    · have := htail c hmem
      simp_all
  | doubleStar => simp_all [Token.chars]
  | _ => rw [List.mem_singleton.mp hmem]; rfl

theorem eq_of_mark (hc : isMark c = true) {l : List Char} (hl : IsTokenText l) (hmem : c ∈ l) : l = [c] := by
  refine eq_of_alone ?_ hl hmem
  have hmem := List.elem_iff.mp hc
  simp only [List.mem_cons, List.not_mem_nil, or_false] at hmem
  rcases hmem with rfl | rfl | rfl | rfl <;> decide +kernel

theorem eq_star_of_mem {l : List Char} (hl : IsTokenText l) (hstar : '*' ∈ l) (hmem : c ∈ l) : c = '*' := by
  obtain ⟨t, ht, rfl⟩ := hl
  cases t with
  | number l => exact absurd (IsNumber.mem ht hstar) (by decide +kernel)
  | name l =>
    obtain ⟨hd, htail⟩ := ht
    rcases List.mem_cons.mp hstar with rfl | hstar
    · cases hd
    · cases htail _ hstar
  | _ => simp_all [Token.chars]

/-- What tokens are made of. -/
theorem mem_tokenText {l : List Char} (hl : IsTokenText l) (hmem : c ∈ l) :
    isWordChar c = true ∨ c ∈ ['.', '*', '+', '-', '/', '^', '(', ')', ','] := by
  obtain ⟨t, ht, rfl⟩ := hl
  cases t with
  | number l =>
    rcases IsNumber.mem ht hmem with (h | rfl) | (rfl | rfl) | (rfl | rfl)
    · exact .inl (isWordChar_of_isDigit h)
    all_goals decide +kernel
  | name l =>
    obtain ⟨hd, htail⟩ := ht
    rcases List.mem_cons.mp hmem with rfl | hmem
    · exact .inl (isWordChar_of_isNameStart hd)
    · exact .inl (isWordChar_of_isNameChar (htail c hmem))
  | _ => exact .inr (by simp_all [Token.chars])

theorem not_isBlank_of_mem {l : List Char} (hl : IsTokenText l) (hmem : c ∈ l) : isBlank c = false := by
  refine Bool.of_not_eq_true fun hblank => ?_
  rcases mem_tokenText hl hmem with hword | hmem
  · rw [not_isWordChar_of_isBlank hblank] at hword
    cases hword
  · simp only [List.mem_cons, List.not_mem_nil, or_false] at hmem
    rcases hmem with rfl | rfl | rfl | rfl | rfl | rfl | rfl | rfl | rfl <;> cases hblank

theorem isBlank_of_isTokenBlank (hc : isTokenBlank c = true) : isBlank c = true := by
  simp only [isTokenBlank, Bool.or_eq_true, beq_iff_eq] at hc
  rcases hc with (((rfl | rfl) | rfl) | rfl) | rfl <;> decide

/-- What texts of tokens are made of. -/
theorem Splits.mem_cases (h : Splits rest ts) (hmem : c ∈ rest) :
    isBlank c = true ∨ isWordChar c = true ∨ c ∈ ['.', '*', '+', '-', '/', '^', '(', ')', ','] := by
  induction h with
  | nil => cases hmem
  | blank hblank _ ih =>
    rcases List.mem_cons.mp hmem with rfl | hmem
    · exact .inl (isBlank_of_isTokenBlank hblank)
    · exact ih hmem
  | @token t cs rest ts ht hfront _ ih =>
    rw [hfront.split] at hmem
    rcases List.mem_append.mp hmem with hmem | hmem
    · exact .inr (mem_tokenText ⟨t, ht, rfl⟩ hmem)
    · exact ih hmem

/-- A cut before a character that is a token of its own. -/
theorem cutsApart_of_alone (hc : ∀ l, IsTokenText l → c ∈ l → l = [c]) : CutsApart x (c :: y) := by
  intro z₁ z₂ h₁ h₂ _ hright hl
  obtain ⟨d, z₂, rfl⟩ := List.exists_cons_of_ne_nil h₂
  obtain ⟨rfl, -⟩ := List.cons_prefix_cons.mp hright
  have hlength := congrArg List.length (hc _ hl (by simp))
  have := List.length_pos_iff.mpr h₁
  simp only [List.length_append, List.length_cons, List.length_nil] at hlength
  omega

/-- A cut before a mark. -/
theorem cutsApart_of_mark (hc : isMark c = true) : CutsApart x (c :: y) :=
  cutsApart_of_alone fun _ => eq_of_mark hc

theorem cutsApart_of_slash : CutsApart x ('/' :: y) :=
  cutsApart_of_alone fun _ => eq_of_alone (by decide +kernel)

/-- A cut behind a mark. -/
theorem cutsApart_behind_mark (hc : isMark c = true) : CutsApart (x ++ [c]) y := by
  intro z₁ z₂ h₁ h₂ hleft _ hl
  obtain ⟨z₁, rfl, -⟩ := (List.suffix_concat_iff.mp hleft).resolve_left h₁
  have hmem : c ∈ z₁ ++ [c] := by simp
  have hlength := congrArg List.length (eq_of_mark hc hl (List.mem_append_left z₂ hmem))
  have := List.length_pos_iff.mpr h₂
  simp only [List.length_append, List.length_cons, List.length_nil] at hlength
  omega

/-- A cut before white space. -/
theorem cutsApart_of_blank (hc : isBlank c = true) : CutsApart x (c :: y) := by
  intro z₁ z₂ _ h₂ _ hright hl
  obtain ⟨d, z₂, rfl⟩ := List.exists_cons_of_ne_nil h₂
  obtain ⟨rfl, -⟩ := List.cons_prefix_cons.mp hright
  rw [not_isBlank_of_mem hl (by simp)] at hc
  cases hc

/-! ## The ends of a text -/

/-- White space in front of tokens is left out. -/
theorem Splits.drop_blanks {bs : List Char} (hbs : ∀ b ∈ bs, isBlank b = true) (h : Splits (bs ++ rest) ts) :
    Splits rest ts := by
  induction bs with
  | nil => exact h
  | cons b bs ih =>
    obtain ⟨hb, hbs⟩ := List.forall_mem_cons.mp hbs
    cases h with
    | blank _ h => exact ih hbs h
    | @token t _ after _ ht hfront _ =>
      obtain ⟨d, tail, hchars⟩ := List.exists_cons_of_ne_nil ht.chars_ne_nil
      have hsplit := hfront.split
      rw [hchars] at hsplit
      obtain ⟨rfl, -⟩ := List.cons.inj hsplit
      rw [not_isBlank_of_mem ⟨t, ht, rfl⟩ (hchars ▸ List.mem_cons_self)] at hb
      cases hb

/-- Only white space stands before the first token. -/
theorem Splits.exists_first {t : Token} (h : Splits rest (t :: ts)) :
    ∃ bs tail, (∀ b ∈ bs, isBlank b = true) ∧ rest = bs ++ (t.chars ++ tail) := by
  generalize hts : t :: ts = tokens at h
  induction h with
  | nil => cases hts
  | @blank c rest _ hc _ ih =>
    obtain ⟨bs, tail, hbs, rfl⟩ := ih hts
    exact ⟨c :: bs, tail, List.forall_mem_cons.mpr ⟨isBlank_of_isTokenBlank hc, hbs⟩, rfl⟩
  | @token u cs rest us _ hfront _ _ =>
    obtain ⟨rfl, -⟩ := List.cons.inj hts
    exact ⟨[], rest, nofun, hfront.split⟩

/-- A text whose last character is not white space ends with its last token. -/
theorem Splits.exists_last (h : Splits (x ++ [c]) ts) (hc : isBlank c = false) :
    ∃ us t, ts = us ++ [t] ∧ t.IsTerminal ∧ t.chars <:+ x ++ [c] := by
  generalize htext : x ++ [c] = text at h
  induction h generalizing x with
  | nil => simp at htext
  | @blank d rest ts hd _ ih =>
    rcases x with - | ⟨e, x⟩
    · obtain ⟨rfl, -⟩ := List.cons.inj htext
      rw [isBlank_of_isTokenBlank hd] at hc
      cases hc
    · obtain ⟨rfl, hrest⟩ := List.cons.inj htext
      obtain ⟨us, t, rfl, ht, hsuffix⟩ := ih hrest
      exact ⟨us, t, rfl, ht, hsuffix.trans (List.suffix_cons e rest)⟩
  | @token t cs rest ts ht hfront hrest ih =>
    rcases List.eq_nil_or_concat rest with rfl | ⟨init, d, rfl⟩
    · obtain rfl := splits_nil_iff.mp hrest
      rw [hfront.split, List.append_nil]
      exact ⟨[], t, rfl, ht, List.suffix_rfl⟩
    · have hsplit := hfront.split
      rw [List.concat_eq_append, ← List.append_assoc, ← htext] at hsplit
      obtain rfl : c = d := List.singleton_inj.mp (List.append_inj' hsplit rfl).2
      obtain ⟨us, u, rfl, hu, hsuffix⟩ := ih (List.concat_eq_append).symm
      exact ⟨t :: us, u, rfl, hu, hfront.split ▸ hsuffix.trans (List.suffix_append _ _)⟩

end RangeCalc
