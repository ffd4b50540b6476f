import RangeCalc.Proofs.Formula.Cut
import RangeCalc.Proofs.Shorthand.Product

/-!
# The tokens of a text with product signs written

The rules read characters, and one character before a numeral. All the same a product sign is written only
between tokens.

* `Multiplied`: tokens with product signs between some of them;
* `Whole`: a factor that no token holds together with what follows it;
* `Whole.exists_tokens`: around such a factor stand a token that ends a factor and one that starts one;
* `Multiplies.splits_replaceEach`: one rule writes product signs between tokens;
* `isChain_of_free`: where the rules for closing parentheses find nothing, behind them no product sign is
  missing;
* `insertProducts_tokens`: the tokens of a text with all product signs written.
-/

namespace RangeCalc

/-- A token that a product sign may be missing after. -/
def Token.EndsFactor : Token → Prop
  | number _ => True
  | rightParen => True
  | _ => False

/-- A token that a product sign may be missing before. -/
def Token.StartsFactor : Token → Prop
  | leftParen => True
  | name _ => True
  | _ => False

/-- The second tokens are the first with a product sign between some neighbours, of which one ends a factor
and the next starts one. Neighbours without a product sign between them are `bare`. -/
inductive Multiplied (bare : Token → Token → Prop) : (ts ts' : List Token) → Prop where
  | nil : Multiplied bare [] []
  | single (t : Token) : Multiplied bare [t] [t]
  | bare {t u : Token} {ts ts' : List Token} (h : bare t u) (rest : Multiplied bare (u :: ts) (u :: ts')) :
      Multiplied bare (t :: u :: ts) (t :: u :: ts')
  | star {t u : Token} {ts ts' : List Token} (ht : t.EndsFactor) (hu : u.StartsFactor)
      (rest : Multiplied bare (u :: ts) (u :: ts')) : Multiplied bare (t :: u :: ts) (t :: .star :: u :: ts')

/-- Neighbours that may stay without a product sign: not a closing parenthesis and the start of a factor. -/
def MayAdjoin (t u : Token) : Prop :=
  ¬ (t = .rightParen ∧ u.StartsFactor)

namespace Multiplied

variable {ts ts' us : List Token} {u : Token}

/-- The first token stays the first. -/
theorem exists_cons {bare : Token → Token → Prop} (h : Multiplied bare (u :: ts) us) :
    ∃ us', us = u :: us' := by
  cases h <;> exact ⟨_, rfl⟩

theorem refl (ts : List Token) : Multiplied (fun _ _ => True) ts ts := by
  induction ts with
  | nil => exact .nil
  | cons t ts ih =>
    cases ts with
    | nil => exact .single t
    | cons u ts => exact .bare trivial ih

theorem prepend (front : List Token) (h : Multiplied (fun _ _ => True) (u :: ts) (u :: ts')) :
    Multiplied (fun _ _ => True) (front ++ u :: ts) (front ++ u :: ts') := by
  induction front with
  | nil => exact h
  | cons t front ih =>
    cases front with
    | nil => exact .bare trivial ih
    | cons v front => exact .bare trivial ih

/-- Product signs are written between the tokens with product signs. -/
theorem trans {ts₁ ts₂ ts₃ : List Token} (h : Multiplied (fun _ _ => True) ts₁ ts₂)
    (h' : Multiplied (fun _ _ => True) ts₂ ts₃) : Multiplied (fun _ _ => True) ts₁ ts₃ := by
  induction h generalizing ts₃ with
  | nil => exact h'
  | single t => exact h'
  | bare _ _ ih =>
    cases h' with
    | bare _ rest => exact .bare trivial (ih rest)
    | star ht hu rest => exact .star ht hu (ih rest)
  | star ht hu _ ih =>
    -- Neither before nor after a product sign another one is written.
    cases h' with
    | bare _ rest =>
      cases rest with
      | bare _ rest => exact .star ht hu (ih rest)
      | star hstar _ _ => exact hstar.elim
    | star _ hstar _ => exact hstar.elim

/-- Neighbours in the result were neighbours before. -/
theorem of_isChain {bare : Token → Token → Prop} (h : Multiplied (fun _ _ => True) ts ts')
    (hbare : ts'.IsChain bare) : Multiplied bare ts ts' := by
  induction h with
  | nil => exact .nil
  | single t => exact .single t
  | bare _ _ ih =>
    rw [List.isChain_cons_cons] at hbare
    exact .bare hbare.1 (ih hbare.2)
  | star ht hu _ ih =>
    rw [List.isChain_cons_cons, List.isChain_cons_cons] at hbare
    exact .star ht hu (ih hbare.2.2)

end Multiplied

open Text Shorthand

theorem Token.IsTerminal.startsFactor {t : Token} {r : Char} {after : List Char} (ht : t.IsTerminal)
    (hr : Shorthand.StartsFactor r) (h : t.chars <+: r :: after) : t.StartsFactor := by
  rcases ht.kind h with ⟨l, rfl, hnumber⟩ | ⟨l, rfl, -⟩ | ⟨hsymbol, hchars⟩
  · rcases hr with rfl | hr
    · cases hnumber
    · rw [not_isNumberStart_of_isNameStart hr] at hnumber
      cases hnumber
  · trivial
  · rcases hr with rfl | hr
    · rcases hchars with hchars | ⟨-, hstar, -⟩
      · obtain rfl : t = .leftParen := ht.eq_of_chars (u := .leftParen) trivial hchars
        trivial
      · cases hstar
    · rw [(isSymbol_cases hsymbol).2] at hr
      cases hr

theorem Token.IsTerminal.endsFactor {t : Token} {init : List Char} {l : Char} (ht : t.IsTerminal)
    (hl : Shorthand.EndsFactor l) (h : t.chars = init ++ [l]) (hname : ¬ IsName t.chars) : t.EndsFactor := by
  have hlast : t.chars.getLast? = some l := by simp [h]
  cases t with
  | number l => trivial
  | rightParen => trivial
  | name l => exact absurd ht hname
  | _ =>
    obtain rfl := Option.some.inj hlast
    rcases hl with hl | hl
    · exact absurd hl (by decide +kernel)
    · cases hl

/-- A token that starts a factor is written so. -/
theorem Token.StartsFactor.exists_cons {t : Token} (h : t.StartsFactor) (ht : t.IsTerminal) :
    ∃ r tail, t.chars = r :: tail ∧ Shorthand.StartsFactor r := by
  cases t with
  | leftParen => exact ⟨'(', [], rfl, .inl rfl⟩
  | name l =>
    obtain ⟨hc, -⟩ := ht
    exact ⟨_, _, rfl, .inr hc⟩
  | _ => exact h.elim

/-- A token with a letter behind its first character is a literal or a name. -/
theorem IsTokenText.of_letter {z tail : List Char} {r : Char} (h : IsTokenText (z ++ r :: tail)) (hz : z ≠ [])
    (hr : isNameStart r = true) : IsNumber (z ++ r :: tail) ∨ IsName z := by
  obtain ⟨t, ht, hchars⟩ := h
  obtain ⟨d, z, rfl⟩ := List.exists_cons_of_ne_nil hz
  have hfirst : t.chars <+: d :: (z ++ r :: tail) := hchars ▸ List.prefix_rfl
  rcases ht.kind hfirst with ⟨l, rfl, -⟩ | ⟨l, rfl, -⟩ | ⟨-, hsymbol | ⟨rfl, -⟩⟩
  · exact .inl (hchars ▸ ht)
  · have hname : IsName (d :: z ++ r :: tail) := hchars ▸ ht
    obtain ⟨hd, htail⟩ := hname
    exact .inr ⟨hd, fun x hx => htail x (List.mem_append_left _ hx)⟩
  · simp [hchars] at hsymbol
  · have hmem : r ∈ Token.doubleStar.chars := hchars ▸ by simp
    obtain rfl : r = '*' := by simpa [Token.chars] using hmem
    cases hr

/-- In a literal a letter starts the exponent. -/
theorem IsNumber.isExponent {z tail : List Char} {r : Char} (h : IsNumber (z ++ r :: tail))
    (hr : isNameStart r = true) : IsExponent (r :: tail) := by
  have hmantissa : ∀ {m : List Char}, IsMantissa m → r ∉ m := by
    intro m hm hmem
    rcases hm.mem hmem with hdigit | rfl
    · rw [not_isDigit_of_isNameStart hr] at hdigit
      cases hdigit
    · cases hr
  generalize heq : z ++ r :: tail = l at h
  cases h with
  | mantissa hm => exact absurd (heq ▸ by simp) (hmantissa hm)
  | @scientific m x hm hx =>
    rcases List.append_eq_append_iff.mp heq with ⟨z', rfl, hright⟩ | ⟨z', rfl, rfl⟩
    · rcases z' with - | ⟨d, z'⟩
      · exact hright ▸ hx
      · obtain ⟨rfl, -⟩ := List.cons.inj hright
        exact absurd (by simp) (hmantissa hm)
    · rcases z' with - | ⟨d, z'⟩
      · exact hx
      · -- Behind its first letter an exponent has a sign and digits.
        exfalso
        generalize htext : d :: z' ++ r :: tail = text at hx
        obtain @⟨e, sign, ds, -, hs, hd⟩ := hx
        have hmem : r ∈ sign ++ ds := by
          rw [← (List.cons.inj htext).2]
          exact List.mem_append_right z' List.mem_cons_self
        rcases List.mem_append.mp hmem with hmem | hmem
        · rcases hs with rfl | rfl | rfl
          · cases hmem
          all_goals
            obtain rfl := List.mem_singleton.mp hmem
            cases hr
        · have hdigit := hd.2 r hmem
          rw [not_isDigit_of_isNameStart hr] at hdigit
          cases hdigit

theorem IsExponent.startsWithExponent {x rest : List Char} (hx : IsExponent x) (h : x <+: rest) :
    Shorthand.startsWithExponent rest = true := by
  obtain ⟨rest, rfl⟩ := h
  obtain @⟨e, sign, ds, he, hs, hd⟩ := hx
  obtain ⟨d, ds, rfl⟩ := List.exists_cons_of_ne_nil hd.1
  have hdigit := hd.2 d List.mem_cons_self
  refine startsWithExponent_iff.mpr ⟨he, ?_⟩
  rcases hs with rfl | rfl | rfl
  · exact .inl ⟨d, _, rfl, hdigit⟩
  · exact .inr ⟨'+', d, _, rfl, .inl rfl, hdigit⟩
  · exact .inr ⟨'-', d, _, rfl, .inr rfl, hdigit⟩

namespace Shorthand

/-! ## Factors between tokens -/

/-- A factor at whose start a token may start, and with which no literal goes on into what follows. -/
inductive Whole (before : List Char) : (f rest : List Char) → Prop where
  | numeral {f rest : List Char} (hn : IsNumeral f) (halone : standsAlone before = true)
      (hexp : startsWithExponent rest = false) : Whole before f rest
  | parenthesis {rest : List Char} : Whole before [')'] rest

namespace Whole

variable {before pre f rest bs after : List Char} {r : Char}

theorem isFactor (h : Whole before f rest) : IsFactor f := by
  cases h with
  | numeral hn _ _ => exact .numeral hn
  | parenthesis => exact .parenthesis

/-- No name ends with the factor. -/
theorem not_isName (h : Whole (pre.reverse ++ before) f rest) {z : List Char} (hz : z <:+ pre ++ f) :
    ¬ IsName z := by
  intro hname
  have hchars : ∀ c ∈ z, isNameChar c = true := by
    obtain ⟨hc, htail⟩ := hname
    exact List.forall_mem_cons.mpr ⟨by rw [isNameChar, hc, Bool.true_or], htail⟩
  cases h with
  | numeral hn halone _ =>
    obtain ⟨d, f, rfl, hd⟩ := hn.head
    have hhead : ∀ {c : Char} {tail : List Char}, c :: tail = z → c ∉ d :: f := by
      rintro c tail rfl hmem
      obtain ⟨hc, -⟩ := hname
      rcases hn.mem hmem with hdigit | rfl
      · rw [not_isDigit_of_isNameStart hc] at hdigit
        cases hdigit
      · cases hc
    obtain ⟨a, ha⟩ := hz
    rcases List.append_eq_append_iff.mp ha with ⟨w, rfl, rfl⟩ | ⟨w, rfl, hw⟩
    · -- The name starts before the numeral, so the character before the numeral is one of the name.
      rcases List.eq_nil_or_concat w with rfl | ⟨w, c, rfl⟩
      · exact hhead rfl List.mem_cons_self
      · have hc := isWordChar_of_isNameChar (hchars c (by simp))
        simp [standsAlone, hc] at halone
    · obtain ⟨c, tail, rfl⟩ := List.exists_cons_of_ne_nil hname.ne_nil
      exact hhead rfl (hw ▸ by simp)
  | parenthesis =>
    obtain ⟨z, rfl, -⟩ := (List.suffix_concat_iff.mp hz).resolve_left hname.ne_nil
    cases hchars ')' (by simp)

/-- No token holds the factor together with what follows. -/
theorem cutsApart (h : Whole (pre.reverse ++ before) f (bs ++ r :: after))
    (hbs : ∀ b ∈ bs, isBlank b = true) (hr : StartsFactor r) : CutsApart (pre ++ f) (bs ++ r :: after) := by
  rcases bs with - | ⟨b, bs⟩
  · rcases hr with rfl | hr
    · exact cutsApart_of_mark rfl
    have hwhole := h
    cases h with
    | parenthesis => exact cutsApart_behind_mark rfl
    | numeral _ _ hexp =>
      intro z₁ z₂ h₁ h₂ hleft hright htoken
      obtain ⟨c, z₂, rfl⟩ := List.exists_cons_of_ne_nil h₂
      obtain rfl := (List.cons_prefix_cons.mp hright).1
      rcases htoken.of_letter h₁ hr with hnumber | hname
      · rw [(hnumber.isExponent hr).startsWithExponent hright] at hexp
        cases hexp
      · exact hwhole.not_isName hleft hname
  · exact cutsApart_of_blank (hbs b List.mem_cons_self)

/-- The factor ends a token, and the next token starts a factor. -/
theorem exists_tokens {ts : List Token} (h : Whole (pre.reverse ++ before) f (bs ++ r :: after))
    (hbs : ∀ b ∈ bs, isBlank b = true) (hr : StartsFactor r)
    (hsplits : Splits (pre ++ (f ++ (bs ++ r :: after))) ts) :
    ∃ front t u back, ts = front ++ t :: u :: back ∧ t.EndsFactor ∧ u.StartsFactor ∧
      Splits (pre ++ f) (front ++ [t]) ∧ Splits (r :: after) (u :: back) := by
  rw [← List.append_assoc] at hsplits
  obtain ⟨ts₁, ts₂, rfl, hleft, hright⟩ := (Splits.append_iff (h.cutsApart hbs hr)).mp hsplits
  obtain ⟨init, l, rfl, hl⟩ := h.isFactor.last
  rw [← List.append_assoc] at hleft
  obtain ⟨front, t, rfl, ht, hsuffix⟩ := hleft.exists_last hl.not_blank
  obtain ⟨u, back, rfl, hu⟩ : ∃ u back, ts₂ = u :: back ∧ u.StartsFactor := by
    cases hright.drop_blanks hbs with
    | blank hblank _ =>
      have := hr.not_blank
      rw [isBlank_of_isTokenBlank hblank] at this
      cases this
    | token hu hfront _ => exact ⟨_, _, rfl, hu.startsFactor hr ⟨_, hfront.split.symm⟩⟩
  have hname : ¬ IsName t.chars := h.not_isName (by rwa [← List.append_assoc])
  obtain ⟨init', hchars, -⟩ := (List.suffix_concat_iff.mp hsuffix).resolve_left ht.chars_ne_nil
  exact ⟨front, t, u, back, by simp, ht.endsFactor hl hchars hname, hu, by rwa [← List.append_assoc],
    hright.drop_blanks hbs⟩

end Whole

/-- No token holds the end of a factor together with a product sign. -/
theorem cutsApart_star {x y : List Char} {l : Char} (hl : EndsFactor l) : CutsApart (x ++ [l]) ('*' :: y) := by
  intro z₁ z₂ h₁ h₂ hleft hright htoken
  obtain ⟨c, z₂, rfl⟩ := List.exists_cons_of_ne_nil h₂
  obtain rfl := (List.cons_prefix_cons.mp hright).1
  obtain ⟨z₁, rfl, -⟩ := (List.suffix_concat_iff.mp hleft).resolve_left h₁
  obtain rfl : l = '*' := eq_star_of_mem htoken (by simp) (by simp)
  rcases hl with hl | hl
  · exact absurd hl (by decide +kernel)
  · cases hl

/-- A product sign between a factor and the start of another one is a token. -/
theorem splits_star {x after f : List Char} {r : Char} {ts us : List Token} (hf : IsFactor f)
    (hr : StartsFactor r) (hleft : Splits (x ++ f) ts) (hright : Splits (r :: after) us) :
    Splits (x ++ (f ++ '*' :: r :: after)) (ts ++ .star :: us) := by
  have hstar : Splits ('*' :: r :: after) (.star :: us) :=
    .token trivial (front_symbol (t := .star) trivial rfl rfl fun _ _ heq => hr.ne_star (List.cons.inj heq).1).2
      hright
  obtain ⟨init, l, rfl, hl⟩ := hf.last
  rw [← List.append_assoc] at hleft
  have := hleft.append (cutsApart_star hl) hstar
  simpa using this

/-! ## Rules -/

namespace Multiplies

variable {rule : Finder (List Char)} {Factor : List Char → Prop} {alone : List Char → Bool}
  {Follows : List Char → Prop} (hrule : Multiplies rule Factor alone Follows)
  (hwhole : ∀ {before f bs rest}, alone before = true → Factor f → (∀ b ∈ bs, isBlank b = true) →
    Follows rest → Whole before f (bs ++ rest))

include hrule hwhole

/-- Of a text that is read from some place on, after what has been passed since the last occurrence. -/
theorem splits_of_scan {before text : List Char} {ps : List (Piece (List Char))}
    (hps : Scans rule before text ps) (pre before₀ : List Char) (hbefore : before = pre.reverse ++ before₀)
    {ts : List Token} (hts : Splits (pre ++ text) ts) :
    ∃ ts', Splits (pre ++ rewritten id ps) ts' ∧ Multiplied (fun _ _ => True) ts ts' := by
  induction hps generalizing pre before₀ ts with
  | nil => exact ⟨ts, hts, .refl ts⟩
  | @char before rest c ps _ _ ih =>
    have := ih (pre ++ [c]) before₀ (by simp [hbefore]) (by simpa using hts)
    simpa using this
  | @found before covered after out ps hne hsome _ ih =>
    obtain ⟨halone, f, bs, r, hf, hbs, hfollows, htext, rfl⟩ := hrule.eq_some hsome
    obtain ⟨_, _, heq, hr⟩ := hrule.starts hfollows
    obtain ⟨rfl, -⟩ := List.cons.inj heq
    obtain rfl : covered = f ++ (bs ++ [r]) := List.append_cancel_right (htext.trans (by simp))
    subst hbefore
    rw [htext] at hts
    obtain ⟨front, t, u, back, rfl, ht, hu, hleft, hright⟩ :=
      (hwhole halone hf hbs hfollows).exists_tokens hbs hr hts
    -- What follows starts with the character that the occurrence ends with.
    obtain ⟨us, hus, hmultiplied⟩ := ih [r] ((f ++ bs).reverse ++ (pre.reverse ++ before₀)) (by simp) hright
    obtain ⟨us, rfl⟩ := hmultiplied.exists_cons
    refine ⟨front ++ [t] ++ .star :: u :: us, ?_, ?_⟩
    · have := splits_star (hrule.isFactor hf) hr hleft hus
      simpa using this
    · have := Multiplied.prepend front (.star ht hu hmultiplied)
      simpa using this

/-- The rule writes product signs between tokens. -/
theorem splits_replaceEach {text : List Char} {ts : List Token} (h : Splits text ts) :
    ∃ ts', Splits (replaceEach rule text) ts' ∧ Multiplied (fun _ _ => True) ts ts' := by
  obtain ⟨ps, hps⟩ := Scans.exists_scan hrule.covers [] text
  rw [hps.replaceEach_eq]
  exact hrule.splits_of_scan hwhole hps [] [] rfl h

end Multiplies

theorem startsWithExponent_of_blank {bs : List Char} {r : Char} (tail : List Char)
    (hbs : ∀ b ∈ bs, isBlank b = true) (h : startsWithExponent (r :: tail) = false) :
    startsWithExponent (bs ++ r :: tail) = false := by
  rcases bs with - | ⟨b, bs⟩
  · exact h
  · refine Bool.of_not_eq_true fun hexp => ?_
    have hb := hbs b List.mem_cons_self
    rcases (startsWithExponent_iff.mp hexp).1 with rfl | rfl <;> cases hb

theorem splits_numberParenthesis {text : List Char} {ts : List Token} (h : Splits text ts) :
    ∃ ts', Splits (replaceEach numberParenthesis text) ts' ∧ Multiplied (fun _ _ => True) ts ts' := by
  refine multiplies_numberParenthesis.splits_replaceEach ?_ h
  rintro before f bs _ halone hf hbs ⟨tail, rfl⟩
  exact .numeral hf halone (startsWithExponent_of_blank tail hbs rfl)

theorem splits_numberName {text : List Char} {ts : List Token} (h : Splits text ts) :
    ∃ ts', Splits (replaceEach numberName text) ts' ∧ Multiplied (fun _ _ => True) ts ts' := by
  refine multiplies_numberName.splits_replaceEach ?_ h
  rintro before f bs _ halone hf hbs ⟨⟨l, tail, rfl, -⟩, hexp⟩
  exact .numeral hf halone (startsWithExponent_of_blank tail hbs hexp)

theorem splits_parenthesisParenthesis {text : List Char} {ts : List Token} (h : Splits text ts) :
    ∃ ts', Splits (replaceEach parenthesisParenthesis text) ts' ∧ Multiplied (fun _ _ => True) ts ts' := by
  refine multiplies_parenthesisParenthesis.splits_replaceEach ?_ h
  rintro before _ bs rest - rfl - -
  exact .parenthesis

theorem splits_parenthesisName {text : List Char} {ts : List Token} (h : Splits text ts) :
    ∃ ts', Splits (replaceEach parenthesisName text) ts' ∧ Multiplied (fun _ _ => True) ts ts' := by
  refine multiplies_parenthesisName.splits_replaceEach ?_ h
  rintro before _ bs rest - rfl - -
  exact .parenthesis

/-! ## Closing parentheses -/

/-- Where no rule for closing parentheses finds anything, no product sign is missing behind them. -/
theorem isChain_of_free {text : List Char} {ts : List Token} (h : Splits text ts)
    (hparenthesis : Free (Found parenthesisParenthesis) text) (hname : Free (Found parenthesisName) text) :
    ts.IsChain MayAdjoin := by
  have hfree : ∀ bs r tail, (∀ b ∈ bs, isBlank b = true) → StartsFactor r →
      ¬ ')' :: (bs ++ r :: tail) <:+ text := by
    rintro bs r tail hbs hr ⟨pre, rfl⟩
    rcases hr with rfl | hr
    · exact hparenthesis pre _ rfl (multiplies_parenthesisParenthesis.found rfl rfl hbs ⟨tail, rfl⟩)
    · exact hname pre _ rfl (multiplies_parenthesisName.found rfl rfl hbs ⟨r, tail, rfl, hr⟩)
  clear hparenthesis hname
  induction h with
  | nil => exact .nil
  | blank _ _ ih =>
    exact ih fun bs r tail hbs hr hsuffix => hfree bs r tail hbs hr (hsuffix.trans (List.suffix_cons _ _))
  | @token t cs rest ts ht hfront hrest ih =>
    have htail := ih fun bs r tail hbs hr hsuffix =>
      hfree bs r tail hbs hr (hfront.split ▸ hsuffix.trans (List.suffix_append _ _))
    rcases ts with - | ⟨u, ts⟩
    · exact .singleton t
    · refine .cons_cons ?_ htail
      rintro ⟨rfl, hu⟩
      obtain ⟨bs, tail, hbs, rfl⟩ := hrest.exists_first
      obtain ⟨r, tail', hchars, hr⟩ := hu.exists_cons (hrest.isTerminal u List.mem_cons_self)
      refine hfree bs r (tail' ++ tail) hbs hr ?_
      rw [hfront.split, hchars]
      exact List.suffix_rfl

theorem insertProducts_splits {text : List Char} {ts : List Token} (h : Splits text ts) :
    ∃ ts', Splits (insertProducts text none) ts' ∧ Multiplied MayAdjoin ts ts' := by
  obtain ⟨ts₁, h₁, hm₁⟩ := splits_numberParenthesis h
  obtain ⟨ts₂, h₂, hm₂⟩ := splits_parenthesisParenthesis h₁
  obtain ⟨ts₃, h₃, hm₃⟩ := splits_numberName h₂
  obtain ⟨ts₄, h₄, hm₄⟩ := splits_parenthesisName h₃
  have hfree := productFree_insertProducts text
  have hchain := isChain_of_free h₄ hfree.parenthesisParenthesis hfree.parenthesisName
  exact ⟨ts₄, h₄, (((hm₁.trans hm₂).trans hm₃).trans hm₄).of_isChain hchain⟩

/-- Of a text that splits into tokens the text with product signs splits into tokens, too. They are those of
the text with product signs between numbers or closing parentheses and opening parentheses or names; behind
closing parentheses none of these product signs is missing. -/
theorem insertProducts_tokens (text : List Char) (h : (Lexed.ofChars text).stray = none) :
    (Lexed.ofChars (insertProducts text none)).stray = none ∧
      Multiplied MayAdjoin ((Lexed.ofChars text).tokens.map (·.token))
        ((Lexed.ofChars (insertProducts text none)).tokens.map (·.token)) := by
  obtain ⟨ts', hts', hmultiplied⟩ := insertProducts_splits (Lexed.splits_iff.mpr ⟨h, rfl⟩)
  obtain ⟨hstray, rfl⟩ := Lexed.splits_iff.mp hts'
  exact ⟨hstray, hmultiplied⟩

theorem numbersAndNames_tokens :
    (Lexed.ofChars "2(3)(4) pi + 2e+3x .5 3. log10(2)".toList).stray = none ∧
      (Lexed.ofChars (insertProducts "2(3)(4) pi + 2e+3x .5 3. log10(2)".toList none)).stray = none ∧
      Multiplied MayAdjoin
        ((Lexed.ofChars "2(3)(4) pi + 2e+3x .5 3. log10(2)".toList).tokens.map (·.token))
        ((Lexed.ofChars (insertProducts "2(3)(4) pi + 2e+3x .5 3. log10(2)".toList none)).tokens.map (·.token)) :=
  have h : (Lexed.ofChars "2(3)(4) pi + 2e+3x .5 3. log10(2)".toList).stray = none := by decide +kernel
  ⟨h, insertProducts_tokens _ h⟩

end Shorthand

end RangeCalc
