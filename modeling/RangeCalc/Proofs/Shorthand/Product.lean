import Mathlib
import RangeCalc.Proofs.Shorthand.Tidy
import RangeCalc.Shorthand.Product

/-!
# Missing product signs

Four rules write the product sign between a factor, white space and the start of the next factor.

* `IsFactor`: numerals and closing parentheses;
* `Multiplies`: what the four rules have in common;
* `Multiplies.tidies`: what such a rule leaves is tidied text;
* `Multiplies.free`: in what such a rule leaves it finds nothing;
* `ProductFree`, `productFree_insertProducts`: in what the four rules leave none of them finds anything;
* `tidy_tidy`: where product signs are written and white space is squeezed, all is written and squeezed.
-/

namespace RangeCalc.Shorthand

open Text

/-- What a product sign is written after. -/
inductive IsFactor : List Char → Prop where
  | numeral {n : List Char} (hn : IsNumeral n) : IsFactor n
  | parenthesis : IsFactor [')']

/-- A digit, a point or a closing parenthesis. -/
def isFactorChar (c : Char) : Bool :=
  isDigit c || c == '.' || c == ')'

theorem IsFactor.mem {f : List Char} (hf : IsFactor f) : ∀ c ∈ f, isFactorChar c = true := by
  intro c hc
  cases hf with
  | numeral hn => rcases hn.mem hc with h | rfl <;> simp [isFactorChar, *]
  | parenthesis => simp [isFactorChar, List.mem_singleton.mp hc]

theorem IsFactor.ne_nil {f : List Char} (hf : IsFactor f) : f ≠ [] := by
  cases hf with
  | numeral hn => exact hn.ne_nil
  | parenthesis => exact List.cons_ne_nil _ _

/-- A factor ends with a character that needs no product sign after it. -/
theorem IsFactor.last {f : List Char} (hf : IsFactor f) : ∃ init l, f = init ++ [l] ∧ EndsFactor l := by
  have hdigits : ∀ w, IsDigits w → ∃ init l, w = init ++ [l] ∧ EndsFactor l := fun w hw =>
    ⟨_, _, (List.dropLast_append_getLast hw.1).symm, .inl (hw.2 _ (List.getLast_mem hw.1))⟩
  cases hf with
  | numeral hn =>
    cases hn with
    | whole hw => exact hdigits f hw
    | @places w p hw hp =>
      obtain ⟨init, l, rfl, hl⟩ := hdigits p hp
      exact ⟨w ++ '.' :: init, l, by simp, hl⟩
  | parenthesis => exact ⟨[], ')', rfl, .inr rfl⟩

theorem isFactorChar_word {c : Char} (h : isFactorChar c = true) : isBlank c = false ∧ c ≠ '*' := by
  rw [isFactorChar, Bool.or_eq_true, Bool.or_eq_true, beq_iff_eq, beq_iff_eq] at h
  refine ⟨Bool.of_not_eq_true fun hblank => ?_, ?_⟩
  · rcases h with h | rfl
    · exact not_digit_of_isBlank hblank h
    · cases hblank
  · rintro rfl
    revert h
    decide

theorem not_isFactorChar_of_isBlank {c : Char} (h : isBlank c = true) : isFactorChar c = false := by
  refine Bool.of_not_eq_true fun hc => ?_
  rw [(isFactorChar_word hc).1] at h
  cases h

theorem StartsFactor.not_isFactorChar {c : Char} (h : StartsFactor c) : isFactorChar c = false := by
  have hne : ∀ d, d = '.' ∨ d = ')' → c ≠ d := by
    rintro d hd rfl
    rcases hd with rfl | rfl <;> simp [StartsFactor, isNameStart, isAsciiLetter] at h
  simp [isFactorChar, h.not_isDigit, hne]

theorem StartsFactor.ne_star {c : Char} (h : StartsFactor c) : c ≠ '*' := by
  rintro rfl
  simp [StartsFactor, isNameStart, isAsciiLetter] at h

/-- White space and the start of a factor neither go on with a factor nor have a product sign. -/
theorem head_after_factor {bs : List Char} {r : Char} (tail : List Char)
    (hbs : ∀ c ∈ bs, isBlank c = true) (hr : StartsFactor r) :
    ∃ x rest, bs ++ r :: tail = x :: rest ∧ isFactorChar x = false ∧ x ≠ '*' := by
  cases bs with
  | nil => exact ⟨r, tail, rfl, hr.not_isFactorChar, hr.ne_star⟩
  | cons b bs =>
    have hb := hbs b List.mem_cons_self
    refine ⟨b, _, rfl, not_isFactorChar_of_isBlank hb, ?_⟩
    rintro rfl
    cases hb

/-- A rule that writes the product sign between a factor of some kind that stands alone and what follows
it, perhaps after white space. -/
structure Multiplies (rule : Finder (List Char)) (Factor : List Char → Prop) (alone : List Char → Bool)
    (Follows : List Char → Prop) : Prop where
  isFactor : ∀ {f}, Factor f → IsFactor f
  starts : ∀ {rest}, Follows rest → ∃ r tail, rest = r :: tail ∧ StartsFactor r
  eq_some : ∀ {before text out after}, rule before text = some (out, after) →
    alone before = true ∧ ∃ f bs r, Factor f ∧ (∀ c ∈ bs, isBlank c = true) ∧ Follows (r :: after) ∧
      text = f ++ (bs ++ r :: after) ∧ out = f ++ ['*', r]
  found : ∀ {before f bs rest}, alone before = true → Factor f → (∀ c ∈ bs, isBlank c = true) →
    Follows rest → Found rule before (f ++ (bs ++ rest))
  alone_back : ∀ {c f before before'}, Factor (c :: f) → Beside c before.head? before'.head? →
    alone before' = true → alone before = true
  follows_back : ∀ {rest rest'}, Tidies rest rest' → Follows rest' → Follows rest

namespace Multiplies

variable {rule : Finder (List Char)} {Factor : List Char → Prop} {alone : List Char → Bool}
  {Follows : List Char → Prop} (hrule : Multiplies rule Factor alone Follows)

include hrule

theorem exists_of_found {before text : List Char} (h : Found rule before text) :
    alone before = true ∧ ∃ f bs rest, Factor f ∧ (∀ c ∈ bs, isBlank c = true) ∧ Follows rest ∧
      text = f ++ (bs ++ rest) := by
  obtain ⟨⟨out, after⟩, hsome⟩ := Option.isSome_iff_exists.mp h
  obtain ⟨halone, f, bs, r, hf, hbs, hfollows, htext, -⟩ := hrule.eq_some hsome
  exact ⟨halone, f, bs, _, hf, hbs, hfollows, htext⟩

theorem covers : rule.Covers := by
  intro before text out after h
  obtain ⟨-, f, bs, r, -, -, -, rfl, -⟩ := hrule.eq_some h
  exact ⟨f ++ (bs ++ [r]), by simp, by simp⟩

/-- An occurrence is replaced by its factor, the product sign and its last character. -/
theorem of_mem {before text out covered : List Char} {ps : List (Piece (List Char))}
    (h : Scans rule before text ps) (hmem : .found out covered ∈ ps) :
    ∃ f bs r, IsFactor f ∧ StartsFactor r ∧ covered = f ++ (bs ++ [r]) ∧ out = f ++ ['*', r] := by
  obtain ⟨before', after, hsome⟩ := h.exists_at hmem
  obtain ⟨-, f, bs, r, hf, -, hfollows, htext, rfl⟩ := hrule.eq_some hsome
  obtain ⟨_, _, heq, hr⟩ := hrule.starts hfollows
  obtain ⟨rfl, -⟩ := List.cons.inj heq
  exact ⟨f, bs, r, hrule.isFactor hf, hr, List.append_cancel_right (htext.trans (by simp)), rfl⟩

theorem tidies_rewritten {before text : List Char} {ps : List (Piece (List Char))}
    (h : Scans rule before text ps) : Tidies text (rewritten id ps) := by
  induction h with
  | nil => exact .tail nofun
  | char _ _ ih => exact .char ih
  | found _ hsome _ ih =>
    obtain ⟨-, f, bs, r, hf, hbs, hfollows, htext, rfl⟩ := hrule.eq_some hsome
    obtain ⟨_, _, heq, hr⟩ := hrule.starts hfollows
    obtain ⟨rfl, -⟩ := List.cons.inj heq
    obtain ⟨init, l, rfl, hl⟩ := (hrule.isFactor hf).last
    rw [htext, rewritten_found]
    simpa using Tidies.chars init (.star hl hbs hr (.char ih))

/-- What the rule leaves is tidied text. -/
theorem tidies (text : List Char) : Tidies text (replaceEach rule text) := by
  obtain ⟨ps, hps⟩ := Scans.exists_scan hrule.covers [] text
  rw [hps.replaceEach_eq]
  exact hrule.tidies_rewritten hps

/-- Tidying makes no new occurrence. -/
theorem inherited : Inherited (Found rule) where
  starts before text h := by
    obtain ⟨-, f, bs, rest, hf, -, -, rfl⟩ := hrule.exists_of_found h
    obtain ⟨c, f, rfl⟩ := List.exists_cons_of_ne_nil (hrule.isFactor hf).ne_nil
    exact ⟨c, _, rfl, isFactorChar_word ((hrule.isFactor hf).mem c List.mem_cons_self)⟩
  back before before' c rest rest' hbeside htidies h := by
    obtain ⟨halone, f, bs', after', hf, hbs', hfollows, htext⟩ := hrule.exists_of_found h
    have hfactor := hrule.isFactor hf
    obtain ⟨r, tail, rfl, hr⟩ := hrule.starts hfollows
    have hstar : (bs' ++ r :: tail).head? ≠ some '*' := by
      obtain ⟨x, tail', heq, -, hx⟩ := head_after_factor _ hbs' hr
      rw [heq]
      simpa using hx
    rw [htext] at htidies
    obtain ⟨rest₁, hrest₁, htidies₁⟩ := htidies.drop_word (fun d hd => isFactorChar_word (hfactor.mem d hd)) hstar
    obtain ⟨bs, after, hbs, rfl, htidies₂⟩ := htidies₁.drop_blanks hbs'
    obtain ⟨d, f, rfl⟩ := List.exists_cons_of_ne_nil hfactor.ne_nil
    obtain ⟨rfl, -⟩ := List.cons.inj htext
    rw [hrest₁]
    exact hrule.found (hrule.alone_back hf hbeside halone) hf hbs (hrule.follows_back htidies₂ hfollows)

/-- In what the rule leaves it finds nothing. -/
theorem free (text : List Char) : Free (Found rule) (replaceEach rule text) := by
  obtain ⟨ps, hps⟩ := Scans.exists_scan hrule.covers [] text
  rw [hps.replaceEach_eq]
  rintro pre post heq hfound
  obtain ⟨c, post, rfl, -⟩ := hrule.inherited.starts _ _ hfound
  rcases exists_piece heq with ⟨front, back, rfl, rfl, rfl⟩ | ⟨front, out, covered, back, u, v, rfl, hout, rfl, rfl⟩
  · -- At a character of the text nothing was found, and what stands around it is inherited.
    have hlast : (rewritten id front).getLast? = (textOf front).getLast? :=
      last_rewritten id fun out covered hmem => by
        obtain ⟨f, bs, r, -, -, rfl, rfl⟩ := hrule.of_mem hps (List.mem_append_left _ hmem)
        simp
    have hbeside : Beside c ((textOf front).reverse ++ []).head? (rewritten id front).reverse.head? := by
      rw [List.append_nil, List.head?_reverse, List.head?_reverse, hlast]
      exact .same
    have htidies := hrule.tidies_rewritten hps.drop
    rw [textOf_char, rewritten_char] at htidies
    have := hrule.inherited.back _ _ c _ _ hbeside htidies hfound
    rw [Found, hps.at_char] at this
    cases this
  · -- Inside a replacement the factor ends at the product sign.
    obtain ⟨f₀, bs₀, r₀, hf₀, hr₀, -, rfl⟩ :=
      hrule.of_mem hps (List.mem_append_right front List.mem_cons_self)
    obtain ⟨-, f, bs, rest, hf, hbs, hfollows, htext⟩ := hrule.exists_of_found hfound
    obtain ⟨r, tail, rfl, hr⟩ := hrule.starts hfollows
    have hmem := (hrule.isFactor hf).mem
    have hc : isFactorChar c = true := by
      obtain ⟨d, f, rfl⟩ := List.exists_cons_of_ne_nil (hrule.isFactor hf).ne_nil
      rw [(List.cons.inj htext).1]
      exact hmem d List.mem_cons_self
    rcases List.append_eq_append_iff.mp hout with ⟨w, -, hw⟩ | ⟨part, rfl, hpart⟩
    · have hin : c ∈ ['*', r₀] := by simp [hw]
      rcases List.mem_cons.mp hin with rfl | hin
      · exact (isFactorChar_word hc).2 rfl
      · rw [List.mem_singleton.mp hin, hr₀.not_isFactorChar] at hc
        cases hc
    · obtain ⟨x, rest, hx, hstop, hstar⟩ := head_after_factor _ hbs hr
      have hleft : (c :: (v ++ rewritten id back)).dropWhile isFactorChar =
          '*' :: r₀ :: rewritten id back := by
        rw [← List.cons_append, hpart, List.append_assoc]
        exact dropWhile_append_stop (fun d hd => hf₀.mem d (List.mem_append_right u hd)) (by decide)
      rw [htext, hx, dropWhile_append_stop hmem hstop] at hleft
      exact hstar (List.cons.inj hleft).1

end Multiplies

/-! ## The rules -/

theorem skipBlanks_append {bs cs : List Char} {x : Char} (hbs : ∀ c ∈ bs, isBlank c = true)
    (hx : isBlank x = false) : skipBlanks (bs ++ x :: cs) = x :: cs :=
  dropWhile_append_stop hbs hx

/-- A numeral is read up to the white space or the start of a factor after it. -/
theorem numeral?_factor {n bs tail : List Char} {r : Char} (hn : IsNumeral n)
    (hbs : ∀ c ∈ bs, isBlank c = true) (hr : StartsFactor r) :
    numeral? (n ++ (bs ++ r :: tail)) = some (n, bs ++ r :: tail) := by
  obtain ⟨x, rest, heq, hx, -⟩ := head_after_factor tail hbs hr
  rw [heq]
  refine readsFront_numeral?.eq_some_iff.mpr (hn.front fun y hy hdigit => ?_)
  obtain rfl := Option.some.inj hy
  rcases hdigit with h | rfl
  · simp [isFactorChar, h] at hx
  · simp [isFactorChar] at hx

theorem expect?_cons (c : Char) (rest : List Char) : expect? c (c :: rest) = some rest :=
  if_pos rfl

theorem nameStart?_eq_some_iff {cs rest : List Char} {l : Char} :
    nameStart? cs = some (l, rest) ↔ cs = l :: rest ∧ isNameStart l = true := by
  cases cs with
  | nil => simp [nameStart?]
  | cons c cs =>
    rw [nameStart?]
    split
    next hc => 
      simp only [Option.some.injEq, Prod.mk.injEq, List.cons.injEq]
      exact ⟨fun h => ⟨h, h.1 ▸ hc⟩, fun h => h.1⟩
    next hc => 
      refine ⟨nofun, fun ⟨heq, hl⟩ => ?_⟩
      rw [(List.cons.inj heq).1] at hc
      exact absurd hl hc

theorem guard_eq_some {p : Prop} [Decidable p] {u : Unit} : (guard p : Option Unit) = some u ↔ p := by
  by_cases h : p <;> simp [guard, h, failure]

/-- What follows where a product sign is written before a parenthesis. -/
def OpensParenthesis (rest : List Char) : Prop :=
  ∃ tail, rest = '(' :: tail

/-- What follows where a product sign is written before a name. -/
def OpensName (rest : List Char) : Prop :=
  ∃ l tail, rest = l :: tail ∧ isNameStart l = true

theorem OpensParenthesis.back {rest rest' : List Char} (htidies : Tidies rest rest')
    (h : OpensParenthesis rest') : OpensParenthesis rest := by
  obtain ⟨tail, rfl⟩ := h
  exact htidies.head (by decide)

theorem OpensName.back {rest rest' : List Char} (htidies : Tidies rest rest') (h : OpensName rest') :
    OpensName rest := by
  obtain ⟨l, tail, rfl, hl⟩ := h
  obtain ⟨tail, rfl⟩ := htidies.head (StartsFactor.not_blank (.inr hl))
  exact ⟨l, tail, rfl, hl⟩

theorem IsNumeral.alone_back {c : Char} {n before before' : List Char} (hn : IsNumeral (c :: n))
    (hbeside : Beside c before.head? before'.head?) (h : standsAlone before' = true) :
    standsAlone before = true := by
  obtain ⟨d, tail, heq, hd⟩ := hn.head
  rw [← (List.cons.inj heq).1] at hd
  exact hbeside.standsAlone hd h

theorem multiplies_numberParenthesis :
    Multiplies numberParenthesis IsNumeral standsAlone OpensParenthesis where
  isFactor := .numeral
  starts := fun ⟨tail, heq⟩ => ⟨'(', tail, heq, .inl rfl⟩
  eq_some h := by
    simp only [numberParenthesis, bind, Option.bind_eq_some_iff, guard_eq_some] at h
    obtain ⟨_, halone, ⟨n, rest⟩, hn, after, hexpect, h⟩ := h
    obtain ⟨rfl, rfl⟩ := Prod.mk.inj (Option.some.inj h)
    have hfront := readsFront_numeral?.eq_some_iff.mp hn
    obtain ⟨bs, hbs, hrest⟩ := skipBlanks_split rest
    rw [RangeToken.expect?_eq_some hexpect] at hrest
    exact ⟨halone, n, bs, '(', hfront.holds, hbs, ⟨_, rfl⟩, by rw [← hrest, hfront.split], rfl⟩
  found halone hn hbs := by
    rintro ⟨tail, rfl⟩
    have hnext : StartsFactor '(' := .inl rfl
    simp [Found, numberParenthesis, guard, halone, numeral?_factor hn hbs hnext,
      skipBlanks_append hbs hnext.not_blank, expect?_cons]
  alone_back := IsNumeral.alone_back
  follows_back := OpensParenthesis.back

theorem multiplies_parenthesisParenthesis :
    Multiplies parenthesisParenthesis (· = [')']) (fun _ => true) OpensParenthesis where
  isFactor := fun heq => heq ▸ .parenthesis
  starts := fun ⟨tail, heq⟩ => ⟨'(', tail, heq, .inl rfl⟩
  eq_some h := by
    simp only [parenthesisParenthesis, bind, Option.bind_eq_some_iff] at h
    obtain ⟨rest, hclose, after, hopen, h⟩ := h
    obtain ⟨rfl, rfl⟩ := Prod.mk.inj (Option.some.inj h)
    obtain ⟨bs, hbs, hrest⟩ := skipBlanks_split rest
    rw [RangeToken.expect?_eq_some hopen] at hrest
    exact ⟨rfl, [')'], bs, '(', rfl, hbs, ⟨_, rfl⟩, by rw [← hrest, RangeToken.expect?_eq_some hclose]; rfl,
      rfl⟩
  found _ heq hbs := by
    rintro ⟨tail, rfl⟩
    have hnext : StartsFactor '(' := .inl rfl
    simp [heq, Found, parenthesisParenthesis, skipBlanks_append hbs hnext.not_blank, expect?_cons]
  alone_back _ _ _ := rfl
  follows_back := OpensParenthesis.back

theorem multiplies_parenthesisName :
    Multiplies parenthesisName (· = [')']) (fun _ => true) OpensName where
  isFactor := fun heq => heq ▸ .parenthesis
  starts := fun ⟨l, tail, heq, hl⟩ => ⟨l, tail, heq, .inr hl⟩
  eq_some h := by
    simp only [parenthesisName, bind, Option.bind_eq_some_iff] at h
    obtain ⟨rest, hclose, ⟨l, after⟩, hname, h⟩ := h
    obtain ⟨rfl, rfl⟩ := Prod.mk.inj (Option.some.inj h)
    obtain ⟨bs, hbs, hrest⟩ := skipBlanks_split rest
    obtain ⟨heq, hl⟩ := nameStart?_eq_some_iff.mp hname
    rw [heq] at hrest
    exact ⟨rfl, [')'], bs, l, rfl, hbs, ⟨l, _, rfl, hl⟩,
      by rw [← hrest, RangeToken.expect?_eq_some hclose]; rfl, rfl⟩
  found _ heq hbs := by
    rintro ⟨l, tail, rfl, hl⟩
    have hnext : StartsFactor l := .inr hl
    simp [heq, Found, parenthesisName, skipBlanks_append hbs hnext.not_blank, expect?_cons,
      nameStart?_eq_some_iff.mpr ⟨rfl, hl⟩]
  alone_back _ _ _ := rfl
  follows_back := OpensName.back

/-- The letter of an exponent, perhaps a sign, and a digit. -/
theorem startsWithExponent_iff {e : Char} {rest : List Char} :
    startsWithExponent (e :: rest) = true ↔ (e = 'e' ∨ e = 'E') ∧
      ((∃ d tail, rest = d :: tail ∧ isDigit d = true) ∨
        ∃ s d tail, rest = s :: d :: tail ∧ (s = '+' ∨ s = '-') ∧ isDigit d = true) := by
  rcases rest with - | ⟨a, - | ⟨b, tail⟩⟩ <;> simp [startsWithExponent]

/-- The exponent of a text is one of the tidied text. -/
theorem Tidies.startsWithExponent {l : Char} {T T' : List Char} (h : Tidies (l :: T) (l :: T'))
    (hl : isNameStart l = true) (hexp : startsWithExponent (l :: T) = true) :
    Shorthand.startsWithExponent (l :: T') = true := by
  have hnot : ¬ EndsFactor l := fun hend => by simp [hend.not_isNameStart] at hl
  have hdigit : ∀ {d : Char}, isDigit d = true → isBlank d = false := fun hd =>
    EndsFactor.not_blank (.inl hd)
  obtain ⟨rest, heq, hrest⟩ := h.drop_char' (StartsFactor.not_blank (.inr hl)) hnot
  obtain ⟨-, rfl⟩ := List.cons.inj heq
  rw [startsWithExponent_iff] at hexp ⊢
  refine ⟨hexp.1, ?_⟩
  rcases hexp.2 with ⟨d, tail, rfl, hd⟩ | ⟨s, d, tail, rfl, hs, hd⟩
  · obtain ⟨tail', rfl⟩ := List.head?_eq_some_iff.mp (hrest.head' (hdigit hd))
    exact .inl ⟨d, tail', rfl, hd⟩
  · have hsign : ¬ EndsFactor s ∧ isBlank s = false := by
      rcases hs with rfl | rfl <;> exact ⟨by simp [EndsFactor, not_isDigit_sign], by decide⟩
    obtain ⟨rest', rfl, hrest'⟩ := hrest.drop_char' hsign.2 hsign.1
    obtain ⟨tail', rfl⟩ := List.head?_eq_some_iff.mp (hrest'.head' (hdigit hd))
    exact .inr ⟨s, d, tail', rfl, hs, hd⟩

theorem multiplies_numberName :
    Multiplies numberName IsNumeral standsAlone
      fun rest => OpensName rest ∧ startsWithExponent rest = false where
  isFactor := .numeral
  starts := fun ⟨⟨l, tail, heq, hl⟩, _⟩ => ⟨l, tail, heq, .inr hl⟩
  eq_some h := by
    simp only [numberName, bind, Option.bind_eq_some_iff, guard_eq_some] at h
    obtain ⟨_, halone, ⟨n, rest⟩, hn, _, hexp, ⟨l, after⟩, hname, h⟩ := h
    obtain ⟨rfl, rfl⟩ := Prod.mk.inj (Option.some.inj h)
    have hfront := readsFront_numeral?.eq_some_iff.mp hn
    obtain ⟨bs, hbs, hrest⟩ := skipBlanks_split rest
    obtain ⟨heq, hl⟩ := nameStart?_eq_some_iff.mp hname
    rw [heq] at hrest hexp
    exact ⟨halone, n, bs, l, hfront.holds, hbs, ⟨⟨l, _, rfl, hl⟩, by simpa using hexp⟩,
      by rw [← hrest, hfront.split], rfl⟩
  found halone hn hbs := by
    rintro ⟨⟨l, tail, rfl, hl⟩, hexp⟩
    have hnext : StartsFactor l := .inr hl
    simp [Found, numberName, guard, halone, numeral?_factor hn hbs hnext,
      skipBlanks_append hbs hnext.not_blank, hexp, nameStart?_eq_some_iff.mpr ⟨rfl, hl⟩]
  alone_back := IsNumeral.alone_back
  follows_back := by
    rintro rest rest' htidies ⟨hname, hexp⟩
    obtain ⟨l, tail', rfl, hl⟩ := hname
    obtain ⟨tail, rfl⟩ := htidies.head (StartsFactor.not_blank (.inr hl))
    refine ⟨⟨l, tail, rfl, hl⟩, Bool.of_not_eq_true fun h => ?_⟩
    rw [htidies.startsWithExponent hl h] at hexp
    cases hexp

/-! ## All product signs -/

/-- None of the four rules finds a place for a product sign. -/
structure ProductFree (text : List Char) : Prop where
  numberParenthesis : Free (Found numberParenthesis) text
  parenthesisParenthesis : Free (Found parenthesisParenthesis) text
  numberName : Free (Found numberName) text
  parenthesisName : Free (Found parenthesisName) text

theorem ProductFree.keeps {T T' : List Char} (h : ProductFree T) (hkeeps : KeepsFree T T') : ProductFree T' where
  numberParenthesis := hkeeps _ multiplies_numberParenthesis.inherited h.numberParenthesis
  parenthesisParenthesis := hkeeps _ multiplies_parenthesisParenthesis.inherited h.parenthesisParenthesis
  numberName := hkeeps _ multiplies_numberName.inherited h.numberName
  parenthesisName := hkeeps _ multiplies_parenthesisName.inherited h.parenthesisName

theorem ProductFree.insertProducts_eq {text : List Char} (h : ProductFree text) : insertProducts text none = text := by
  simp only [insertProducts, replaceEach_of_free h.numberParenthesis, replaceEach_of_free h.parenthesisParenthesis,
    replaceEach_of_free h.numberName, replaceEach_of_free h.parenthesisName]

/-- No rule leaves a place for one of the others that was not there before. -/
theorem productFree_insertProducts (text : List Char) : ProductFree (insertProducts text none) := by
  have h₃ : KeepsFree _ (insertProducts text none) := (multiplies_parenthesisName.tidies _).keepsFree
  have h₂ := (multiplies_numberName.tidies _).keepsFree.trans h₃
  have h₁ := (multiplies_parenthesisParenthesis.tidies _).keepsFree.trans h₂
  exact {
    numberParenthesis := h₁ _ multiplies_numberParenthesis.inherited (multiplies_numberParenthesis.free _)
    parenthesisParenthesis :=
      h₂ _ multiplies_parenthesisParenthesis.inherited (multiplies_parenthesisParenthesis.free _)
    numberName := h₃ _ multiplies_numberName.inherited (multiplies_numberName.free _)
    parenthesisName := multiplies_parenthesisName.free _ }

/-- Product signs are written and white space is squeezed. -/
def tidy (text : List Char) : List Char :=
  squeeze (insertProducts text none)

theorem keepsFree_tidy (text : List Char) : KeepsFree text (tidy text) :=
  (multiplies_numberParenthesis.tidies _).keepsFree.trans <|
    (multiplies_parenthesisParenthesis.tidies _).keepsFree.trans <|
      (multiplies_numberName.tidies _).keepsFree.trans <|
        (multiplies_parenthesisName.tidies _).keepsFree.trans (tidied_squeeze _).keepsFree

/-- Where product signs are written and white space is squeezed, there is nothing more to write or squeeze. -/
theorem tidy_tidy (text : List Char) : tidy (tidy text) = tidy text := by
  have hfree : ProductFree (tidy text) := (productFree_insertProducts text).keeps (tidied_squeeze _).keepsFree
  rw [tidy, hfree.insertProducts_eq]
  exact squeeze_eq_self (isSqueezed_squeeze _)

end RangeCalc.Shorthand
