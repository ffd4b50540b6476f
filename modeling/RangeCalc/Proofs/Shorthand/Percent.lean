import RangeCalc.Proofs.Number.Plain
import RangeCalc.Proofs.Shorthand.Product
import RangeCalc.Proofs.Shorthand.Separator

/-!
# Percent ranges

Three rules rewrite two percentages in a row.

* `PercentRule`: what they have in common;
* `PercentRule.free_of_percent`: they find nothing where no percentage stands;
* `PercentRule.free_thousands`: they bring about no separator;
* `replaceEach_percents_of_not_mem`: a text without a percent sign is left.
-/

namespace RangeCalc.Shorthand

open Text

theorem numeral?_eq_some {cs n rest : List Char} (h : numeral? cs = some (n, rest)) :
    IsNumeral n ∧ cs = n ++ rest :=
  have hfront := readsFront_numeral?.eq_some_iff.mp h
  ⟨hfront.holds, hfront.split⟩

/-- No sign, or a minus. -/
def IsMinus (sign : List Char) : Prop :=
  sign = [] ∨ sign = ['-']

theorem negatable?_eq_some {cs s rest : List Char} (h : negatable? cs = some (s, rest)) :
    ∃ sign n, IsMinus sign ∧ IsNumeral n ∧ s = sign ++ n ∧ cs = sign ++ (n ++ rest) := by
  rw [negatable?.eq_def] at h
  split at h
  · obtain ⟨⟨n, after⟩, hread, heq⟩ := Option.map_eq_some_iff.mp h
    obtain ⟨rfl, rfl⟩ := Prod.mk.inj heq
    obtain ⟨hn, rfl⟩ := numeral?_eq_some hread
    exact ⟨['-'], n, .inr rfl, hn, rfl, rfl⟩
  · obtain ⟨hn, rfl⟩ := numeral?_eq_some h
    exact ⟨[], s, .inl rfl, hn, rfl, rfl⟩

theorem separator?_eq_some {cs rest : List Char} {mark : Char} (h : separator? cs = some (mark, rest)) :
    (mark = '~' ∨ mark = '-') ∧ cs = mark :: rest := by
  rw [separator?.eq_def] at h
  split at h
  · obtain ⟨rfl, rfl⟩ := Prod.mk.inj (Option.some.inj h)
    exact ⟨.inl rfl, rfl⟩
  · obtain ⟨rfl, rfl⟩ := Prod.mk.inj (Option.some.inj h)
    exact ⟨.inr rfl, rfl⟩
  · cases h

/-! ## After white space -/

section

variable {cs rest s : List Char}

theorem expect?_skipBlanks {c : Char} (h : expect? c (skipBlanks cs) = some rest) :
    ∃ bs, (∀ b ∈ bs, isBlank b = true) ∧ cs = bs ++ c :: rest := by
  obtain ⟨bs, hbs, hcs⟩ := skipBlanks_split cs
  rw [RangeToken.expect?_eq_some h] at hcs
  exact ⟨bs, hbs, hcs⟩

theorem separator?_skipBlanks {mark : Char} (h : separator? (skipBlanks cs) = some (mark, rest)) :
    (mark = '~' ∨ mark = '-') ∧ ∃ bs, (∀ b ∈ bs, isBlank b = true) ∧ cs = bs ++ mark :: rest := by
  obtain ⟨bs, hbs, hcs⟩ := skipBlanks_split cs
  obtain ⟨hmark, heq⟩ := separator?_eq_some h
  rw [heq] at hcs
  exact ⟨hmark, bs, hbs, hcs⟩

theorem negatable?_skipBlanks (h : negatable? (skipBlanks cs) = some (s, rest)) :
    ∃ bs sign n, (∀ b ∈ bs, isBlank b = true) ∧ IsMinus sign ∧ IsNumeral n ∧ s = sign ++ n ∧
      cs = bs ++ (sign ++ (n ++ rest)) := by
  obtain ⟨bs, hbs, hcs⟩ := skipBlanks_split cs
  obtain ⟨sign, n, hsign, hn, hs, heq⟩ := negatable?_eq_some h
  rw [heq] at hcs
  exact ⟨bs, sign, n, hbs, hsign, hn, hs, hcs⟩

end

/-! ## Places of percentages -/

/-- A character after which a numeral stands alone. -/
def StandsAside (c : Char) : Prop :=
  standsAlone [c] = true

theorem standsAside_of_isBlank {c : Char} (h : isBlank c = true) : StandsAside c := by
  have hpoint : c ≠ '.' := fun hp => not_digit_of_isBlank h (.inr hp)
  simp [StandsAside, standsAlone, not_isWordChar_of_isBlank h, hpoint]

theorem standsAside_minus : StandsAside '-' := by
  unfold StandsAside
  decide +kernel

theorem standsAside_plus : StandsAside '+' := by
  unfold StandsAside
  decide +kernel

theorem standsAside_paren : StandsAside '(' := by
  unfold StandsAside
  decide +kernel

theorem standsAside_mark {c : Char} (h : c = '~' ∨ c = '-') : StandsAside c := by
  rcases h with rfl | rfl
  · unfold StandsAside
    decide +kernel
  · exact standsAside_minus

/-- A percentage that stands alone is part of a text. -/
def HasPercentage (text : List Char) : Prop :=
  ∃ y a n z, text = y ++ a :: (n ++ '%' :: z) ∧ StandsAside a ∧ IsNumeral n

/-- After a character beside which numerals stand alone, white space and perhaps a minus. -/
theorem hasPercentage_intro (y : List Char) {a : Char} {bs sign n z : List Char} (ha : StandsAside a)
    (hbs : ∀ c ∈ bs, isBlank c = true) (hsign : IsMinus sign) (hn : IsNumeral n) :
    HasPercentage (y ++ a :: (bs ++ (sign ++ (n ++ '%' :: z)))) := by
  have haside : ∀ c ∈ a :: (bs ++ sign), StandsAside c := by
    refine List.forall_mem_cons.mpr ⟨ha, List.forall_mem_append.mpr ⟨?_, ?_⟩⟩
    · exact fun c hc => standsAside_of_isBlank (hbs c hc)
    · rcases hsign with rfl | rfl
      · exact nofun
      · simpa using standsAside_minus
  obtain ⟨init, b, heq⟩ : ∃ init b, a :: (bs ++ sign) = init ++ [b] :=
    ⟨_, _, (List.dropLast_append_getLast (List.cons_ne_nil _ _)).symm⟩
  refine ⟨y ++ init, b, n, z, ?_, haside b (by simp [heq]), hn⟩
  calc y ++ a :: (bs ++ (sign ++ (n ++ '%' :: z)))
      = y ++ (a :: (bs ++ sign)) ++ (n ++ '%' :: z) := by simp
    _ = y ++ init ++ b :: (n ++ '%' :: z) := by simp [heq]

/-! ## The rules -/

/-- A rule that rewrites a text in which a percentage stands, and brings about no separator. -/
structure PercentRule (rule : Finder (List Char)) : Prop where
  eq_some : ∀ {before text out after}, rule before text = some (out, after) →
    ∃ covered, text = covered ++ after ∧ HasPercentage covered ∧ SameFront covered out ∧ NoSeparator out

namespace PercentRule

variable {rule : Finder (List Char)} (hrule : PercentRule rule)

include hrule

theorem covers : rule.Covers := by
  intro before text out after h
  obtain ⟨covered, rfl, ⟨y, a, n, z, rfl, -⟩, -⟩ := hrule.eq_some h
  exact ⟨_, by simp, rfl⟩

/-- The rule finds nothing where no percentage stands. -/
theorem free_of_percent {text : List Char} (h : Free (Found percent) text) : Free (Found rule) text := by
  rintro pre post rfl hfound
  obtain ⟨⟨out, after⟩, hsome⟩ := Option.isSome_iff_exists.mp hfound
  obtain ⟨_, rfl, ⟨y, a, n, z, rfl, ha, hn⟩, -⟩ := hrule.eq_some hsome
  refine h (pre ++ y ++ [a]) (n ++ '%' :: (z ++ after)) (by simp) (percent_isSome_iff.mpr ⟨?_, n, _, hn, rfl⟩)
  rw [List.reverse_append]
  exact ha

/-- The rule brings about no separator. -/
theorem free_thousands {text : List Char} (h : Free (Found thousands) text) :
    Free (Found thousands) (replaceEach rule text) := by
  refine free_thousands_replaceEach hrule.covers (fun before covered out after hsome => ?_) h
  obtain ⟨covered', htext, -, hout⟩ := hrule.eq_some hsome
  rwa [List.append_cancel_right htext]

end PercentRule

/-- A replacement without a comma that ends with no digit. -/
theorem noSeparator_of_not_mem {out init : List Char} {c : Char} (hout : out = init ++ [c]) (h : ',' ∉ out)
    (hc : isDigit c = false) : NoSeparator out :=
  ⟨fun u v heq => absurd (by simp [heq]) h, init, c, hout, hc⟩

theorem not_mem_signed {sign n : List Char} (hsign : IsMinus sign) (hn : IsNumeral n) : ',' ∉ sign ++ n := by
  have hcomma : ',' ∉ n := fun hmem => absurd (hn.mem hmem) (by decide)
  rcases hsign with rfl | rfl <;> simpa using hcomma

theorem percentRule_shared : PercentRule sharedPercent where
  eq_some {before text out after} h := by
    simp only [sharedPercent, bind, Option.bind_eq_some_iff] at h
    obtain ⟨rest₁, hopen, ⟨low, rest₂⟩, hlow, _, -, ⟨mark, rest₃⟩, hseparator, ⟨high, rest₄⟩, hhigh, rest₅,
      hpercent, rest₆, hclose, h⟩ := h
    obtain ⟨rfl, rfl⟩ := Prod.mk.inj (Option.some.inj h)
    obtain ⟨bs₁, lowSign, m, -, hlowSign, hm, rfl, rfl⟩ := negatable?_skipBlanks hlow
    obtain ⟨hmark, bs₂, -, rfl⟩ := separator?_skipBlanks hseparator
    obtain ⟨bs₃, highSign, n, hbs₃, hhighSign, hn, rfl, rfl⟩ := negatable?_skipBlanks hhigh
    obtain rfl := RangeToken.expect?_eq_some hpercent
    obtain ⟨bs₄, -, rfl⟩ := expect?_skipBlanks hclose
    obtain rfl := RangeToken.expect?_eq_some hopen
    refine ⟨'(' :: (bs₁ ++ (lowSign ++ m) ++ bs₂) ++ mark :: (bs₃ ++ (highSign ++ (n ++ '%' :: (bs₄ ++ [')'])))),
      by simp, hasPercentage_intro _ (standsAside_mark hmark) hbs₃ hhighSign hn,
      ⟨[], '(', _, '(', _, rfl, rfl, by decide, by decide⟩, ?_⟩
    have hlowComma := not_mem_signed hlowSign hm
    have hhighComma := not_mem_signed hhighSign hn
    have hmarkComma : ',' ≠ mark := by rcases hmark with rfl | rfl <;> decide
    refine noSeparator_of_not_mem (c := ')')
      (show _ = '(' :: (lowSign ++ m ++ ['%', ' ', mark, ' '] ++ (highSign ++ n) ++ ['%']) ++ [')'] by simp) ?_ rfl
    simp_all

theorem not_mem_plainChars (x : Float) : ',' ∉ plainChars x :=
  fun hmem => absurd (mem_plainChars hmem) (by decide)

theorem percentRule_applied : PercentRule appliedPercent where
  eq_some {before text out after} h := by
    simp only [appliedPercent, bind, Option.bind_eq_some_iff] at h
    obtain ⟨_, -, ⟨base, rest₁⟩, hbase, rest₂, hopen, ⟨low, rest₃⟩, hlow, rest₄, hpercent, ⟨mark, rest₅⟩,
      hseparator, ⟨high, rest₆⟩, hhigh, rest₇, hpercent', rest₈, hclose, h⟩ := h
    obtain ⟨hout, rfl⟩ := Prod.mk.inj (Option.some.inj h)
    obtain ⟨least, greatest, rfl⟩ : ∃ least greatest : Float, out = base ++ [' ', '*', ' ', '('] ++
      plainChars least ++ '~' :: plainChars greatest ++ [')'] := ⟨_, _, hout.symm⟩
    obtain ⟨baseSign, k, hbaseSign, hk, rfl, rfl⟩ := negatable?_eq_some hbase
    obtain ⟨bs₁, hbs₁, rfl⟩ := expect?_skipBlanks hopen
    obtain ⟨bs₂, lowSign, m, hbs₂, hlowSign, hm, rfl, rfl⟩ := negatable?_skipBlanks hlow
    obtain rfl := RangeToken.expect?_eq_some hpercent
    obtain ⟨-, bs₃, -, rfl⟩ := separator?_skipBlanks hseparator
    obtain ⟨bs₄, highSign, n, -, -, -, rfl, rfl⟩ := negatable?_skipBlanks hhigh
    obtain rfl := RangeToken.expect?_eq_some hpercent'
    obtain ⟨bs₅, -, rfl⟩ := expect?_skipBlanks hclose
    obtain ⟨tail, htail⟩ : ∃ tail,
      tail = bs₃ ++ mark :: (bs₄ ++ (highSign ++ (n ++ '%' :: (bs₅ ++ [')'])))) := ⟨_, rfl⟩
    have hparen : StartsFactor '(' := .inl rfl
    obtain ⟨x, r, heq, hx, -⟩ := head_after_factor (bs₂ ++ (lowSign ++ (m ++ '%' :: tail))) hbs₁ hparen
    refine ⟨baseSign ++ k ++ x :: r, ?_, ?_, ⟨baseSign ++ k, x, r, ' ',
      ['*', ' ', '('] ++ plainChars least ++ '~' :: plainChars greatest ++ [')'], rfl, by simp, ?_, by decide⟩, ?_⟩
    · rw [← heq, htail]
      simp
    · rw [← heq]
      simpa using hasPercentage_intro (baseSign ++ k ++ bs₁) standsAside_paren hbs₂ hlowSign hm
    · rw [isFactorChar, Bool.or_eq_false_iff, Bool.or_eq_false_iff] at hx
      exact hx.1.1
    · refine noSeparator_of_not_mem rfl ?_ (by decide)
      have hbaseComma := not_mem_signed hbaseSign hk
      simp_all [not_mem_plainChars]

theorem percentRule_span : PercentRule percentSpan where
  eq_some {before text out after} h := by
    simp only [percentSpan, bind, Option.bind_eq_some_iff] at h
    obtain ⟨⟨low, rest₁⟩, hlow, rest₂, hpercent, rest₃, hminus, ⟨high, rest₄⟩, hhigh, rest₅, hpercent', h⟩ := h
    obtain ⟨rfl, rfl⟩ := Prod.mk.inj (Option.some.inj h)
    obtain ⟨lowSign, m, hlowSign, hm, rfl, rfl⟩ := negatable?_eq_some hlow
    obtain rfl := RangeToken.expect?_eq_some hpercent
    obtain ⟨bs₁, -, rfl⟩ := expect?_skipBlanks hminus
    obtain ⟨bs₂, highSign, n, hbs₂, hhighSign, hn, rfl, rfl⟩ := negatable?_skipBlanks hhigh
    obtain rfl := RangeToken.expect?_eq_some hpercent'
    refine ⟨lowSign ++ m ++ '%' :: bs₁ ++ '-' :: (bs₂ ++ (highSign ++ (n ++ '%' :: []))), by simp,
      hasPercentage_intro _ standsAside_minus hbs₂ hhighSign hn, 
      ⟨lowSign ++ m, '%', bs₁ ++ '-' :: (bs₂ ++ (highSign ++ (n ++ ['%']))), '%',
        ' ' :: '~' :: ' ' :: (highSign ++ (n ++ ['%'])), by simp, by simp, by decide, by decide⟩, ?_⟩
    have hlowComma := not_mem_signed hlowSign hm
    have hhighComma := not_mem_signed hhighSign hn
    refine noSeparator_of_not_mem rfl ?_ (by decide)
    simp_all

theorem free_percent_of_not_mem {text : List Char} (h : '%' ∉ text) : Free (Found percent) text := by
  rintro pre post rfl hfound
  obtain ⟨-, n, rest, -, rfl⟩ := percent_isSome_iff.mp hfound
  simp at h

/-- Without a percent sign the three rules find nothing. -/
theorem replaceEach_percents_of_not_mem {text : List Char} (h : '%' ∉ text) :
    replaceEach percentSpan (replaceEach appliedPercent (replaceEach sharedPercent text)) = text := by
  have hfree := free_percent_of_not_mem h
  rw [replaceEach_of_free (percentRule_shared.free_of_percent hfree),
    replaceEach_of_free (percentRule_applied.free_of_percent hfree),
    replaceEach_of_free (percentRule_span.free_of_percent hfree)]

end RangeCalc.Shorthand
