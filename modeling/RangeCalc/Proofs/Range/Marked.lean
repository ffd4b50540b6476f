import RangeCalc.Proofs.Range.Extraction
import RangeCalc.Proofs.Shorthand.Missing
import RangeCalc.Proofs.Shorthand.PercentResult
import RangeCalc.Proofs.Text.Marked

/-!
# Ranges as marks

A range of a text is written as a placeholder or as a call that draws. Around both, percentages and products are
written out alike.

* `Spelling.word`: what is written for a range;
* `Segment.Parted`: what may stand beside a range;
* `missing_written_iff`: the product sign is missing at the same places;
* `exists_percent`, `exists_placeholderProduct`, `exists_missingProduct`: the passes, one after the other;
* `exists_finished`: all passes.
-/

namespace RangeCalc

open Text Shorthand

/-- A range with its number. -/
abbrev NumberedRange := Nat × RangeToken

/-- The two ways to write a range. -/
inductive Spelling where
  | name
  | call

/-- What is written for a range. -/
def Spelling.word (n : Nat) : Spelling → NumberedRange → List Char
  | name, r => placeholderName (stemWith n) r.1
  | call, r => samplingCall r.2

/-! ## The words -/

section

variable {n : Nat} {k : Spelling} {r : NumberedRange} {before rest : List Char}

theorem isNameStart_of_mem_stemWith : ∀ c ∈ stemWith n, isNameStart c = true := by
  have hstem : "__range".toList.all isNameStart = true := by decide +kernel
  refine List.forall_mem_append.mpr ⟨fun c hc => ?_, by simpa using hstem⟩
  rw [List.eq_of_mem_replicate hc]
  decide

theorem exists_stemWith_eq (n : Nat) : ∃ tail, stemWith n = '_' :: tail := by
  cases n with
  | zero => exact ⟨_, rfl⟩
  | succ n => exact ⟨_, rfl⟩

theorem isDigits_digitChars (index : Nat) : IsDigits (digitChars index) :=
  .of_isDigit Nat.toDigits_ne_nil isDigit_of_mem_digitChars

theorem samplingCall_concat (token : RangeToken) : ∃ init, samplingCall token = init ++ [')'] :=
  ⟨callOpening ++ (boundChars token.interval.min ++ ',' :: ' ' :: (boundChars token.interval.max ++ [')'])),
    by simp [samplingCall_eq]⟩

theorem isWordPart_of_mem_name {index : Nat} : ∀ c ∈ placeholderName (stemWith n) index, isWordPart c = true := by
  have hword : ∀ {c}, isWordChar c = true → isWordPart c = true := fun h => by rw [isWordPart, h, Bool.true_or]
  refine List.forall_mem_append.mpr ⟨List.forall_mem_append.mpr ⟨fun c hc => ?_, fun c hc => ?_⟩, ?_⟩
  · exact hword (isWordChar_of_isNameStart (isNameStart_of_mem_stemWith c hc))
  · exact hword (isWordChar_of_isDigit ((isDigits_digitChars index).2 c hc))
  · simp [isWordPart, isWordChar]

namespace Spelling

theorem exists_head (n : Nat) (k : Spelling) (r : NumberedRange) :
    ∃ c tail, k.word n r = c :: tail ∧ isNameStart c = true ∧ c ≠ 'e' ∧ c ≠ 'E' := by
  cases k with
  | name =>
    obtain ⟨tail, heq⟩ := exists_stemWith_eq n
    exact ⟨'_', _, by rw [word, placeholderName, heq]; rfl, by decide, by decide, by decide⟩
  | call => exact ⟨'s', _, by rw [word, samplingCall_eq]; rfl, by decide, by decide, by decide⟩

theorem exists_last (n : Nat) (k : Spelling) (r : NumberedRange) :
    ∃ init d, k.word n r = init ++ [d] ∧ ¬ IsBoundChar d := by
  cases k with
  | name =>
    refine ⟨stemWith n ++ digitChars r.1 ++ ['_'], '_', by simp [word, placeholderName], ?_⟩
    rintro (h | h) <;> exact absurd h (by decide +kernel)
  | call =>
    obtain ⟨init, hcall⟩ := samplingCall_concat r.2
    refine ⟨init, ')', hcall, ?_⟩
    rintro (h | h) <;> exact absurd h (by decide +kernel)

theorem not_mem_percent (k : Spelling) : '%' ∉ k.word n r := by
  cases k with
  | name => exact fun h => absurd (isWordPart_of_mem_name _ h) (by decide +kernel)
  | call => exact not_mem_samplingCall (by decide) (by decide) (by decide) r.2

/-- There is no percentage in a word. -/
theorem nothingIn_percent (k : Spelling) : NothingIn percent before (k.word n r) rest := by
  have hpercent : '%' ∉ k.word n r := not_mem_percent k
  obtain ⟨init, d, heq, hd⟩ := k.exists_last n r
  rw [heq] at hpercent ⊢
  have hinit : NoneFollows (isDigit · = true) (fun rest => rest.head? = some '%') init ([d] ++ rest) :=
    noneFollows_head (fun h => hpercent (by simp [h])) (by rintro ⟨⟩; simp at hpercent)
  exact findsNumeral_percent.nothingIn
    (hinit.append (noneFollows_of_not (List.forall_mem_singleton.mpr fun h => hd (.inl h))))
    (.inr fun c hc => by simpa using (by simpa using hc : d = c) ▸ hd)

/-- No product sign is missing in a word that nothing is multiplied with. -/
theorem nothingIn_missingProduct (k : Spelling) (hrest : ¬ ContinuesFactor rest) :
    NothingIn missingProduct before (k.word n r) rest := by
  rintro x y heq hne
  obtain ⟨c, y, rfl⟩ := List.exists_cons_of_ne_nil hne
  rw [List.cons_append, missingProduct, if_neg]
  rw [isMissing_iff]
  cases k with
  | name =>
    have hparts : ∀ d ∈ x ++ [c], isWordPart d = true := fun d hd =>
      isWordPart_of_mem_name d (heq ▸ List.mem_append.mpr (by simp at hd ⊢; tauto))
    obtain ⟨tail, htail⟩ := exists_stemWith_eq n
    have hmem : '_' ∈ x ++ [c] := by
      rw [word, placeholderName, htail] at heq
      rcases x with - | ⟨d, x⟩
      · obtain ⟨rfl, -⟩ := List.cons.inj heq
        exact List.mem_singleton_self _
      · obtain ⟨rfl, -⟩ := List.cons.inj heq
        exact List.mem_cons_self
    have hnot : ¬ IsNumeralChar '_' := by
      rintro (h | h)
      · exact absurd h (by decide +kernel)
      · cases h
    have hnone : ¬ Missing ((x ++ [c]).reverse ++ before) (y ++ rest) :=
      not_missing_of_mem hparts ⟨'_', hmem, hnot⟩
    simpa using hnone
  | call => exact fun h => noneFollows_call hrest x c y heq h.endsFactor h.1

end Spelling

end

/-! ## What stands beside ranges -/

/-- Whether one segment may stand before another: a range stands behind no part of a word or number, before no
digit, and not directly before another range. -/
def Text.Segment.Parted {ι : Type} : Segment ι → Segment ι → Prop
  | .char c, .found _ => isWordPart c = false
  | .found _, .char c => isDigit c = false
  | .found _, .found _ => False
  | .char _, .char _ => True

/-- A replacement that may stand between ranges and is no part of a name. -/
structure Harmless (covered out : List Char) : Prop where
  ne_nil : out ≠ []
  notName : ∀ c ∈ out, isNameStart c = false
  last : ∀ c ∈ out.getLast?, isWordPart c = false
  head : ∀ c ∈ out.head?, isDigit c = true → covered.head? = some c

section

variable {ι : Type} {m m' : List (Segment ι)}

theorem isChain_chars_append {cs : List Char} (hne : cs ≠ []) {s : Segment ι}
    (hhead : ∀ c ∈ cs.head?, s.Parted (.char c))
    (hlast : ∀ c ∈ cs.getLast?, (.char c :: m).IsChain Segment.Parted) :
    (s :: (cs.map .char ++ m)).IsChain Segment.Parted := by
  induction cs generalizing s with
  | nil => exact absurd rfl hne
  | cons c cs ih =>
    refine List.isChain_cons_cons.mpr ⟨hhead c rfl, ?_⟩
    rcases cs with - | ⟨d, cs⟩
    · exact hlast c rfl
    · exact ih (List.cons_ne_nil d cs) (fun _ _ => trivial) (by simpa using hlast)

/-- Ranges stay parted from what stands beside them. -/
theorem Text.Rewrites.isChain_parted (h : Rewrites Harmless m m') {s : Segment ι}
    (hm : (s :: m).IsChain Segment.Parted) : (s :: m').IsChain Segment.Parted := by
  induction h generalizing s with
  | nil => exact hm
  | char c _ ih =>
    obtain ⟨hc, hm⟩ := List.isChain_cons_cons.mp hm
    exact List.isChain_cons_cons.mpr ⟨hc, ih hm⟩
  | found i _ ih =>
    obtain ⟨hi, hm⟩ := List.isChain_cons_cons.mp hm
    exact List.isChain_cons_cons.mpr ⟨hi, ih hm⟩
  | @piece m m' covered out hpiece _ ih =>
    refine isChain_chars_append hpiece.ne_nil (fun c hc => ?_) fun c hc => ih ?_
    · cases s with
      | char _ => trivial
      | found i =>
        refine Bool.of_not_eq_true fun hdigit => ?_
        obtain ⟨tail, rfl⟩ := List.head?_eq_some_iff.mp (hpiece.head c hc hdigit)
        have hparted : isDigit c = false := (List.isChain_cons_cons.mp hm).1
        rw [hdigit] at hparted
        cases hparted
    · have hrest : m.IsChain Segment.Parted := List.IsChain.right_of_append hm.of_cons
      refine hrest.cons fun t ht => ?_
      cases t with
      | char _ => trivial
      | found _ => exact hpiece.last c hc

theorem Text.Rewrites.isChain (h : Rewrites Harmless m m') (hm : m.IsChain Segment.Parted) :
    m'.IsChain Segment.Parted := by
  have hspace : (Segment.char ' ' :: m).IsChain Segment.Parted := hm.cons fun s _ => by
    cases s with
    | char _ => trivial
    | found _ => exact (by decide +kernel : isWordPart ' ' = false)
  exact (h.isChain_parted hspace).of_cons

/-- No stem of placeholders comes about between ranges. -/
theorem Text.Rewrites.fresh {n : Nat} (h : Rewrites Harmless m m') (hfresh : ¬ (stemWith n).map .char <:+: m) :
    ¬ (stemWith n).map .char <:+: m' := by
  have hforeign : Foreign (isNameStart · = true) Harmless := fun _ _ h =>
    ⟨h.ne_nil, fun c hc => by simp [h.notName c hc]⟩
  exact mt (h.infix_of hforeign (stemWith_ne_nil n) isNameStart_of_mem_stemWith) hfresh

theorem exists_chars_blank (m : List (Segment ι)) :
    ∃ (bs : List Char) (rest : List (Segment ι)), (∀ b ∈ bs, isBlank b = true) ∧ m = bs.map .char ++ rest ∧
      (rest = [] ∨ (∃ c back, rest = .char c :: back ∧ isBlank c = false) ∨
        ∃ i back, rest = .found i :: back) := by
  induction m with
  | nil => exact ⟨[], [], nofun, rfl, .inl rfl⟩
  | cons s m ih =>
    rcases s with c | i
    · cases hc : isBlank c with
      | true =>
        obtain ⟨bs, rest, hbs, rfl, hrest⟩ := ih
        exact ⟨c :: bs, rest, List.forall_mem_cons.mpr ⟨hc, hbs⟩, rfl, hrest⟩
      | false => exact ⟨[], _, nofun, rfl, .inr (.inl ⟨c, m, rfl, hc⟩)⟩
    · exact ⟨[], _, nofun, rfl, .inr (.inr ⟨i, m, rfl⟩)⟩

end

/-! ## The same in both spellings -/

section

variable {n : Nat} {m front back : List (Segment NumberedRange)} {c : Char} (k k' : Spelling)

/-- Behind white space the texts go on alike. -/
theorem skipBlanks_written (n : Nat) (m : List (Segment NumberedRange)) :
    ∃ (bs : List Char) (rest : List (Segment NumberedRange)), (∀ b ∈ bs, isBlank b = true) ∧
      m = bs.map .char ++ rest ∧ ∀ k : Spelling, skipBlanks (written (k.word n) m) = written (k.word n) rest := by
  obtain ⟨bs, rest, hbs, rfl, hrest⟩ := exists_chars_blank m
  refine ⟨bs, rest, hbs, rfl, fun k => ?_⟩
  rw [written_append, written_chars, skipBlanks_append_of_blank hbs]
  rcases hrest with rfl | ⟨c, back, rfl, hc⟩ | ⟨i, back, rfl⟩
  · rfl
  · exact skipBlanks_char hc _
  · obtain ⟨c, tail, heq, hc, -⟩ := k.exists_head n i
    rw [written_found, heq]
    exact skipBlanks_char (StartsFactor.not_blank (.inr hc)) _

/-- The texts begin with the same character, or both with the start of a name. -/
theorem exists_first_iff {P : Char → Prop} (hP : ∀ c, isNameStart c = true → ¬ P c)
    (m : List (Segment NumberedRange)) :
    (∃ c tail, written (k.word n) m = c :: tail ∧ P c) ↔
      ∃ c tail, written (k'.word n) m = c :: tail ∧ P c := by
  rcases m with - | ⟨c | i, m⟩
  · rfl
  · simp
  · have hnot : ∀ k : Spelling, ¬ ∃ c tail, written (k.word n) (.found i :: m) = c :: tail ∧ P c := by
      rintro k ⟨d, tail, heq, hd⟩
      obtain ⟨c, rest, hword, hc, -⟩ := k.exists_head n i
      rw [written_found, hword] at heq
      obtain ⟨rfl, -⟩ := List.cons.inj heq
      exact hP c hc hd
    exact iff_of_false (hnot k) (hnot k')

theorem startsWithExponent_written (m : List (Segment NumberedRange)) :
    startsWithExponent (written (k.word n) m) = startsWithExponent (written (k'.word n) m) := by
  rw [Bool.eq_iff_iff]
  rcases m with - | ⟨c | i, m⟩
  · rfl
  · rw [written_char, written_char, startsWithExponent_iff, startsWithExponent_iff]
    refine and_congr_right' (or_congr (exists_first_iff k k' (fun d hd h => ?_) m) ?_)
    · rw [not_isDigit_of_isNameStart hd] at h
      cases h
    · have hsign : ∀ c, isNameStart c = true → ¬ (c = '+' ∨ c = '-') := by
        rintro c hc (rfl | rfl) <;> cases hc
      rcases m with - | ⟨s | i, m⟩
      · rfl
      · have hsecond := exists_first_iff (n := n) k k' (P := fun d => (s = '+' ∨ s = '-') ∧ isDigit d = true)
          (fun d hd h => by rw [not_isDigit_of_isNameStart hd] at h; cases h.2) m
        simpa using hsecond
      · have hnot : ∀ k : Spelling, ¬ ∃ s d tail, written (k.word n) (.found i :: m) = s :: d :: tail ∧
            (s = '+' ∨ s = '-') ∧ isDigit d = true := by
          rintro k ⟨s, d, tail, heq, hs, -⟩
          obtain ⟨c, rest, hword, hc, -⟩ := k.exists_head n i
          rw [written_found, hword] at heq
          obtain ⟨rfl, -⟩ := List.cons.inj heq
          exact hsign c hc hs
        exact iff_of_false (hnot k) (hnot k')
  · have hnot : ∀ k : Spelling, ¬ startsWithExponent (written (k.word n) (.found i :: m)) = true := by
      intro k h
      obtain ⟨c, rest, hword, -, hsmall, hcapital⟩ := k.exists_head n i
      rw [written_found, hword, List.cons_append, startsWithExponent_iff] at h
      exact h.1.elim hsmall hcapital
    exact iff_of_false (hnot k) (hnot k')

theorem continuesFactor_written_iff (m : List (Segment NumberedRange)) :
    ContinuesFactor (written (k.word n) m) ↔ ContinuesFactor (written (k'.word n) m) := by
  obtain ⟨bs, rest, -, -, hskip⟩ := skipBlanks_written n m
  rw [ContinuesFactor, ContinuesFactor, hskip, hskip]
  rcases rest with - | ⟨c | i, rest⟩
  · rfl
  · rfl
  · have hstarts : ∀ k : Spelling,
        ∃ c, (written (k.word n) (.found i :: rest)).head? = some c ∧ StartsFactor c := by
      intro k
      obtain ⟨c, tail, hword, hc, -⟩ := k.exists_head n i
      exact ⟨c, by rw [written_found, hword]; rfl, .inr hc⟩
    exact iff_of_true (hstarts k) (hstarts k')

/-- A numeral ends at a character in one text if it does in the other. -/
theorem sameEnd_written (hm : (front ++ [Segment.char c]).IsChain Segment.Parted) :
    SameEnd (c :: (written (k.word n) front).reverse) (c :: (written (k'.word n) front).reverse) := by
  induction front using List.reverseRecOn generalizing c with
  | nil => exact .refl _
  | append_singleton front s ih =>
    rw [List.append_assoc, List.singleton_append] at hm
    rcases s with d | i
    · simp only [written_append, written_char, written_nil, List.reverse_append, List.reverse_singleton,
        List.singleton_append]
      refine (ih ?_).cons c
      rw [← List.singleton_append, ← List.append_assoc] at hm
      exact hm.left_of_append
    · have hparted : isDigit c = false := (List.isChain_cons_cons.mp hm.right_of_append).1
      have hlast : ∀ k : Spelling, ∃ d before, (written (k.word n) (front ++ [.found i])).reverse = d :: before ∧
          ¬ IsNumeralChar d := by
        intro k
        obtain ⟨init, d, hword, hd⟩ := k.exists_last n i
        refine ⟨d, init.reverse ++ (written (k.word n) front).reverse, by simp [hword], fun h => hd ?_⟩
        exact h.imp_right fun hpoint => by simp [hpoint]
      obtain ⟨d, before, hbefore, hd⟩ := hlast k
      obtain ⟨d', before', hbefore', hd'⟩ := hlast k'
      rw [hbefore, hbefore']
      exact sameEnd_behind hparted hd hd'

theorem standsAlone_written (hm : (front ++ Segment.char c :: back).IsChain Segment.Parted) (hc : isDigit c = true) :
    standsAlone (written (k.word n) front).reverse = standsAlone (written (k'.word n) front).reverse := by
  rcases List.eq_nil_or_concat front with rfl | ⟨front, d | i, rfl⟩
  · rfl
  · simp [standsAlone]
  · rw [List.concat_eq_append, List.append_assoc, List.singleton_append] at hm
    have hparted : isDigit c = false := (List.isChain_cons_cons.mp hm.right_of_append).1
    rw [hc] at hparted
    cases hparted

/-- The product sign is missing at the same places. -/
theorem missing_written_iff (hm : (front ++ .char c :: back).IsChain Segment.Parted) :
    Missing (c :: (written (k.word n) front).reverse) (written (k.word n) back) ↔
      Missing (c :: (written (k'.word n) front).reverse) (written (k'.word n) back) := by
  refine missing_congr (sameEnd_written k k' ?_) (continuesFactor_written_iff k k' back) ?_
  · rw [← List.singleton_append, ← List.append_assoc] at hm
    exact hm.left_of_append
  · obtain ⟨bs, rest, -, -, hskip⟩ := skipBlanks_written n back
    rw [hskip, hskip, startsWithExponent_written k k']

end

/-! ## The passes -/

theorem harmless_quotient {x : List Char} (hx : IsNumeral x) : Harmless (x ++ ['%']) ('(' :: x ++ "/100)".toList) where
  ne_nil := List.cons_ne_nil _ _
  notName := by
    have htail : "/100)".toList.all (!isNameStart ·) = true := by decide +kernel
    refine List.forall_mem_cons.mpr ⟨by decide, List.forall_mem_append.mpr ⟨fun c hc => ?_, by simpa using htail⟩⟩
    rcases hx.mem hc with h | rfl
    · exact EndsFactor.not_isNameStart (.inl h)
    · decide
  last c hc := by
    have hout : '(' :: x ++ "/100)".toList = ('(' :: x ++ "/100".toList) ++ [')'] := by simp
    rw [hout, List.getLast?_concat] at hc
    obtain rfl : ')' = c := Option.some.inj hc
    decide +kernel
  head c hc hdigit := by
    obtain rfl : '(' = c := Option.some.inj hc
    exact absurd hdigit (by decide)

section

variable {n : Nat} {m : List (Segment NumberedRange)} (hm : m.IsChain Segment.Parted)

include hm

/-- Percentages are written out alike. -/
theorem exists_percent :
    ∃ m', Rewrites Harmless m m' ∧
      ∀ k : Spelling, replaceEach percent (written (k.word n) m) = written (k.word n) m' := by
  refine exists_rewrites m ?_ fun front r back _ k => k.nothingIn_percent
  rintro front c back rfl
  by_cases hsome : ∃ k : Spelling, (percent (written (k.word n) front).reverse
      (c :: written (k.word n) back)).isSome = true
  · obtain ⟨k, hsome⟩ := hsome
    obtain ⟨⟨out, after⟩, hsome⟩ := Option.isSome_iff_exists.mp hsome
    obtain ⟨halone, x, hx, htext, rfl⟩ := percent_eq_some hsome
    have hfront : written (k.word n) (.char c :: back) = (x ++ ['%']) ++ after := by
      rw [written_char, htext]
      simp
    obtain ⟨rest, hrest, rfl⟩ := exists_chars_of_written hfront fun i => by
        obtain ⟨d, tail, hword, hd, -⟩ := k.exists_head n i
        refine ⟨d, by rw [hword]; rfl, fun hmem => ?_⟩
        rcases List.mem_append.mp hmem with hmem | hmem
        · rcases hx.mem hmem with h | rfl
          · rw [not_isDigit_of_isNameStart hd] at h
            cases h
          · cases hd
        · rw [List.mem_singleton.mp hmem] at hd
          cases hd
    refine .inr ⟨x ++ ['%'], '(' :: x ++ "/100)".toList, rest, by simp, harmless_quotient hx, hrest, fun k' => ?_⟩
    · have hdigit : isDigit c = true := by
        obtain ⟨d, tail, rfl, hd⟩ := hx.head
        rwa [(List.cons.inj htext).1]
      have halone' := halone
      rw [standsAlone_written k k' hm hdigit] at halone'
      have htext' : c :: written (k'.word n) back = x ++ '%' :: written (k'.word n) rest := by
        rw [← written_char, hrest, written_append, written_chars, List.append_assoc]
        rfl
      rw [htext', percent_numeral hx halone']
      rfl
  · exact .inl fun k => Option.not_isSome_iff_eq_none.mp fun h => hsome ⟨k, h⟩

end

/-- A mark that is no part of a word. -/
theorem harmless_mark {c : Char} (covered : List Char) (hc : isWordPart c = false) : Harmless covered [c] where
  ne_nil := List.cons_ne_nil _ _
  notName := List.forall_mem_singleton.mpr (Bool.of_not_eq_true fun hname => by
    rw [isWordPart, isWordChar_of_isNameStart hname] at hc
    cases hc)
  last d hd := by
    obtain rfl : c = d := Option.some.inj hd
    exact hc
  head d hd hdigit := by
    obtain rfl : c = d := Option.some.inj hd
    rw [isWordPart, isWordChar_of_isDigit hdigit] at hc
    cases hc

/-! ## Products with placeholders -/

section

variable {n : Nat} {before rest : List Char}

theorem placeholder?_name (index : Nat) :
    placeholder? (stemWith n) (placeholderName (stemWith n) index ++ rest) =
      some (placeholderName (stemWith n) index, rest) :=
  placeholder?_eq_some_iff.mpr ⟨digitChars index, isDigits_digitChars index, rfl, rfl⟩

theorem placeholderProduct_name {index : Nat} {bs tail : List Char} {r : Char} (halone : standsAlone before = true)
    (hbs : ∀ b ∈ bs, isBlank b = true) (hr : StartsFactor r) :
    placeholderProduct (stemWith n) before (placeholderName (stemWith n) index ++ (bs ++ r :: tail)) =
      some (placeholderName (stemWith n) index ++ ['*'], r :: tail) := by
  have hnext : (r == '(' || isNameStart r) = true := by simpa [StartsFactor] using hr
  simp [placeholderProduct, guard, halone, placeholder?_name, skipBlanks_continues hbs hr, hnext]

/-- What is multiplied with a placeholder follows it. -/
theorem placeholderProduct_eq_some {text out after : List Char}
    (h : placeholderProduct (stemWith n) before text = some (out, after)) :
    standsAlone before = true ∧
      ∃ name rest, placeholder? (stemWith n) text = some (name, rest) ∧ ContinuesFactor rest := by
  simp only [placeholderProduct, bind, Option.bind_eq_some_iff, guard_eq_some] at h
  obtain ⟨_, halone, ⟨name, rest⟩, hname, _, hnext, -⟩ := h
  refine ⟨halone, name, rest, hname, ?_⟩
  rw [ContinuesFactor]
  cases hhead : (skipBlanks rest).head? with
  | none => simp [hhead] at hnext
  | some c => exact ⟨c, rfl, by simpa [hhead, StartsFactor] using hnext⟩

/-- Nothing is multiplied with a placeholder that no factor follows, and there is no other one in it. -/
theorem nothingIn_placeholderProduct {index : Nat} (hrest : ¬ ContinuesFactor rest) :
    NothingIn (placeholderProduct (stemWith n)) before (placeholderName (stemWith n) index) rest := by
  rintro x y heq hne
  refine Option.eq_none_iff_forall_not_mem.mpr ?_
  rintro ⟨out, after⟩ hsome
  obtain ⟨halone, name, rest', hname, hcontinues⟩ := placeholderProduct_eq_some hsome
  rcases List.eq_nil_or_concat x with rfl | ⟨x, c, rfl⟩
  · rw [List.nil_append] at heq
    rw [← heq, placeholder?_name] at hname
    obtain ⟨-, rfl⟩ := Prod.mk.inj (Option.some.inj hname)
    exact hrest hcontinues
  · have hmem : c ∈ placeholderName (stemWith n) index := by
      rw [heq]
      simp
    have hpart := isWordPart_of_mem_name c hmem
    rw [standsAlone_iff] at halone
    have := halone c (by simp)
    rw [hpart] at this
    cases this

variable {m front back : List (Segment NumberedRange)} {c : Char}

/-- Before a range no part of a word stands, so that no word runs into it. -/
theorem chars_prefix_of_written {k : Spelling} {part : List Char} (hm : (.char c :: m).IsChain Segment.Parted)
    (h : c :: written (k.word n) m = part ++ rest) (hpart : ∀ d ∈ part, isWordPart d = true) :
    part.map .char <+: .char c :: m := by
  induction part generalizing c m with
  | nil => exact List.nil_prefix
  | cons d part ih =>
    obtain ⟨rfl, htail⟩ := List.cons.inj h
    obtain ⟨hc, hpart⟩ := List.forall_mem_cons.mp hpart
    refine List.cons_prefix_cons.mpr ⟨rfl, ?_⟩
    rcases m with - | ⟨e | i, m⟩
    · obtain rfl := (List.append_eq_nil_iff.mp htail.symm).1
      exact List.nil_prefix
    · exact ih hm.of_cons htail hpart
    · have hparted : isWordPart c = false := (List.isChain_cons_cons.mp hm).1
      rw [hc] at hparted
      cases hparted

/-- Elsewhere no placeholder stands. -/
theorem placeholderProduct_char (hm : (front ++ .char c :: back).IsChain Segment.Parted)
    (hfresh : ¬ (stemWith n).map .char <:+: front ++ .char c :: back) (before : List Char) :
    placeholderProduct (stemWith n) before (c :: written (Spelling.name.word n) back) = none := by
  refine Option.eq_none_iff_forall_not_mem.mpr ?_
  rintro ⟨out, after⟩ hsome
  obtain ⟨-, name, rest, hname, -⟩ := placeholderProduct_eq_some hsome
  obtain ⟨number, -, rfl, htext⟩ := placeholder?_eq_some_iff.mp hname
  rw [List.append_assoc, List.append_assoc] at htext
  have hpre := chars_prefix_of_written hm.right_of_append htext fun d hd => by
    rw [isWordPart, isWordChar_of_isNameStart (isNameStart_of_mem_stemWith d hd), Bool.true_or]
  exact hfresh (hpre.isInfix.trans (List.suffix_append _ _).isInfix)

theorem standsAlone_before_found (k : Spelling) {r : NumberedRange}
    (hm : (front ++ .found r :: back).IsChain Segment.Parted) :
    standsAlone (written (k.word n) front).reverse = true := by
  rcases List.eq_nil_or_concat front with rfl | ⟨front, d | i, rfl⟩
  · rfl
  · rw [List.concat_eq_append, List.append_assoc, List.singleton_append] at hm
    have hparted : isWordPart d = false := (List.isChain_cons_cons.mp hm.right_of_append).1
    exact standsAlone_iff.mpr (by simpa using hparted)
  · rw [List.concat_eq_append, List.append_assoc, List.singleton_append] at hm
    exact (List.isChain_cons_cons.mp hm.right_of_append).1.elim

/-- The second text is the rest of the first, of which `front` has been passed, with the product signs between
ranges and what follows them: the rule for placeholders writes them, and behind the calls they were missing. -/
structure ProductsWritten (n : Nat) (front m m' : List (Segment NumberedRange)) : Prop where
  rewrites : Rewrites Harmless m m'
  names : ∃ ps, Scans (placeholderProduct (stemWith n)) (written (Spelling.name.word n) front).reverse
    (written (Spelling.name.word n) m) ps ∧ rewritten id ps = written (Spelling.name.word n) m'
  calls : Supplies (written (Spelling.call.word n) front).reverse (written (Spelling.call.word n) m)
    (written (Spelling.call.word n) m')
  none_follows : ∀ front r back, m' = front ++ .found r :: back →
    ¬ ContinuesFactor (written (Spelling.call.word n) back)

namespace ProductsWritten

variable {m' : List (Segment NumberedRange)} {r : NumberedRange}

theorem nil : ProductsWritten n front [] [] :=
  ⟨.nil, ⟨[], .nil, rfl⟩, .nil, by simp⟩

theorem char (hm : (front ++ .char c :: back).IsChain Segment.Parted)
    (hfresh : ¬ (stemWith n).map .char <:+: front ++ .char c :: back)
    (h : ProductsWritten n (front ++ [.char c]) back m') :
    ProductsWritten n front (.char c :: back) (.char c :: m') := by
  obtain ⟨hrewrites, ⟨ps, hps, hout⟩, hcalls, hnone⟩ := h
  simp only [written_append, written_char, written_nil, List.reverse_append, List.reverse_singleton,
    List.singleton_append] at hps hcalls
  refine ⟨.char c hrewrites, ⟨.char c :: ps, .char (placeholderProduct_char hm hfresh _) hps, ?_⟩, .char hcalls, ?_⟩
  · rw [rewritten_char, hout, written_char]
  · rintro (- | ⟨s, front'⟩) r back' heq
    · cases heq
    · exact hnone front' r back' (List.cons.inj heq).2

/-- A range that nothing is multiplied with. -/
theorem found (hback : ¬ ContinuesFactor (written (Spelling.call.word n) back))
    (h : ProductsWritten n (front ++ [.found r]) back m') :
    ProductsWritten n front (.found r :: back) (.found r :: m') := by
  obtain ⟨hrewrites, ⟨ps, hps, hout⟩, hcalls, hnone⟩ := h
  simp only [written_append, written_found, written_nil, List.append_nil, List.reverse_append] at hps hcalls
  have hname : ¬ ContinuesFactor (written (Spelling.name.word n) back) :=
    (continuesFactor_written_iff .name .call back).not.mpr hback
  refine ⟨.found r hrewrites, ⟨_, .stretch (nothingIn_placeholderProduct hname) hps, ?_⟩, .chars _ hcalls, ?_⟩
  · rw [rewritten_append, rewritten_chars, hout]
    rfl
  · rintro (- | ⟨s, front'⟩) r' back' heq
    · obtain ⟨-, rfl⟩ := List.cons.inj heq
      exact hcalls.continuesFactor_iff.not.mp hback
    · exact hnone front' r' back' (List.cons.inj heq).2

/-- A range that something is multiplied with, perhaps behind white space. -/
theorem star {bs : List Char} (hm : (front ++ Segment.found r :: (bs.map Segment.char ++ back)).IsChain Segment.Parted)
    (hbs : ∀ b ∈ bs, isBlank b = true)
    (hskip : ∀ k : Spelling, skipBlanks (written (k.word n) back) = written (k.word n) back)
    (hback : ContinuesFactor (written (Spelling.call.word n) back))
    (h : ProductsWritten n (front ++ Segment.found r :: bs.map Segment.char) back m') :
    ProductsWritten n front (Segment.found r :: (bs.map Segment.char ++ back)) (.found r :: .char '*' :: m') := by
  obtain ⟨hrewrites, ⟨ps, hps, hout⟩, hcalls, hnone⟩ := h
  have hstarts : ∀ k : Spelling, ∃ c tail, written (k.word n) back = c :: tail ∧ StartsFactor c := by
    intro k
    obtain ⟨c, hc, hstarts⟩ := (continuesFactor_written_iff k .call back).mpr hback
    rw [hskip] at hc
    obtain ⟨tail, htail⟩ := List.head?_eq_some_iff.mp hc
    exact ⟨c, tail, htail, hstarts⟩
  have hstar : Rewrites Harmless (bs.map Segment.char ++ back) (.char '*' :: m') :=
    .piece (harmless_mark bs (by decide +kernel) : Harmless bs ['*']) hrewrites
  refine ⟨.found r hstar, ?_, ?_, ?_⟩
  · obtain ⟨c, tail, htail, hc⟩ := hstarts .name
    have halone : standsAlone (written (Spelling.name.word n) front).reverse = true := standsAlone_before_found .name hm
    have hsome : placeholderProduct (stemWith n) _ (placeholderName (stemWith n) r.1 ++ (bs ++ c :: tail)) = _ :=
      placeholderProduct_name halone hbs hc
    rw [← htail, ← List.append_assoc] at hsome
    refine ⟨.found (placeholderName (stemWith n) r.1 ++ ['*'])
      (placeholderName (stemWith n) r.1 ++ bs) :: ps, ?_, ?_⟩
    · have hne : placeholderName (stemWith n) r.1 ++ bs ≠ [] := by simp [placeholderName]
      have hafter : Scans (placeholderProduct (stemWith n)) ((placeholderName (stemWith n) r.1 ++ bs).reverse ++
          (written (Spelling.name.word n) front).reverse) (written (Spelling.name.word n) back) ps := by
        simpa [Spelling.word] using hps
      simpa [Spelling.word] using Scans.found hne hsome hafter
    · rw [rewritten_found, hout]
      simp [Spelling.word]
  · obtain ⟨c, tail, htail, hc⟩ := hstarts .call
    obtain ⟨init, hcall⟩ := samplingCall_concat r.2
    obtain ⟨tail', htail'⟩ : ∃ tail', written (Spelling.call.word n) m' = c :: tail' := by
      have hhead := hcalls.head?_eq
      rw [htail] at hhead
      exact List.head?_eq_some_iff.mp hhead.symm
    rw [htail, htail'] at hcalls
    have hmissing : Missing (')' :: (init.reverse ++ (written (Spelling.call.word n) front).reverse))
        (bs ++ c :: tail) := by
      refine ⟨⟨c, ?_, hc⟩, .inl rfl⟩
      rw [skipBlanks_continues hbs hc]
      rfl
    have hrest : Supplies (c :: (bs.reverse ++ ')' :: (init.reverse ++ (written (Spelling.call.word n) front).reverse)))
        tail tail' := by
      simpa [Spelling.word, hcall] using hcalls.of_cons hc.not_endsFactor
    have hchars := Supplies.chars init (.star hbs hc hmissing hrest)
    simpa [Spelling.word, hcall, htail, htail'] using hchars
  · rintro (- | ⟨s, - | ⟨s', front'⟩⟩) r' back' heq
    · obtain ⟨-, rfl⟩ := List.cons.inj heq
      rintro ⟨c, hc, hstarts⟩
      obtain rfl : '*' = c := Option.some.inj hc
      exact hstarts.ne_star rfl
    · cases (List.cons.inj (List.cons.inj heq).2).1
    · exact hnone front' r' back' (List.cons.inj (List.cons.inj heq).2).2

end ProductsWritten

end

section

variable {n : Nat} {m : List (Segment NumberedRange)} (hm : m.IsChain Segment.Parted)

include hm

/-- Where nothing is multiplied with a range, product signs are written alike. -/
theorem exists_missingProduct
    (hmarks : ∀ front r back, m = front ++ .found r :: back →
      ¬ ContinuesFactor (written (Spelling.call.word n) back)) :
    ∃ m', Rewrites Harmless m m' ∧
      ∀ k : Spelling, replaceEach missingProduct (written (k.word n) m) = written (k.word n) m' := by
  refine exists_rewrites m ?_ fun front r back heq k =>
    k.nothingIn_missingProduct fun h => hmarks front r back heq ((continuesFactor_written_iff k .call back).mp h)
  rintro front c back rfl
  by_cases hmissing : Missing (c :: (written (Spelling.call.word n) front).reverse)
    (written (Spelling.call.word n) back)
  · obtain ⟨bs, rest, hbs, rfl, hskip⟩ := skipBlanks_written n back
    refine .inr ⟨c :: bs, [c, '*'], rest, List.cons_ne_nil _ _, ?_, rfl, fun k => ?_⟩
    · have hc := hmissing.endsFactor
      refine ⟨List.cons_ne_nil _ _, List.forall_mem_cons.mpr ⟨hc.not_isNameStart,
        List.forall_mem_singleton.mpr (by decide)⟩, fun d hd => ?_, fun d hd _ => hd⟩
      obtain rfl : '*' = d := Option.some.inj hd
      decide +kernel
    · rw [missingProduct, if_pos (isMissing_iff.mpr ((missing_written_iff k .call hm).mpr hmissing)), hskip]
  · refine .inl fun k => ?_
    rw [missingProduct, if_neg (isMissing_iff.not.mpr fun h => hmissing ((missing_written_iff k .call hm).mp h))]

end

/-! ## All passes -/

/-- A text in which ranges stand apart from what is around them, also with a placeholder for each: no other one
stands in the text, and nothing is multiplied with a range without a sign. -/
structure Settled (n : Nat) (m : List (Segment NumberedRange)) : Prop where
  parted : m.IsChain Segment.Parted
  fresh : ¬ (stemWith n).map .char <:+: m
  none_follows : ∀ front r back, m = front ++ .found r :: back →
    ¬ ContinuesFactor (written (Spelling.call.word n) back)

section

variable {n : Nat} {m : List (Segment NumberedRange)} (hm : m.IsChain Segment.Parted)
  (hfresh : ¬ (stemWith n).map .char <:+: m)

include hm hfresh

/-- What is multiplied with a placeholder is multiplied with the call. -/
theorem exists_productsWritten : ∃ m', ProductsWritten n [] m m' := by
  have hrest : ∀ front back, m = front ++ back → ∃ m', ProductsWritten n front back m' := by
    intro front back
    induction hlength : back.length using Nat.strongRecOn generalizing front back with
    | ind length ih =>
      subst hlength
      rintro rfl
      rcases back with - | ⟨c | r, back⟩
      · exact ⟨[], .nil⟩
      · obtain ⟨m', h⟩ := ih _ (Nat.lt_succ_self _) (front ++ [.char c]) back rfl (by simp)
        exact ⟨_, h.char hm hfresh⟩
      · by_cases hback : ContinuesFactor (written (Spelling.call.word n) back)
        · obtain ⟨bs, rest, hbs, rfl, hskip⟩ := skipBlanks_written n back
          have hskip' : ∀ k : Spelling, skipBlanks (written (k.word n) rest) = written (k.word n) rest := fun k => by
            rw [← hskip, skipBlanks_of_head (head?_skipBlanks _)]
          have hlength : rest.length < (Segment.found r :: (bs.map Segment.char ++ rest)).length := by
            simp only [List.length_cons, List.length_append]
            omega
          obtain ⟨m', h⟩ := ih _ hlength (front ++ .found r :: bs.map .char) rest rfl (by simp)
          rw [ContinuesFactor, hskip, ← hskip' .call] at hback
          exact ⟨_, h.star hm hbs hskip' hback⟩
        · obtain ⟨m', h⟩ := ih _ (Nat.lt_succ_self _) (front ++ [.found r]) back rfl (by simp)
          exact ⟨_, h.found hback⟩
  exact hrest [] m rfl

/-- Both spellings are finished alike. -/
theorem exists_finished :
    ∃ m', Settled n m' ∧ m'.filterMap Segment.found? = m.filterMap Segment.found? ∧
      finish (written (Spelling.name.word n) m) (some (stemWith n)) = squeeze (written (Spelling.name.word n) m') ∧
      finish (written (Spelling.call.word n) m) none = squeeze (written (Spelling.call.word n) m') := by
  obtain ⟨m₁, hm₁, hpercent⟩ := exists_percent (n := n) hm
  have hchain₁ := hm₁.isChain hm
  have hfresh₁ := hm₁.fresh hfresh
  obtain ⟨m₂, hm₂, ⟨ps, hps, hnames⟩, hcalls, hnone⟩ := exists_productsWritten hchain₁ hfresh₁
  have hchain₂ := hm₂.isChain hchain₁
  have hfresh₂ := hm₂.fresh hfresh₁
  obtain ⟨m₃, hm₃, hmissing⟩ := exists_missingProduct (n := n) hchain₂ hnone
  have hname : insertProducts (written (Spelling.name.word n) m₁) (some (stemWith n)) =
      written (Spelling.name.word n) m₃ := by
    have hproducts := insertProducts_eq
      (replaceEach (placeholderProduct (stemWith n)) (written (Spelling.name.word n) m₁))
    rw [hps.replaceEach_eq, hnames, hmissing] at hproducts
    rw [← hproducts, ← hnames, ← hps.replaceEach_eq]
    rfl
  have hcall : insertProducts (written (Spelling.call.word n) m₁) none = written (Spelling.call.word n) m₃ := by
    have hsame : replaceEach missingProduct (written (Spelling.call.word n) m₁) =
        replaceEach missingProduct (written (Spelling.call.word n) m₂) := hcalls.multipliedFrom_eq (.refl _)
    rw [insertProducts_eq, hsame, hmissing]
  refine ⟨m₃, ⟨hm₃.isChain hchain₂, hm₃.fresh hfresh₂, ?_⟩, ?_, ?_, ?_⟩
  · rintro front r back rfl hcontinues
    obtain ⟨init, hinit⟩ := samplingCall_concat r.2
    have hfree := (productFree_insertProducts (written (Spelling.call.word n) m₁)).free_missingProduct
    rw [hcall] at hfree
    refine hfree (written (Spelling.call.word n) front ++ init) (')' :: written (Spelling.call.word n) back)
      (by simp [Spelling.word, hinit]) ?_
    rw [Found, missingProduct, if_pos (isMissing_iff.mpr ⟨hcontinues, .inl rfl⟩)]
    rfl
  · rw [hm₃.marks_eq, hm₂.marks_eq, hm₁.marks_eq]
  · rw [finish, hpercent .name, hname]
  · rw [finish, hpercent .call, hcall]

end

end RangeCalc
