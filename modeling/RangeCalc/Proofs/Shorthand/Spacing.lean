import RangeCalc.Proofs.Shorthand.Blank
import RangeCalc.Proofs.Shorthand.Percent
import RangeCalc.Proofs.Shorthand.Product

/-!
# White space does not matter for shorthand

Each reader of numerals and marks reads the same from texts with the same words, up to rests with the same
words, and so does each rule, which is made of such readers.

* `KeepsReading`: such readers; `keepsReading_of_readsFront`: those that take a longest front without white
  space;
* `keepsWords_thousands` and its like: the rules.
-/

namespace RangeCalc.Shorthand

open Text

/-! ## Readers -/

section

variable {s t rest rest' : List Char}

theorem expect?_relates {c : Char} (hc : isBlank c = false) (h : SameWords s t) :
    Option.Rel (BothPass s t) (expect? c s) (expect? c t) := by
  cases h.front with
  | @char d s t hd hrest =>
    simp only [expect?]
    split
    · exact .some (.char hd hrest)
    · exact .none
  | blank hs ht =>
    have hnone : ∀ {s : List Char}, (∀ d ∈ s.head?, isBlank d = true) → expect? c s = none := fun {s} hs => by
      rcases s with - | ⟨d, s⟩
      · rfl
      · exact expect?_blank (hs d rfl) s hc
    rw [hnone hs, hnone ht]
    exact .none

theorem expect?_relates_after {c : Char} (hc : isBlank c = false) (h : BothPass s t rest rest') :
    Option.Rel (BothPass s t) (expect? c rest) (expect? c rest') :=
  relates_imp (expect?_relates hc h.same) fun _ _ => h.trans

theorem expect?_relates_skipBlanks {c : Char} (hc : isBlank c = false) (h : BothPass s t rest rest') :
    Option.Rel (BothPass s t) (expect? c (skipBlanks rest)) (expect? c (skipBlanks rest')) :=
  relates_imp (expect?_relates hc h.same.skip) fun _ _ hpass => h.trans hpass.of_skipBlanks

/-- A reader of fronts without white space, which reads the same front wherever it stands in the same
words. -/
theorem keepsReading_of_transfer {read : List Char → Option (List Char × List Char)}
    (hsplit : ∀ {s n rest}, read s = some (n, rest) →
      n ≠ [] ∧ (∀ c ∈ n, isBlank c = false) ∧ s = n ++ rest)
    (htransfer : ∀ {s n rest rest'}, SameWords s (n ++ rest') → read s = some (n, rest) →
      read (n ++ rest') = some (n, rest')) : KeepsReading read := by
  have hread : ∀ {s t n rest}, SameWords s t → read s = some (n, rest) →
      ∃ rest', t = n ++ rest' ∧ SameWords rest rest' ∧ read t = some (n, rest') := by
    intro s t n rest h hs
    obtain ⟨-, hchars, rfl⟩ := hsplit hs
    obtain ⟨rest', rfl, hrest⟩ := h.exists_front hchars
    exact ⟨rest', rfl, hrest, htransfer h hs⟩
  intro s t h
  rcases hs : read s with - | ⟨n, rest⟩
  · rcases ht : read t with - | ⟨n, rest⟩
    · exact .none
    · obtain ⟨rest', -, -, hs'⟩ := hread h.symm ht
      rw [hs] at hs'
      cases hs'
  · obtain ⟨rest', ht, hrest, ht'⟩ := hread h hs
    obtain ⟨hne, hchars, hs⟩ := hsplit hs
    have hlast : ∀ c ∈ n.getLast?, isBlank c = false := fun c hc => hchars c (List.mem_of_getLast? hc)
    rw [ht']
    exact .some ⟨rfl, hrest, ⟨n, hne, hs, .inl hlast⟩, ⟨n, hne, ht, .inl hlast⟩⟩

/-- A reader of longest fronts without white space. -/
theorem keepsReading_of_readsFront {P : List Char → Prop} {read : List Char → Option (List Char × List Char)}
    (hread : ReadsFront P read) (hP : ∀ n, P n → n ≠ [] ∧ ∀ c ∈ n, isBlank c = false) :
    KeepsReading read := by
  refine keepsReading_of_transfer (fun {s n rest} hs => ?_) fun {s n rest rest'} h hs => ?_
  · have hfront := hread.eq_some_iff.mp hs
    exact ⟨(hP n hfront.holds).1, (hP n hfront.holds).2, hfront.split⟩
  · have hfront := hread.eq_some_iff.mp hs
    refine hread.eq_some_iff.mpr ⟨hfront.holds, rfl, fun other hother hpre => ?_⟩
    obtain ⟨tail, htail⟩ := hpre
    obtain ⟨tail', hs', -⟩ := SameWords.exists_front (hP other hother).2 (htail ▸ h.symm)
    exact hfront.longest other hother ⟨tail', hs'.symm⟩

theorem keepsReading_numeral? : KeepsReading numeral? :=
  keepsReading_of_readsFront readsFront_numeral? fun _ hn =>
    ⟨hn.ne_nil, fun _ hc => Bool.of_not_eq_true fun hblank => not_digit_of_isBlank hblank (hn.mem hc)⟩

/-- A numeral after a sign. -/
theorem numeral?_relates_after {c : Char} (hc : isBlank c = false) (h : SameWords s t) :
    Option.Rel (fun p q => p.1 = q.1 ∧ BothPass (c :: s) (c :: t) p.2 q.2)
      ((numeral? s).map fun (digits, after) => (c :: digits, after))
      ((numeral? t).map fun (digits, after) => (c :: digits, after)) := by
  have hrel := (BothPass.char hc h).reads keepsReading_numeral?
  rcases hs : numeral? s with - | ⟨digits, after⟩ <;> rcases ht : numeral? t with - | ⟨digits', after'⟩ <;>
    rw [hs, ht] at hrel
  · exact .none
  · cases hrel
  · cases hrel
  · cases hrel with
    | some hpq => exact .some ⟨congrArg (c :: ·) hpq.1, hpq.2⟩

theorem head?_ne_of_blank {c : Char} (hc : isBlank c = false) (hs : ∀ d ∈ s.head?, isBlank d = true) :
    ∀ tail, s ≠ c :: tail := by
  rintro tail rfl
  rw [hs c rfl] at hc
  cases hc

theorem negatable?_eq_numeral? (h : ∀ tail, s ≠ '-' :: tail) : negatable? s = numeral? s := by
  rw [negatable?]
  exact h

theorem signed?_eq_numeral? (h : ∀ tail, s ≠ '-' :: tail) (h' : ∀ tail, s ≠ '+' :: tail) :
    signed? s = numeral? s := by
  rw [signed?]
  · exact h
  · exact h'

theorem keepsReading_negatable? : KeepsReading negatable? := by
  intro s t h
  cases h.front with
  | @char c s t hc hrest =>
    by_cases hminus : c = '-'
    · subst hminus
      exact numeral?_relates_after hc hrest
    · have hne : ∀ s tail, c :: s ≠ '-' :: tail := fun _ _ heq => hminus (List.cons.inj heq).1
      rw [negatable?_eq_numeral? (hne s), negatable?_eq_numeral? (hne t)]
      exact keepsReading_numeral? h
  | blank hs ht h =>
    rw [negatable?_eq_numeral? (head?_ne_of_blank (by decide) hs),
      negatable?_eq_numeral? (head?_ne_of_blank (by decide) ht)]
    exact keepsReading_numeral? h

theorem keepsReading_signed? : KeepsReading signed? := by
  intro s t h
  cases h.front with
  | @char c s t hc hrest =>
    by_cases hminus : c = '-'
    · subst hminus
      exact numeral?_relates_after hc hrest
    by_cases hplus : c = '+'
    · subst hplus
      exact numeral?_relates_after hc hrest
    have hne : ∀ s tail, c :: s ≠ '-' :: tail := fun _ _ heq => hminus (List.cons.inj heq).1
    have hne' : ∀ s tail, c :: s ≠ '+' :: tail := fun _ _ heq => hplus (List.cons.inj heq).1
    rw [signed?_eq_numeral? (hne s) (hne' s), signed?_eq_numeral? (hne t) (hne' t)]
    exact keepsReading_numeral? h
  | blank hs ht h =>
    rw [signed?_eq_numeral? (head?_ne_of_blank (by decide) hs) (head?_ne_of_blank (by decide) hs),
      signed?_eq_numeral? (head?_ne_of_blank (by decide) ht) (head?_ne_of_blank (by decide) ht)]
    exact keepsReading_numeral? h

/-- A reader of one character of a class without white space. -/
theorem keepsReading_of_char {p : Char → Bool} {read : List Char → Option (Char × List Char)}
    (hread : ∀ s c rest, read s = some (c, rest) ↔ s = c :: rest ∧ p c = true)
    (hp : ∀ c, isBlank c = true → p c = false) : KeepsReading read := by
  intro s t h
  have hnone : ∀ {s}, (∀ c rest, ¬ (s = c :: rest ∧ p c = true)) → read s = none := fun {s} hs => by
    rcases heq : read s with - | ⟨c, rest⟩
    · rfl
    · exact absurd ((hread s c rest).mp heq) (hs c rest)
  cases h.front with
  | @char c s t hc hrest =>
    cases hpc : p c with
    | true =>
      rw [(hread _ c s).mpr ⟨rfl, hpc⟩, (hread _ c t).mpr ⟨rfl, hpc⟩]
      exact .some ⟨rfl, .char hc hrest⟩
    | false =>
      have hno : ∀ s d rest, ¬ (c :: s = d :: rest ∧ p d = true) := by
        rintro s d rest ⟨⟨rfl, rfl⟩, hd⟩
        rw [hpc] at hd
        cases hd
      rw [hnone (hno s), hnone (hno t)]
      exact .none
  | blank hs ht _ =>
    have hno : ∀ {s : List Char}, (∀ d ∈ s.head?, isBlank d = true) →
        ∀ d rest, ¬ (s = d :: rest ∧ p d = true) := by
      rintro s hs d rest ⟨rfl, hd⟩
      rw [hp d (hs d rfl)] at hd
      cases hd
    rw [hnone (hno hs), hnone (hno ht)]
    exact .none

theorem keepsReading_separator? : KeepsReading separator? := by
  refine keepsReading_of_char (p := fun c => c == '~' || c == '-') (fun s c rest => ?_) fun c hc => ?_
  · rw [Bool.or_eq_true, beq_iff_eq, beq_iff_eq]
    refine ⟨fun h => (separator?_eq_some h).symm, ?_⟩
    rintro ⟨rfl, rfl | rfl⟩ <;> rfl
  · rw [Bool.or_eq_false_iff, beq_eq_false_iff_ne, beq_eq_false_iff_ne]
    exact ⟨ne_of_isBlank hc (by decide), ne_of_isBlank hc (by decide)⟩

theorem keepsReading_nameStart? : KeepsReading nameStart? :=
  keepsReading_of_char (fun _ _ _ => nameStart?_eq_some_iff) fun _ => not_isNameStart_of_isBlank

theorem percentSign_relates (h : BothPass s t rest rest') :
    (RangeToken.percentSign rest).1 = (RangeToken.percentSign rest').1 ∧
      BothPass s t (RangeToken.percentSign rest).2 (RangeToken.percentSign rest').2 := by
  have hother : ∀ {s : List Char}, (∀ tail, s ≠ '%' :: tail) → RangeToken.percentSign s = (false, s) :=
    fun hs => by
      rw [RangeToken.percentSign]
      exact hs
  cases h.same.front with
  | @char c rest rest' hc hrest =>
    by_cases hpercent : c = '%'
    · subst hpercent
      exact ⟨rfl, h.trans (.char hc hrest)⟩
    · have hne : ∀ s tail, c :: s ≠ '%' :: tail := fun _ _ heq => hpercent (List.cons.inj heq).1
      rw [hother (hne rest), hother (hne rest')]
      exact ⟨rfl, h⟩
  | blank hs ht _ =>
    rw [hother (head?_ne_of_blank (by decide) hs), hother (head?_ne_of_blank (by decide) ht)]
    exact ⟨rfl, h⟩

/-! ## Looking at what stands near -/

theorem any_head? {p : Char → Bool} (hp : ∀ c, isBlank c = true → p c = false) (h : SameWords s t) :
    s.head?.any p = t.head?.any p := by
  have hblank : ∀ {s : List Char}, (∀ d ∈ s.head?, isBlank d = true) → s.head?.any p = false :=
    fun {s} hs => by
      rcases s with - | ⟨d, s⟩
      · rfl
      · exact hp d (hs d rfl)
  cases h.front with
  | char hc hrest => rfl
  | blank hs ht _ => rw [hblank hs, hblank ht]

theorem takeWhile_eq_of_sameWords {p : Char → Bool} (hp : ∀ c, isBlank c = true → p c = false)
    (h : SameWords s t) : s.takeWhile p = t.takeWhile p := by
  induction s generalizing t with
  | nil =>
    cases h.front with
    | blank _ ht _ =>
      rcases t with - | ⟨d, t⟩
      · rfl
      · rw [List.takeWhile_cons_of_neg (by simp [hp d (ht d rfl)])]
        rfl
  | cons c s ih =>
    cases h.front with
    | char hc hrest => rw [List.takeWhile_cons, List.takeWhile_cons, ih hrest]
    | blank hs ht _ =>
      rw [List.takeWhile_cons_of_neg (by simp [hp c (hs c rfl)])]
      rcases t with - | ⟨d, t⟩
      · rfl
      · rw [List.takeWhile_cons_of_neg (by simp [hp d (ht d rfl)])]

theorem standsAlone_eq_of_sameWords (h : SameWords s t) : standsAlone s = standsAlone t := by
  have hclass : ∀ s, standsAlone s = !s.head?.any fun c => isWordChar c || c == '.' := fun s => by
    cases s <;> rfl
  have hp : ∀ c, isBlank c = true → (isWordChar c || c == '.') = false := fun c hc => by
    rw [not_isWordChar_of_isBlank hc, Bool.false_or, beq_eq_false_iff_ne]
    exact ne_of_isBlank hc (by decide)
  rw [hclass, hclass, any_head? hp h]

theorem endsOperand_eq_of_sameWords (h : SameWords s t) :
    RangeToken.endsOperand s = RangeToken.endsOperand t := by
  have hclass : ∀ s, RangeToken.endsOperand s = (skipBlanks s).head?.any fun c =>
      isAlphanumeric c || c == '_' || c == '.' || c == ')' || c == '%' := fun s => by
    rw [RangeToken.endsOperand]
    cases skipBlanks s <;> rfl
  have hp : ∀ c, isBlank c = true →
      (isAlphanumeric c || c == '_' || c == '.' || c == ')' || c == '%') = false := fun c hc => by
    have hword := not_isWordChar_of_isBlank hc
    rw [isWordChar, Bool.or_eq_false_iff] at hword
    simp only [hword.1, hword.2, Bool.false_or, Bool.or_eq_false_iff, beq_eq_false_iff_ne]
    exact ⟨⟨ne_of_isBlank hc (by decide), ne_of_isBlank hc (by decide)⟩, ne_of_isBlank hc (by decide)⟩
  rw [hclass, hclass, any_head? hp h.skip]

theorem endsWithoutPercent_eq_of_sameWords (h : SameWords s t) :
    endsWithoutPercent s = endsWithoutPercent t := by
  have hclass : ∀ s, endsWithoutPercent s =
      (!(s.head?.any fun c => isDigit c || c == '.') && !((skipBlanks s).head?.any (· == '%'))) := fun s => by
    cases s with
    | nil => rfl
    | cons c s =>
      rw [endsWithoutPercent]
      cases (skipBlanks (c :: s)).head? <;> rfl
  have hp : ∀ c, isBlank c = true → (isDigit c || c == '.') = false := fun c hc => by
    have := not_digit_of_isBlank hc
    simpa using this
  have hq : ∀ c, isBlank c = true → (c == '%') = false := fun c hc => by
    rw [beq_eq_false_iff_ne]
    exact ne_of_isBlank hc (by decide)
  rw [hclass, hclass, any_head? hp h, any_head? hq h.skip]

theorem startsWithExponent_of_sameWords (h : SameWords s t) (hs : startsWithExponent s = true) :
    startsWithExponent t = true := by
  have hletter : ∀ {c : Char}, c = 'e' ∨ c = 'E' → isBlank c = false := by
    rintro c (rfl | rfl) <;> decide
  have hsign : ∀ {c : Char}, c = '+' ∨ c = '-' → isBlank c = false := by
    rintro c (rfl | rfl) <;> decide
  have hdigit : ∀ {c : Char}, isDigit c = true → isBlank c = false := fun hd =>
    EndsFactor.not_blank (.inl hd)
  rcases s with - | ⟨e, s⟩
  · cases hs
  · obtain ⟨he, ⟨d, tail, rfl, hd⟩ | ⟨sign, d, tail, rfl, hs, hd⟩⟩ := startsWithExponent_iff.mp hs
    · obtain ⟨rest, rfl, -⟩ := h.exists_front (n := [e, d]) (by simp [hletter he, hdigit hd])
      exact startsWithExponent_iff.mpr ⟨he, .inl ⟨d, rest, rfl, hd⟩⟩
    · obtain ⟨rest, rfl, -⟩ := h.exists_front (n := [e, sign, d])
        (by simp [hletter he, hsign hs, hdigit hd])
      exact startsWithExponent_iff.mpr ⟨he, .inr ⟨sign, d, rest, rfl, hs, hd⟩⟩

theorem startsWithExponent_eq_of_sameWords (h : SameWords s t) :
    startsWithExponent s = startsWithExponent t :=
  Bool.eq_iff_iff.mpr ⟨startsWithExponent_of_sameWords h, startsWithExponent_of_sameWords h.symm⟩

end

/-! ## The rules -/

theorem keepsWords_percentSpan : percentSpan.KeepsWords id where
  skipsBlanks := skipsBlanks_percentSpan
  rel := fun {_ _ s₀ t₀} _ h => by
    simp only [percentSpan]
    refine relates_bind (keepsReading_negatable? h) ?_
    rintro ⟨low, s⟩ ⟨_, t⟩ ⟨rfl, h⟩
    refine relates_bind (expect?_relates_after (by decide) h) fun s t h => ?_
    refine relates_bind (expect?_relates_skipBlanks (by decide) h) fun s t h => ?_
    refine relates_bind (h.reads_skipBlanks keepsReading_negatable?) ?_
    rintro ⟨high, s⟩ ⟨_, t⟩ ⟨rfl, h⟩
    refine relates_bind (expect?_relates_after (by decide) h) fun s t h => ?_
    exact .some ⟨rfl, h⟩

theorem thousands_comma (before rest : List Char) :
    thousands before (',' :: rest) =
      if before.head?.any isDigit = true ∧ (rest.takeWhile isDigit).length = 3 then some ([], rest)
      else none := by
  cases before with
  | nil => rfl
  | cons d before => rfl

theorem thousands_of_ne {before s : List Char} (h : ∀ tail, s ≠ ',' :: tail) : thousands before s = none := by
  rw [thousands]
  rintro d tail rest rfl heq
  exact h rest heq

theorem keepsWords_thousands : thousands.KeepsWords id where
  skipsBlanks := skipsBlanks_thousands
  rel := fun {b b' s t} hb h => by
    have hdigit : ∀ c, isBlank c = true → isDigit c = false := fun c hc => by
      simpa using fun h => not_digit_of_isBlank hc (.inl h)
    cases h.front with
    | @char c s t hc hrest =>
      by_cases hcomma : c = ','
      · subst hcomma
        rw [thousands_comma, thousands_comma, any_head? hdigit hb, takeWhile_eq_of_sameWords hdigit hrest]
        split
        · exact .some ⟨rfl, .char hc hrest⟩
        · exact .none
      · have hne : ∀ s tail, c :: s ≠ ',' :: tail := fun _ _ heq => hcomma (List.cons.inj heq).1
        rw [thousands_of_ne (hne s), thousands_of_ne (hne t)]
        exact .none
    | blank hs ht _ =>
      rw [thousands_of_ne (head?_ne_of_blank (by decide) hs), thousands_of_ne (head?_ne_of_blank (by decide) ht)]
      exact .none

theorem keepsWords_sharedPercent : sharedPercent.KeepsWords id where
  skipsBlanks := skipsBlanks_sharedPercent
  rel := fun {_ _ s₀ t₀} _ h => by
    simp only [sharedPercent]
    refine relates_bind (expect?_relates (by decide) h) fun s t h => ?_
    refine relates_bind (h.reads_skipBlanks keepsReading_negatable?) ?_
    rintro ⟨low, s⟩ ⟨_, t⟩ ⟨rfl, h⟩
    refine relates_guard (by rw [endsWithoutPercent_eq_of_sameWords h.same]) fun _ => ?_
    refine relates_bind (h.reads_skipBlanks keepsReading_separator?) ?_
    rintro ⟨mark, s⟩ ⟨_, t⟩ ⟨rfl, h⟩
    refine relates_bind (h.reads_skipBlanks keepsReading_negatable?) ?_
    rintro ⟨high, s⟩ ⟨_, t⟩ ⟨rfl, h⟩
    refine relates_bind (expect?_relates_after (by decide) h) fun s t h => ?_
    refine relates_bind (expect?_relates_skipBlanks (by decide) h) fun s t h => ?_
    exact .some ⟨rfl, h⟩

theorem keepsWords_appliedPercent : appliedPercent.KeepsWords id where
  skipsBlanks := skipsBlanks_appliedPercent
  rel := fun {_ _ s₀ t₀} hb h => by
    simp only [appliedPercent]
    refine relates_guard (by rw [standsAlone_eq_of_sameWords hb]) fun _ => ?_
    refine relates_bind (keepsReading_negatable? h) ?_
    rintro ⟨base, s⟩ ⟨_, t⟩ ⟨rfl, h⟩
    refine relates_bind (expect?_relates_skipBlanks (by decide) h) fun s t h => ?_
    refine relates_bind (h.reads_skipBlanks keepsReading_negatable?) ?_
    rintro ⟨low, s⟩ ⟨_, t⟩ ⟨rfl, h⟩
    refine relates_bind (expect?_relates_after (by decide) h) fun s t h => ?_
    refine relates_bind (h.reads_skipBlanks keepsReading_separator?) ?_
    rintro ⟨mark, s⟩ ⟨_, t⟩ ⟨rfl, h⟩
    refine relates_bind (h.reads_skipBlanks keepsReading_negatable?) ?_
    rintro ⟨high, s⟩ ⟨_, t⟩ ⟨rfl, h⟩
    refine relates_bind (expect?_relates_after (by decide) h) fun s t h => ?_
    refine relates_bind (expect?_relates_skipBlanks (by decide) h) fun s t h => ?_
    exact .some ⟨rfl, h⟩

theorem keepsWords_timesSign : timesSign.KeepsWords id where
  skipsBlanks := skipsBlanks_timesSign
  rel := fun {b b' s t} hb h => by
    have hname : ∀ c, isBlank c = true → isNameStart c = false := fun _ => not_isNameStart_of_isBlank
    cases h.front with
    | @char c s t hc hrest =>
      rw [timesSign, timesSign, any_head? hname hb, any_head? hname hrest]
      split
      · exact .some ⟨rfl, .char hc hrest⟩
      · exact .none
    | blank hs ht _ =>
      have hnone : ∀ {b s : List Char}, (∀ d ∈ s.head?, isBlank d = true) → timesSign b s = none :=
        fun {b s} hs => by
          cases s with
          | nil => rfl
          | cons d s => exact skipsBlanks_timesSign b d s (hs d rfl)
      rw [hnone hs, hnone ht]
      exact .none

theorem keepsWords_percent : percent.KeepsWords id where
  skipsBlanks := skipsBlanks_percent
  rel := fun {_ _ s₀ t₀} hb h => by
    simp only [percent]
    refine relates_guard (by rw [standsAlone_eq_of_sameWords hb]) fun _ => ?_
    refine relates_bind (keepsReading_numeral? h) ?_
    rintro ⟨number, s⟩ ⟨_, t⟩ ⟨rfl, h⟩
    refine relates_bind (expect?_relates_after (by decide) h) fun s t h => ?_
    exact .some ⟨rfl, h⟩

theorem keepsWords_numberParenthesis : numberParenthesis.KeepsWords id where
  skipsBlanks := skipsBlanks_numberParenthesis
  rel := fun {_ _ s₀ t₀} hb h => by
    simp only [numberParenthesis]
    refine relates_guard (by rw [standsAlone_eq_of_sameWords hb]) fun _ => ?_
    refine relates_bind (keepsReading_numeral? h) ?_
    rintro ⟨number, s⟩ ⟨_, t⟩ ⟨rfl, h⟩
    refine relates_bind (expect?_relates_skipBlanks (by decide) h) fun s t h => ?_
    exact .some ⟨rfl, h⟩

theorem keepsWords_parenthesisParenthesis : parenthesisParenthesis.KeepsWords id where
  skipsBlanks := skipsBlanks_parenthesisParenthesis
  rel := fun {_ _ s₀ t₀} _ h => by
    simp only [parenthesisParenthesis]
    refine relates_bind (expect?_relates (by decide) h) fun s t h => ?_
    refine relates_bind (expect?_relates_skipBlanks (by decide) h) fun s t h => ?_
    exact .some ⟨rfl, h⟩

theorem keepsWords_numberName : numberName.KeepsWords id where
  skipsBlanks := skipsBlanks_numberName
  rel := fun {_ _ s₀ t₀} hb h => by
    simp only [numberName]
    refine relates_guard (by rw [standsAlone_eq_of_sameWords hb]) fun _ => ?_
    refine relates_bind (keepsReading_numeral? h) ?_
    rintro ⟨number, s⟩ ⟨_, t⟩ ⟨rfl, h⟩
    refine relates_guard (by rw [startsWithExponent_eq_of_sameWords h.same.skip]) fun _ => ?_
    refine relates_bind (h.reads_skipBlanks keepsReading_nameStart?) ?_
    rintro ⟨letter, s⟩ ⟨_, t⟩ ⟨rfl, h⟩
    exact .some ⟨rfl, h⟩

theorem keepsWords_parenthesisName : parenthesisName.KeepsWords id where
  skipsBlanks := skipsBlanks_parenthesisName
  rel := fun {_ _ s₀ t₀} _ h => by
    simp only [parenthesisName]
    refine relates_bind (expect?_relates (by decide) h) fun s t h => ?_
    refine relates_bind (h.reads_skipBlanks keepsReading_nameStart?) ?_
    rintro ⟨letter, s⟩ ⟨_, t⟩ ⟨rfl, h⟩
    exact .some ⟨rfl, h⟩

/-! ## Placeholders and ranges -/

theorem placeholder?_eq_some_iff {stem cs n rest : List Char} :
    placeholder? stem cs = some (n, rest) ↔
      ∃ number, IsDigits number ∧ n = stem ++ number ++ ['_', '_'] ∧ cs = n ++ rest := by
  have hmark : isDigit '_' = false := by decide +kernel
  constructor
  · intro h
    rw [placeholder?] at h
    split at h
    next hpre =>
      obtain ⟨cs, rfl⟩ := List.isPrefixOf_iff_prefix.mp hpre
      rw [List.drop_left, List.span_eq_takeWhile_dropWhile] at h
      have hcs : cs.takeWhile isDigit ++ cs.dropWhile isDigit = cs := List.takeWhile_append_dropWhile
      split at h
      next => cases h
      next number after hne heq =>
        obtain ⟨rfl, hrest⟩ := Prod.mk.inj heq
        obtain ⟨rfl, rfl⟩ := Prod.mk.inj (Option.some.inj h)
        refine ⟨_, isDigits_takeWhile hne, rfl, ?_⟩
        rw [hrest] at hcs
        simpa using congrArg (stem ++ ·) hcs.symm
      next => cases h
    next => cases h
  · rintro ⟨number, hnumber, rfl, rfl⟩
    have htext : stem ++ number ++ ['_', '_'] ++ rest = stem ++ (number ++ '_' :: '_' :: rest) := by simp
    rw [htext, placeholder?, if_pos (List.isPrefixOf_iff_prefix.mpr (List.prefix_append ..)), List.drop_left,
      List.span_eq_takeWhile_dropWhile, takeWhile_append_stop hnumber.2 hmark,
      dropWhile_append_stop hnumber.2 hmark]
    obtain ⟨d, digits, rfl⟩ := List.exists_cons_of_ne_nil hnumber.1
    rfl

section

variable {stem : List Char} (hstem : ∀ c ∈ stem, isBlank c = false)
include hstem

theorem placeholder?_eq_some {cs n rest : List Char} (h : placeholder? stem cs = some (n, rest)) :
    n ≠ [] ∧ (∀ c ∈ n, isBlank c = false) ∧ cs = n ++ rest := by
  obtain ⟨number, hnumber, rfl, hcs⟩ := placeholder?_eq_some_iff.mp h
  refine ⟨by simp, ?_, hcs⟩
  simp only [List.forall_mem_append]
  refine ⟨⟨hstem, fun c hc => EndsFactor.not_blank (.inl (hnumber.2 c hc))⟩, ?_⟩
  simpa using (by decide : isBlank '_' = false)

theorem keepsReading_placeholder? : KeepsReading (placeholder? stem) :=
  keepsReading_of_transfer (placeholder?_eq_some hstem) fun _ hs => by
    obtain ⟨number, hnumber, hn, -⟩ := placeholder?_eq_some_iff.mp hs
    exact placeholder?_eq_some_iff.mpr ⟨number, hnumber, hn, rfl⟩

theorem keepsWords_placeholderProduct : (placeholderProduct stem).KeepsWords id where
  skipsBlanks := fun before c rest hc => by
    have hnone : placeholder? stem (c :: rest) = none := by
      rcases h : placeholder? stem (c :: rest) with - | ⟨n, after⟩
      · rfl
      · obtain ⟨hne, hchars, heq⟩ := placeholder?_eq_some hstem h
        obtain ⟨d, tail, rfl⟩ := List.exists_cons_of_ne_nil hne
        have hd := hchars d List.mem_cons_self
        rw [← (List.cons.inj heq).1, hc] at hd
        cases hd
    rw [placeholderProduct, hnone]
    cases standsAlone before <;> rfl
  rel := fun {_ _ s₀ t₀} hb h => by
    have hnext : ∀ c, isBlank c = true → (c == '(' || isNameStart c) = false := fun c hc => by
      rw [not_isNameStart_of_isBlank hc, Bool.or_false, beq_eq_false_iff_ne]
      exact ne_of_isBlank hc (by decide)
    simp only [placeholderProduct]
    refine relates_guard (by rw [standsAlone_eq_of_sameWords hb]) fun _ => ?_
    refine relates_bind (keepsReading_placeholder? hstem h) ?_
    rintro ⟨name, s⟩ ⟨_, t⟩ ⟨rfl, h⟩
    refine relates_guard (by rw [any_head? hnext h.same.skip]) fun hs => ?_
    exact .some ⟨rfl, h.skip fun hnil => by simp [hnil] at hs⟩

end

end RangeCalc.Shorthand

namespace RangeCalc

open Text Shorthand

/-- A range without its text as a whole, in which white space stands. -/
def FoundRange.written (r : FoundRange) : FoundRange :=
  { r with token := { r.token with text := [] } }

theorem RangeToken.keepsWords_find : find.KeepsWords FoundRange.written where
  skipsBlanks := skipsBlanks_find
  rel := fun {_ _ s₀ t₀} hb h => by
    simp only [find]
    refine relates_guard (by rw [standsAlone_eq_of_sameWords hb]) fun _ => ?_
    refine relates_bind (keepsReading_signed? h) ?_
    rintro ⟨minText, s⟩ ⟨_, t⟩ ⟨rfl, hmin⟩
    obtain ⟨hpercent, hmark⟩ := percentSign_relates hmin
    refine relates_bind (expect?_relates_skipBlanks (by decide) hmark) fun s' t' htilde => ?_
    refine relates_bind (htilde.reads_skipBlanks keepsReading_signed?) ?_
    rintro ⟨maxText, s'⟩ ⟨_, t'⟩ ⟨rfl, hmax⟩
    obtain ⟨hpercent', hend⟩ := percentSign_relates hmax
    cases minText with
    | nil => exact .none
    | cons sign unsigned =>
      dsimp only
      rw [endsOperand_eq_of_sameWords hb]
      split
      · refine .some ⟨?_, hend⟩
        simp only [FoundRange.written, hpercent, hpercent']
      · refine .some ⟨?_, hend⟩
        simp only [FoundRange.written, hpercent, hpercent']

end RangeCalc
