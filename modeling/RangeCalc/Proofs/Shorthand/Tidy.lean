import RangeCalc.Proofs.Range.Literal
import RangeCalc.Proofs.Text.Rewrite
import RangeCalc.Proofs.Text.Squeeze

/-!
# Texts with product signs written and white space squeezed

Writing missing product signs and squeezing white space leave all else of a text as it is.

* `EndsFactor`, `StartsFactor`: the characters between which a product sign may be missing;
* `Tidies`: how a tidied text comes from a text;
* `Tidies.exists_place`: the place in the text of a character of the tidied text;
* `Inherited`, `Tidied.keepsFree`: what no place of the text has, no place of the tidied text has;
* `tidied_squeeze`: squeezed text is tidied text.
-/

namespace RangeCalc.Shorthand

open Text

/-- The last character of a factor that needs no product sign after it. -/
def EndsFactor (c : Char) : Prop :=
  isDigit c = true ∨ c = ')'

/-- The first character of a factor that needs no product sign before it. -/
def StartsFactor (c : Char) : Prop :=
  c = '(' ∨ isNameStart c = true

theorem EndsFactor.not_blank {c : Char} (h : EndsFactor c) : isBlank c = false := by
  refine Bool.of_not_eq_true fun hblank => ?_
  rcases h with h | rfl
  · exact not_digit_of_isBlank hblank (.inl h)
  · cases hblank

theorem EndsFactor.not_isNameStart {c : Char} (h : EndsFactor c) : isNameStart c = false := by
  refine Bool.of_not_eq_true fun hname => ?_
  rcases h with h | rfl
  · rw [not_isDigit_of_isNameStart hname] at h
    cases h
  · cases hname

theorem StartsFactor.not_blank {c : Char} (h : StartsFactor c) : isBlank c = false := by
  refine Bool.of_not_eq_true fun hblank => ?_
  rcases h with rfl | h
  · cases hblank
  · rw [not_isNameStart_of_isBlank hblank] at h
    cases h

theorem StartsFactor.not_isDigit {c : Char} (h : StartsFactor c) : isDigit c = false := by
  rcases h with rfl | h
  · decide
  · exact not_isDigit_of_isNameStart h

theorem StartsFactor.not_endsFactor {c : Char} (h : StartsFactor c) : ¬ EndsFactor c := by
  rintro (hdigit | rfl)
  · rw [h.not_isDigit] at hdigit
    cases hdigit
  · rcases h with h | h <;> exact absurd h (by decide)

/-- The second text is the first with a space for each of some stretches of white space, without white
space at the end, and with product signs between factors that only white space parts. -/
inductive Tidies : (text tidied : List Char) → Prop where
  | tail {bs : List Char} (hbs : ∀ c ∈ bs, isBlank c = true) : Tidies bs []
  | char {c : Char} {T T' : List Char} (h : Tidies T T') : Tidies (c :: T) (c :: T')
  | space (bs : List Char) {T T' : List Char} (hne : bs ≠ []) (hbs : ∀ c ∈ bs, isBlank c = true) (h : Tidies T T') :
      Tidies (bs ++ T) (' ' :: T')
  | star {l r : Char} {bs T T' : List Char} (hl : EndsFactor l) (hbs : ∀ c ∈ bs, isBlank c = true)
      (hr : StartsFactor r) (h : Tidies (r :: T) (r :: T')) :
      Tidies (l :: (bs ++ r :: T)) (l :: '*' :: r :: T')

namespace Tidies

variable {T T' : List Char} {c : Char}

theorem chars (cs : List Char) (h : Tidies T T') : Tidies (cs ++ T) (cs ++ T') := by
  induction cs with
  | nil => exact h
  | cons c cs ih => exact .char ih

/-! ## From the tidied text to the text -/

/-- The text starts as the tidied text does. -/
theorem head (h : Tidies T (c :: T')) (hc : isBlank c = false) : ∃ rest, T = c :: rest := by
  cases h with
  | char h => exact ⟨_, rfl⟩
  | space _ _ _ _ => cases hc
  | star _ _ _ _ => exact ⟨_, rfl⟩

/-- A character is taken from both texts. -/
theorem drop_char (h : Tidies T (c :: T')) (hc : isBlank c = false) (hstar : T'.head? ≠ some '*') :
    ∃ rest, T = c :: rest ∧ Tidies rest T' := by
  cases h with
  | char h => exact ⟨_, rfl, h⟩
  | space _ _ _ _ => cases hc
  | star _ _ _ _ => exact absurd rfl hstar

/-- A word is taken from both texts. -/
theorem drop_word {w : List Char} (h : Tidies T (w ++ T')) (hw : ∀ c ∈ w, isBlank c = false ∧ c ≠ '*')
    (hstar : T'.head? ≠ some '*') : ∃ rest, T = w ++ rest ∧ Tidies rest T' := by
  induction w generalizing T with
  | nil => exact ⟨T, rfl, h⟩
  | cons c w ih =>
    obtain ⟨⟨hc, -⟩, hw⟩ := List.forall_mem_cons.mp hw
    have hnext : (w ++ T').head? ≠ some '*' := by
      cases w with
      | nil => exact hstar
      | cons d w => simpa using (hw d List.mem_cons_self).2
    obtain ⟨_, rfl, htail⟩ := h.drop_char hc hnext
    obtain ⟨rest, rfl, hrest⟩ := ih htail hw
    exact ⟨rest, rfl, hrest⟩

/-- White space is taken from both texts. -/
theorem drop_blanks {bs' : List Char} (h : Tidies T (bs' ++ T')) (hbs' : ∀ c ∈ bs', isBlank c = true) :
    ∃ bs rest, (∀ c ∈ bs, isBlank c = true) ∧ T = bs ++ rest ∧ Tidies rest T' := by
  induction bs' generalizing T with
  | nil => exact ⟨[], T, nofun, rfl, h⟩
  | cons b bs' ih =>
    obtain ⟨hb, hrun⟩ := List.forall_mem_cons.mp hbs'
    rw [List.cons_append] at h
    generalize htext : bs' ++ T' = rest' at h
    cases h with
    | char h =>
      obtain ⟨bs, rest, hbs, rfl, hrest⟩ := ih (htext ▸ h) hrun
      exact ⟨b :: bs, rest, List.forall_mem_cons.mpr ⟨hb, hbs⟩, rfl, hrest⟩
    | space blanks _ hblanks h =>
      obtain ⟨bs, rest, hbs, rfl, hrest⟩ := ih (htext ▸ h) hrun
      exact ⟨blanks ++ bs, rest, List.forall_mem_append.mpr ⟨hblanks, hbs⟩, by rw [List.append_assoc],
        hrest⟩
    | star hl _ _ _ =>
      rw [hl.not_blank] at hb
      cases hb

/-! ## From the text to the tidied text -/

/-- A character that no product sign can follow is taken from both texts. -/
theorem drop_char' (h : Tidies (c :: T) T') (hc : isBlank c = false) (hend : ¬ EndsFactor c) :
    ∃ rest, T' = c :: rest ∧ Tidies T rest := by
  generalize htext : c :: T = text at h
  cases h with
  | tail hbs =>
    subst htext
    rw [hbs c List.mem_cons_self] at hc
    cases hc
  | char h =>
    obtain ⟨rfl, rfl⟩ := List.cons.inj htext
    exact ⟨_, rfl, h⟩
  | space bs hne hbs _ =>
    obtain ⟨b, bs, rfl⟩ := List.exists_cons_of_ne_nil hne
    obtain ⟨rfl, -⟩ := List.cons.inj htext
    rw [hbs c List.mem_cons_self] at hc
    cases hc
  | star hl _ _ _ =>
    obtain ⟨rfl, -⟩ := List.cons.inj htext
    exact absurd hl hend

/-- The tidied text starts as the text does. -/
theorem head' (h : Tidies (c :: T) T') (hc : isBlank c = false) : T'.head? = some c := by
  generalize htext : c :: T = text at h
  cases h with
  | tail hbs =>
    subst htext
    rw [hbs c List.mem_cons_self] at hc
    cases hc
  | char h => rw [(List.cons.inj htext).1, List.head?_cons]
  | space bs hne hbs _ =>
    obtain ⟨b, bs, rfl⟩ := List.exists_cons_of_ne_nil hne
    obtain ⟨rfl, -⟩ := List.cons.inj htext
    rw [hbs c List.mem_cons_self] at hc
    cases hc
  | star hl _ _ _ => rw [(List.cons.inj htext).1, List.head?_cons]

/-- The texts have the same digits in front. -/
theorem takeWhile_isDigit (h : Tidies T T') : T.takeWhile isDigit = T'.takeWhile isDigit := by
  have hblank : ∀ {b : Char} (rest : List Char), isBlank b = true → (b :: rest).takeWhile isDigit = [] :=
    fun rest hb => List.takeWhile_cons_of_neg fun hdigit => not_digit_of_isBlank hb (.inl hdigit)
  induction h with
  | @tail bs hbs =>
    cases bs with
    | nil => rfl
    | cons b bs => exact hblank bs (hbs b List.mem_cons_self)
  | @char c T T' _ ih => rw [List.takeWhile_cons, List.takeWhile_cons, ih]
  | space bs hne hbs _ ih =>
    obtain ⟨b, bs, rfl⟩ := List.exists_cons_of_ne_nil hne
    exact (hblank _ (hbs b List.mem_cons_self)).trans (hblank _ isBlank_space).symm
  | @star l r bs T T' _ hbs hr _ ih =>
    have hrest : (bs ++ r :: T).takeWhile isDigit = [] := by
      cases bs with
      | nil => exact List.takeWhile_cons_of_neg (by simp [hr.not_isDigit])
      | cons b bs => exact hblank _ (hbs b List.mem_cons_self)
    have hrest' : ('*' :: r :: T').takeWhile isDigit = [] := List.takeWhile_cons_of_neg (by decide)
    rw [List.takeWhile_cons, List.takeWhile_cons, hrest, hrest']

end Tidies

/-! ## Places -/

/-- What may be the last characters before a place in a text and before its place in the tidied text,
where `c` is the character at that place. -/
inductive Beside (c : Char) : (last last' : Option Char) → Prop where
  | same {o : Option Char} : Beside c o o
  | blank {o o' : Option Char} (h : ∀ b ∈ o, isBlank b = true) (h' : ∀ b ∈ o', isBlank b = true) :
      Beside c o o'
  | star {o : Option Char} (hc : StartsFactor c) (h : ∀ b ∈ o, isNameStart b = false) :
      Beside c o (some '*')

namespace Beside

variable {c : Char} {before before' : List Char}

theorem standsAlone (h : Beside c before.head? before'.head?) (hc : isDigit c = true)
    (halone : standsAlone before' = true) : standsAlone before = true := by
  have hblank : ∀ cs : List Char, (∀ b ∈ cs.head?, isBlank b = true) → Shorthand.standsAlone cs = true := by
    intro cs hcs
    cases cs with
    | nil => rfl
    | cons b cs =>
      have hb := hcs b rfl
      have hpoint : b ≠ '.' := fun hp => not_digit_of_isBlank hb (.inr hp)
      simp [Shorthand.standsAlone, not_isWordChar_of_isBlank hb, hpoint]
  generalize hlast : before.head? = last at h
  generalize hlast' : before'.head? = last' at h
  cases h with
  | same =>
    rw [← hlast'] at hlast
    cases before with
    | nil => rfl
    | cons b before =>
      obtain ⟨rest, rfl⟩ := List.head?_eq_some_iff.mp hlast.symm
      exact halone
  | blank hb _ => exact hblank before (hlast ▸ hb)
  | star hstart _ =>
    rw [hstart.not_isDigit] at hc
    cases hc

theorem not_isNameStart (h : Beside c before.head? before'.head?)
    (hname : ∀ b ∈ before'.head?, isNameStart b = false) : ∀ b ∈ before.head?, isNameStart b = false := by
  generalize before.head? = last at h
  generalize before'.head? = last' at h hname
  cases h with
  | same => exact hname
  | blank hb _ => exact fun b hmem => not_isNameStart_of_isBlank (hb b hmem)
  | star _ hb => exact hb

theorem isDigit (h : Beside c before.head? before'.head?) (hc : ¬ StartsFactor c)
    (hdigit : ∃ d ∈ before'.head?, isDigit d = true) : ∃ d ∈ before.head?, isDigit d = true := by
  generalize before.head? = last at h
  generalize before'.head? = last' at h hdigit
  cases h with
  | same => exact hdigit
  | blank _ hb' =>
    obtain ⟨d, hd, hdigit⟩ := hdigit
    exact absurd (.inl hdigit) (not_digit_of_isBlank (hb' d hd))
  | star hstart _ => exact absurd hstart hc

end Beside

/-- Before a place stands nothing in both texts, or the last characters there are beside it. -/
inductive AlikeBefore (c : Char) : (pre pre' : List Char) → Prop where
  | nil : AlikeBefore c [] []
  | last (init init' : List Char) {a a' : Char} (h : Beside c (some a) (some a')) :
      AlikeBefore c (init ++ [a]) (init' ++ [a'])

theorem AlikeBefore.append {c : Char} {x x' pre pre' : List Char} (h : AlikeBefore c pre pre')
    (hx : AlikeBefore c x x') : AlikeBefore c (x ++ pre) (x' ++ pre') := by
  cases h with
  | nil => simpa using hx
  | last _ _ h =>
    rw [← List.append_assoc, ← List.append_assoc]
    exact .last _ _ h

/-- Where white space is dropped in front. -/
theorem AlikeBefore.beside {c : Char} {lead pre pre' : List Char} (h : AlikeBefore c pre pre')
    (hlead : ∀ c ∈ lead, isBlank c = true) :
    Beside c (lead ++ pre).reverse.head? pre'.reverse.head? := by
  cases h with
  | nil =>
    refine .blank (fun b hb => hlead b ?_) nofun
    rw [List.append_nil, List.head?_reverse] at hb
    exact List.mem_of_getLast? hb
  | last _ _ h => simpa using h

/-- A character of the tidied text has its place in the text. -/
theorem Tidies.exists_place {T pre' post' : List Char} {c : Char} (h : Tidies T (pre' ++ c :: post'))
    (hc : isBlank c = false) (hstar : c ≠ '*') :
    ∃ pre post, T = pre ++ c :: post ∧ Tidies (c :: post) (c :: post') ∧ AlikeBefore c pre pre' := by
  generalize htext : pre' ++ c :: post' = text at h
  induction h generalizing pre' with
  | tail _ => simp at htext
  | @char d T T' h ih =>
    rcases pre' with - | ⟨e, pre'⟩
    · obtain ⟨rfl, rfl⟩ := List.cons.inj htext
      exact ⟨[], T, rfl, .char h, .nil⟩
    · obtain ⟨rfl, hrest⟩ := List.cons.inj htext
      obtain ⟨pre, post, rfl, hpost, halike⟩ := ih hrest
      exact ⟨e :: pre, post, rfl, hpost, halike.append (.last [] [] .same)⟩
  | space bs hne hbs h ih =>
    rcases pre' with - | ⟨e, pre'⟩
    · obtain ⟨rfl, rfl⟩ := List.cons.inj htext
      cases hc
    · obtain ⟨rfl, hrest⟩ := List.cons.inj htext
      obtain ⟨pre, post, rfl, hpost, halike⟩ := ih hrest
      rcases List.eq_nil_or_concat bs with rfl | ⟨init, b, rfl⟩
      · exact absurd rfl hne
      · have hb : isBlank b = true := hbs b (by simp)
        refine ⟨init.concat b ++ pre, post, by rw [List.append_assoc], hpost, ?_⟩
        rw [List.concat_eq_append]
        exact halike.append (.last init [] (.blank (by simpa using hb) (by simp [isBlank_space])))
  | @star l r bs T T' hl hbs hr h ih =>
    rcases pre' with - | ⟨e, - | ⟨e', pre'⟩⟩
    · obtain ⟨rfl, rfl⟩ := List.cons.inj htext
      exact ⟨[], _, rfl, .star hl hbs hr h, .nil⟩
    · obtain ⟨rfl, rfl⟩ := List.cons.inj (List.cons.inj htext).2
      exact absurd rfl hstar
    · obtain ⟨rfl, htail⟩ := List.cons.inj htext
      obtain ⟨rfl, hrest⟩ := List.cons.inj htail
      obtain ⟨pre, post, hplace, hpost, halike⟩ := ih hrest
      refine ⟨e :: bs ++ pre, post, by rw [hplace]; simp, hpost, ?_⟩
      cases halike with
      | nil =>
        obtain ⟨rfl, -⟩ := List.cons.inj hrest
        have hlast : ∀ init b, e :: bs = init ++ [b] → isNameStart b = false := by
          intro init b heq
          have hmem : b ∈ e :: bs := by simp [heq]
          rcases List.mem_cons.mp hmem with rfl | hmem
          · exact hl.not_isNameStart
          · exact not_isNameStart_of_isBlank (hbs b hmem)
        obtain ⟨init, b, heq⟩ : ∃ init b, e :: bs = init ++ [b] :=
          ⟨_, _, (List.dropLast_append_getLast (List.cons_ne_nil e bs)).symm⟩
        rw [List.append_nil, heq]
        exact .last init [e] (.star hr (by simpa using hlast init b heq))
      | last init init' hbeside =>
        have := AlikeBefore.last (e :: bs ++ init) ([e, '*'] ++ init') hbeside
        simpa using this

/-- The second text is the first tidied, after its leading white space. -/
def Tidied (T T' : List Char) : Prop :=
  ∃ lead rest, (∀ c ∈ lead, isBlank c = true) ∧ T = lead ++ rest ∧ Tidies rest T'

theorem Tidies.tidied {T T' : List Char} (h : Tidies T T') : Tidied T T' :=
  ⟨[], T, nofun, rfl, h⟩

/-- A place of the tidied text has the property only if the place in the text has it. -/
structure Inherited (P : List Char → List Char → Prop) : Prop where
  starts : ∀ before text, P before text → ∃ c rest, text = c :: rest ∧ isBlank c = false ∧ c ≠ '*'
  back : ∀ before before' c rest rest', Beside c before.head? before'.head? →
    Tidies (c :: rest) (c :: rest') → P before' (c :: rest') → P before (c :: rest)

/-- What no place of the first text has, no place of the second has, for all that tidying cannot bring
about. -/
def KeepsFree (T T' : List Char) : Prop :=
  ∀ P, Inherited P → Free P T → Free P T'

theorem KeepsFree.trans {T T' T'' : List Char} (h : KeepsFree T T') (h' : KeepsFree T' T'') :
    KeepsFree T T'' :=
  fun P hP hfree => h' P hP (h P hP hfree)

theorem Tidied.keepsFree {T T' : List Char} (h : Tidied T T') : KeepsFree T T' := by
  rintro P hP hfree pre' post' rfl hp
  obtain ⟨c, post', rfl, hc, hstar⟩ := hP.starts _ _ hp
  obtain ⟨lead, rest, hlead, rfl, hrest⟩ := h
  obtain ⟨pre, post, rfl, hpost, halike⟩ := hrest.exists_place hc hstar
  exact hfree (lead ++ pre) (c :: post) (by rw [List.append_assoc])
    (hP.back _ _ _ _ _ (halike.beside hlead) hpost hp)

theorem Tidies.keepsFree {T T' : List Char} (h : Tidies T T') : KeepsFree T T' :=
  h.tidied.keepsFree

/-! ## Squeezed text -/

theorem tidies_squeezeRuns (text : List Char) : Tidies text (squeezeRuns text) := by
  induction text with
  | nil => exact .tail nofun
  | cons b rest ih =>
    rcases hb : isBlank b with _ | _
    · rw [squeezeRuns_char hb]
      exact .char ih
    · obtain ⟨tail, htail, heq⟩ | ⟨-, heq⟩ := squeezeRuns_blank hb rest
      · rw [htail] at ih
        rw [heq]
        cases ih with
        | char h =>
          exact .space [b, ' '] (by simp) (by simp [hb, isBlank_space]) h
        | space bs _ hbs h =>
          exact .space (b :: bs) (by simp) (List.forall_mem_cons.mpr ⟨hb, hbs⟩) h
        | star hl _ _ _ => cases hl.not_blank
      · rw [heq]
        exact .space [b] (by simp) (by simpa using hb) ih

/-- A text that is white space when tidied is white space. -/
theorem Tidies.blank {T T' : List Char} (h : Tidies T T') (hT' : ∀ c ∈ T', isBlank c = true) :
    ∀ c ∈ T, isBlank c = true := by
  induction h with
  | tail hbs => exact hbs
  | char h ih =>
    obtain ⟨hc, hrest⟩ := List.forall_mem_cons.mp hT'
    exact List.forall_mem_cons.mpr ⟨hc, ih hrest⟩
  | space _ _ hbs h ih => exact List.forall_mem_append.mpr ⟨hbs, ih (List.forall_mem_cons.mp hT').2⟩
  | @star l _ _ _ _ hl _ _ _ _ =>
    have := hT' l List.mem_cons_self
    rw [hl.not_blank] at this
    cases this

/-- White space at the end may be dropped. -/
theorem Tidies.drop_tail {T T' tail : List Char} (h : Tidies T (T' ++ tail))
    (htail : ∀ c ∈ tail, isBlank c = true) : Tidies T T' := by
  generalize htext : T' ++ tail = text at h
  induction h generalizing T' with
  | tail hbs =>
    obtain rfl := (List.append_eq_nil_iff.mp htext).1
    exact .tail hbs
  | @char c T U h ih =>
    rcases T' with - | ⟨d, T'⟩
    · exact .tail ((Tidies.char h).blank (htext ▸ htail))
    · obtain ⟨rfl, hrest⟩ := List.cons.inj htext
      exact .char (ih hrest)
  | space bs hne hbs h ih =>
    rcases T' with - | ⟨d, T'⟩
    · exact .tail ((Tidies.space bs hne hbs h).blank (htext ▸ htail))
    · obtain ⟨rfl, hrest⟩ := List.cons.inj htext
      exact .space bs hne hbs (ih hrest)
  | @star l r bs T U hl hbs hr h ih =>
    -- What is dropped is white space, so it ends behind `r`.
    have hnot : ∀ c rest, tail = c :: rest → isBlank c = true := fun c rest heq => htail c (by simp [heq])
    rcases T' with - | ⟨d, - | ⟨e, - | ⟨f, T'⟩⟩⟩
    · have := hnot l _ htext
      rw [hl.not_blank] at this
      cases this
    · cases hnot '*' _ (List.cons.inj htext).2
    · have := hnot r _ (List.cons.inj (List.cons.inj htext).2).2
      rw [hr.not_blank] at this
      cases this
    · obtain ⟨rfl, hrest⟩ := List.cons.inj htext
      obtain ⟨rfl, hrest'⟩ := List.cons.inj hrest
      obtain ⟨rfl, -⟩ := List.cons.inj hrest'
      exact .star hl hbs hr (ih hrest')

theorem tidied_squeeze (text : List Char) : Tidied text (squeeze text) := by
  obtain ⟨lead, tail, hlead, htail, hsplit⟩ := trim_split (squeezeRuns text)
  have h := tidies_squeezeRuns text
  rw [hsplit] at h
  obtain ⟨blanks, rest, hblanks, htext, hrest⟩ := h.drop_blanks hlead
  exact ⟨blanks, rest, hblanks, htext, hrest.drop_tail htail⟩

end RangeCalc.Shorthand
