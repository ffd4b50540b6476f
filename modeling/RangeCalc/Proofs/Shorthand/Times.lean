import RangeCalc.Proofs.Shorthand.Percent

/-!
# The letter for a product

A letter `x` beside no letter and no underscore is a product sign.

* `timesSign_free`: no such letter is left where they have been replaced;
* `free_timesSign_rewritten`: what a replacement must be like to bring about none;
* `timesSign_inherited`: tidying brings about none;
* `expand_of_free`: a text without any shorthand is left as it is.
-/

namespace RangeCalc.Shorthand

open Text

/-- No name starts with the character that is given, if any. -/
def NoName (o : Option Char) : Prop :=
  ∀ b ∈ o, isNameStart b = false

theorem timesSign_eq_some_iff {before text out after : List Char} :
    timesSign before text = some (out, after) ↔
      ∃ c, (c = 'x' ∨ c = 'X') ∧ NoName before.head? ∧ NoName after.head? ∧ text = c :: after ∧ out = ['*'] := by
  have hnoName : ∀ o : Option Char, (!o.any isNameStart) = true ↔ NoName o := by
    intro o
    cases o <;> simp [NoName]
  cases text with
  | nil => simp [timesSign]
  | cons c rest =>
    rw [timesSign]
    split
    next h =>
      constructor
      · intro heq
        obtain ⟨rfl, rfl⟩ := Prod.mk.inj (Option.some.inj heq)
        exact ⟨c, h.1, (hnoName _).mp (by simp [h.2.1]), (hnoName _).mp (by simp [h.2.2]), rfl, rfl⟩
      · rintro ⟨d, -, -, -, heq, rfl⟩
        rw [(List.cons.inj heq).2]
    next h =>
      refine ⟨nofun, ?_⟩
      rintro ⟨d, hd, hbefore, hafter, heq, -⟩
      obtain ⟨rfl, rfl⟩ := List.cons.inj heq
      exact absurd ⟨hd, (hnoName _).mpr hbefore, (hnoName _).mpr hafter⟩ h

theorem found_timesSign_iff {before text : List Char} :
    Found timesSign before text ↔
      ∃ c rest, (c = 'x' ∨ c = 'X') ∧ NoName before.head? ∧ NoName rest.head? ∧ text = c :: rest := by
  rw [Found, Option.isSome_iff_exists]
  constructor
  · rintro ⟨⟨out, after⟩, h⟩
    obtain ⟨c, hc, hbefore, hafter, htext, -⟩ := timesSign_eq_some_iff.mp h
    exact ⟨c, after, hc, hbefore, hafter, htext⟩
  · rintro ⟨c, rest, hc, hbefore, hrest, rfl⟩
    exact ⟨(['*'], rest), timesSign_eq_some_iff.mpr ⟨c, hc, hbefore, hrest, rfl, rfl⟩⟩

theorem isNameStart_x {c : Char} (h : c = 'x' ∨ c = 'X') : isNameStart c = true := by
  rcases h with rfl | rfl <;> decide

theorem timesSign_covers : timesSign.Covers := by
  intro before text out after h
  obtain ⟨c, -, -, -, rfl, -⟩ := timesSign_eq_some_iff.mp h
  exact ⟨[c], List.cons_ne_nil _ _, rfl⟩

/-- No such letter is left where they have been replaced: two of them are never side by side. -/
theorem timesSign_free (text : List Char) : Free (Found timesSign) (replaceEach timesSign text) := by
  obtain ⟨ps, hps⟩ := Scans.exists_scan timesSign_covers [] text
  rw [hps.replaceEach_eq]
  rintro pre post heq hfound
  obtain ⟨c, rest, hc, hbefore, hrest, rfl⟩ := found_timesSign_iff.mp hfound
  have hname := isNameStart_x hc
  rcases exists_piece heq with ⟨front, back, rfl, rfl, rfl⟩ | ⟨front, out, covered, back, u, v, rfl, hout, -, -⟩
  · have hleft : NoName (textOf front).reverse.head? := by
      rcases List.eq_nil_or_concat front with rfl | ⟨front, b | ⟨out, covered⟩, rfl⟩
      · exact nofun
      · simpa using hbefore
      · rw [List.concat_eq_append, List.append_assoc, List.singleton_append] at hps
        obtain ⟨-, -, -, hafter, -⟩ := timesSign_eq_some_iff.mp hps.at_found.2
        rw [hafter c rfl] at hname
        cases hname
    have hright : NoName (textOf back).head? := by
      rcases back with - | ⟨b | ⟨out, covered⟩, back⟩
      · exact nofun
      · exact hrest
      · rw [show front ++ .char c :: .found out covered :: back = (front ++ [.char c]) ++ .found out covered :: back
          by simp] at hps
        obtain ⟨-, -, hbefore, -⟩ := timesSign_eq_some_iff.mp hps.at_found.2
        rw [hbefore c (by simp)] at hname
        cases hname
    have hhere : Found timesSign (textOf front).reverse (c :: textOf back) :=
      found_timesSign_iff.mpr ⟨c, _, hc, hleft, hright, rfl⟩
    have hnone := hps.at_char
    rw [List.append_nil] at hnone
    rw [Found, hnone] at hhere
    cases hhere
  · obtain ⟨before, after, hsome⟩ := hps.exists_at (List.mem_append_right front List.mem_cons_self)
    obtain ⟨-, -, -, -, -, rfl⟩ := timesSign_eq_some_iff.mp hsome
    obtain rfl : c = '*' := by
      have : c ∈ ['*'] := by simp [show ['*'] = u ++ c :: v from hout]
      simpa using this
    cases hname

/-- Replacements without such a letter, of what neither starts nor ends with a letter, bring about none. -/
theorem free_timesSign_rewritten {α : Type} {out : α → List Char} {ps : List (Piece α)}
    (h : Free (Found timesSign) (textOf ps))
    (hout : ∀ a covered, .found a covered ∈ ps → 'x' ∉ out a ∧ 'X' ∉ out a)
    (hcovered : ∀ a covered, .found a covered ∈ ps →
      covered ≠ [] ∧ NoName covered.head? ∧ NoName covered.getLast?) :
    Free (Found timesSign) (rewritten out ps) := by
  rintro pre post heq hfound
  obtain ⟨c, rest, hc, hbefore, hrest, rfl⟩ := found_timesSign_iff.mp hfound
  rcases exists_piece heq with ⟨front, back, rfl, rfl, rfl⟩ | ⟨front, a, covered, back, u, v, rfl, hsplit, -, -⟩
  · refine h (textOf front) (c :: textOf back) (by simp) (found_timesSign_iff.mpr ⟨c, _, hc, ?_, ?_, rfl⟩)
    · rcases List.eq_nil_or_concat front with rfl | ⟨front, b | ⟨a, covered⟩, rfl⟩
      · exact nofun
      · simpa using hbefore
      · obtain ⟨hne, -, hlast⟩ := hcovered a covered (by simp)
        simpa [List.head?_append, List.getLast?_eq_some_getLast hne] using hlast
    · rcases back with - | ⟨b | ⟨a, covered⟩, back⟩
      · exact nofun
      · exact hrest
      · obtain ⟨hne, hhead, -⟩ := hcovered a covered (by simp)
        obtain ⟨d, covered, rfl⟩ := List.exists_cons_of_ne_nil hne
        exact hhead
  · obtain ⟨hsmall, hcapital⟩ := hout a covered (by simp)
    rcases hc with rfl | rfl
    · exact hsmall (by simp [hsplit])
    · exact hcapital (by simp [hsplit])

/-- Tidying brings about no such letter. -/
theorem timesSign_inherited : Inherited (Found timesSign) where
  starts before text h := by
    obtain ⟨c, rest, hc, -, -, rfl⟩ := found_timesSign_iff.mp h
    exact ⟨c, rest, rfl, by rcases hc with rfl | rfl <;> decide, by rcases hc with rfl | rfl <;> decide⟩
  back before before' c rest rest' hbeside htidies h := by
    obtain ⟨d, _, hd, hbefore, hafter, heq⟩ := found_timesSign_iff.mp h
    obtain ⟨rfl, rfl⟩ := List.cons.inj heq
    have hnot : ¬ EndsFactor c := fun hend => by simpa [isNameStart_x hd] using hend.not_isNameStart
    obtain ⟨_, heq', hrest⟩ := htidies.drop_char' (StartsFactor.not_blank (.inr (isNameStart_x hd))) hnot
    obtain ⟨-, rfl⟩ := List.cons.inj heq'
    refine found_timesSign_iff.mpr ⟨c, rest, hd, hbeside.not_isNameStart hbefore, fun b hb => ?_, rfl⟩
    -- A letter that follows in the text follows in the tidied text.
    refine Bool.of_not_eq_true fun hname => ?_
    obtain ⟨tail, rfl⟩ := List.head?_eq_some_iff.mp hb
    rw [hafter b (hrest.head' (StartsFactor.not_blank (.inr hname)))] at hname
    cases hname

/-! ## All shorthand -/

variable {text : List Char}

theorem free_thousands_timesSign (h : Free (Found thousands) text) :
    Free (Found thousands) (replaceEach timesSign text) := by
  refine free_thousands_replaceEach timesSign_covers (fun before covered out after hsome => ?_) h
  obtain ⟨c, hc, -, -, htext, rfl⟩ := timesSign_eq_some_iff.mp hsome
  obtain rfl : covered = [c] := List.append_cancel_right htext
  exact ⟨⟨[], c, [], '*', [], rfl, rfl, not_isDigit_of_isNameStart (isNameStart_x hc), by decide⟩,
    noSeparator_of_not_mem (show ['*'] = [] ++ ['*'] from rfl) (by decide) (by decide)⟩

/-- No separator is left where shorthand has been written out. -/
theorem free_thousands_expand (text : List Char) : Free (Found thousands) (expand text) :=
  free_thousands_timesSign <| percentRule_span.free_thousands <| percentRule_applied.free_thousands <|
    percentRule_shared.free_thousands (thousands_free text)

/-- No letter for a product is left where shorthand has been written out. -/
theorem free_timesSign_expand (text : List Char) : Free (Found timesSign) (expand text) :=
  timesSign_free _

/-- A text without any shorthand is left as it is. -/
theorem expand_of_free (hthousands : Free (Found thousands) text) (hpercent : Free (Found percent) text)
    (htimes : Free (Found timesSign) text) : expand text = text := by
  simp only [expand, replaceEach_of_free hthousands, replaceEach_of_free htimes,
    replaceEach_of_free (percentRule_shared.free_of_percent hpercent),
    replaceEach_of_free (percentRule_applied.free_of_percent hpercent),
    replaceEach_of_free (percentRule_span.free_of_percent hpercent)]

end RangeCalc.Shorthand
