import RangeCalc.Proofs.Formula.Variables
import RangeCalc.Proofs.Range.MarkedTokens
import RangeCalc.Proofs.Range.Numbered

/-!
# The two formulas of a text

A text is evaluated at points through its extraction and drawn from through its sampling form. Where no range runs
into what follows it, both are one formula: where the one has the variable of a range, the other draws from it.

* `intervalCalls`: the calls that stand for the names of ranges;
* `SplitsMarked.flatMap_reword`, `SplitsMarked.isChain_uncalled`, `SplitsMarked.filter_writtenNames`: the tokens of a
  text with marks, with names and with calls;
* `exists_settled`: the extraction and the sampling form are one text with marks;
* `NormalForm.compile_iff_extraction`: their formulas.
-/

namespace RangeCalc

open Text Shorthand

/-! ## Calls for names -/

/-- The calls that stand for the names of ranges. -/
def intervalCalls (ranges : List (RangeVar Float)) : Wording := fun text =>
  (ranges.find? fun r => r.name == String.ofList text).map fun r =>
    ((intervalPhrase r.interval).tokens, (intervalPhrase r.interval).tree)

section

variable {ranges : List (RangeVar Float)} {text : List Char}

theorem readable_intervalCalls (ranges : List (RangeVar Float)) : (intervalCalls ranges).Readable := by
  intro text ts tree h
  obtain ⟨r, -, hr⟩ := Option.map_eq_some_iff.mp h
  obtain ⟨rfl, rfl⟩ := Prod.mk.inj hr
  exact isOperand_intervalPhrase r.interval

theorem isSome_intervalCalls :
    (intervalCalls ranges text).isSome = true ↔ String.ofList text ∈ ranges.map (·.name) := by
  simp [intervalCalls, List.find?_isSome]

/-- What the calls are read as draws from the ranges. -/
theorem denote_intervalCalls (hvars : NamesVariables (· ∈ ranges.map (·.name)))
    (hbounds : ∀ r ∈ ranges, IsBoundValue r.interval.min ∧ IsBoundValue r.interval.max) :
    Tree.Denote (intervalCalls ranges).tree? (drawFor boundFormula ranges) where
  resolve text tree h := by
    simp only [Wording.tree?, intervalCalls, Option.map_map, Option.map_eq_some_iff] at h
    obtain ⟨r, hr, rfl⟩ := h
    obtain ⟨hmin, hmax⟩ := hbounds r (List.mem_of_find?_eq_some hr)
    exact ⟨_, resolve_intervalPhrase hmin hmax, by rw [drawFor, hr]; rfl⟩
  isVar text h := by
    rw [Wording.tree?, Option.isSome_map, isSome_intervalCalls] at h
    exact (hvars _ (by simpa using h)).1
  none text h := by
    simpa [Wording.tree?, intervalCalls, drawFor] using h

end

/-! ## The names of placeholders -/

/-- The variable of a range with its number. -/
def rangeVar (n : Nat) (r : NumberedRange) : RangeVar Float :=
  ⟨String.ofList (placeholderName (stemWith n) r.1), r.2.interval⟩

section

variable {n : Nat} {marks : List NumberedRange} {name : String} {text : List Char}

theorem mem_names_iff :
    name ∈ (marks.map (rangeVar n)).map (·.name) ↔
      ∃ r ∈ marks, name = String.ofList (placeholderName (stemWith n) r.1) := by
  simp [rangeVar, eq_comm]

/-- No constant and no function starts with an underscore. -/
theorem ofName?_underscore (tail : List Char) :
    Constant.ofName? (String.ofList ('_' :: tail)) = none ∧
      Function.ofName? (String.ofList ('_' :: tail)) = none := by
  have hlower : (String.ofList ('_' :: tail)).toLower.toList = '_' :: lowerAscii tail := by
    rw [toList_toLower]
    rfl
  constructor
  · rw [Constant.ofName?]
    split
    all_goals first | rfl | rename_i h; rw [h] at hlower; simp at hlower
  · have hnames : ∀ f ∈ Function.all, f.name.toList.head? ≠ some '_' := by decide +kernel
    refine Option.eq_none_iff_forall_not_mem.mpr fun f hf => ?_
    obtain ⟨hmem, hname⟩ := Function.ofName?_eq_some_iff.mp hf
    exact hnames f hmem (by rw [hname, hlower]; rfl)

theorem namesVariables_placeholders : NamesVariables (· ∈ (marks.map (rangeVar n)).map (·.name)) := by
  intro name h
  obtain ⟨r, -, rfl⟩ := mem_names_iff.mp (by simpa using h)
  obtain ⟨tail, htail⟩ := exists_stemWith_eq n
  rw [placeholderName, htail]
  exact ofName?_underscore _

/-- The call for a placeholder is that of its range. -/
theorem reword_placeholder (hn : ((marks.map (rangeVar n)).map (·.name)).Nodup) {r : NumberedRange}
    (hr : r ∈ marks) :
    (intervalCalls (marks.map (rangeVar n))).reword (.name (placeholderName (stemWith n) r.1)) =
      Spelling.call.tokens n r := by
  have hfind := find?_name hn (List.mem_map_of_mem hr)
  simp only [rangeVar] at hfind
  rw [Wording.reword, intervalCalls, hfind]
  rfl

theorem stem_prefix_of_mem (h : String.ofList text ∈ (marks.map (rangeVar n)).map (·.name)) :
    stemWith n <+: text := by
  obtain ⟨r, -, heq⟩ := mem_names_iff.mp h
  rw [String.ofList_injective heq, placeholderName, List.append_assoc]
  exact List.prefix_append _ _

end

/-! ## Tokens with names and with calls -/

/-- Names without other words are not among those that have some. -/
theorem filter_writtenNames_of_keeps {w : Wording} {P : String → Bool}
    (hP : ∀ text, P (String.ofList text) = (w text).isSome) {ts : List Token} (hts : ∀ t ∈ ts, w.Keeps t) :
    (writtenNames ts).filter P = [] := by
  refine List.filter_eq_nil_iff.mpr fun name hname => ?_
  obtain ⟨t, ht, heq⟩ := List.mem_filterMap.mp hname
  cases t with
  | name text =>
    obtain rfl : String.ofList text = name := Option.some.inj heq
    rw [hP, hts _ ht text rfl]
    exact Bool.false_ne_true
  | _ => cases heq

/-- A token of a text stands in the text. -/
theorem Splits.infix_of_mem {cs : List Char} {ts : List Token} (h : Splits cs ts) {t : Token} (ht : t ∈ ts) :
    t.chars <:+: cs := by
  induction h with
  | nil => cases ht
  | blank _ _ ih => exact (ih ht).trans (List.suffix_cons _ _).isInfix
  | token _ hfront _ ih =>
    rw [hfront.split]
    rcases List.mem_cons.mp ht with rfl | ht
    · exact (List.prefix_append _ _).isInfix
    · exact (ih ht).trans (List.suffix_append _ _).isInfix

section

variable {n : Nat} {m : List (Segment NumberedRange)} {ms : List (Token ⊕ NumberedRange)} {cs : List Char}
  {ts : List Token} {w : Wording} (hstem : ∀ text, (w text).isSome = true → stemWith n <+: text)

include hstem

/-- Tokens between the marks are no placeholders. -/
theorem keeps_stretch (h : Splits cs ts) (hfresh : ¬ stemWith n <:+: cs) : ∀ t ∈ ts, w.Keeps t := by
  rintro _ ht text rfl
  exact Option.not_isSome_iff_eq_none.mp fun hsome =>
    hfresh ((hstem text hsome).isInfix.trans (h.infix_of_mem ht))

namespace SplitsMarked

/-- The words for the placeholders are the calls. -/
theorem flatMap_reword (h : SplitsMarked m ms) (hm : Settled n m)
    (hwords : ∀ r ∈ m.filterMap Segment.found?,
      w.reword (.name (placeholderName (stemWith n) r.1)) = Spelling.call.tokens n r) :
    (tokensWith n .name ms).flatMap w.reword = tokensWith n .call ms := by
  induction h with
  | chars hcs =>
    have hkeeps := keeps_stretch hstem hcs (hm.fresh_stretch List.prefix_rfl)
    rw [tokensWith_chars, tokensWith_chars, Wording.flatMap_reword_of_keeps hkeeps]
  | @mark cs ts r m ms hcs _ ih =>
    rw [filterMap_found?_chars, List.filterMap_cons] at hwords
    obtain ⟨hr, hwords⟩ := List.forall_mem_cons.mp hwords
    have hkeeps := keeps_stretch hstem hcs (hm.fresh_stretch (List.prefix_append _ _))
    rw [tokensWith_mark, tokensWith_mark, List.flatMap_append, List.flatMap_append, ih hm.behind hwords,
      Wording.flatMap_reword_of_keeps hkeeps, Spelling.tokens, List.flatMap_singleton, hr]

/-- Placeholders are not called, since product signs stand before parentheses. -/
theorem isChain_uncalled (h : SplitsMarked m ms) (hm : Settled n m) :
    (tokensWith n .name ms).IsChain w.Uncalled := by
  induction h with
  | @chars cs ts hcs =>
    have hkeeps := keeps_stretch hstem hcs (hm.fresh_stretch List.prefix_rfl)
    have hchain := Wording.isChain_append_of_keeps hkeeps List.isChain_nil
    rwa [List.append_nil, ← tokensWith_chars (n := n) (k := .name) ts] at hchain
  | @mark cs ts r m ms hcs hms ih =>
    have hkeeps := keeps_stretch hstem hcs (hm.fresh_stretch (List.prefix_append _ _))
    rw [tokensWith_mark]
    refine Wording.isChain_append_of_keeps hkeeps ((ih hm.behind).cons ?_)
    rintro t ht _ - - rfl
    -- Behind the placeholder a factor would start.
    have hsplits := (splits_written_iff .name hm.behind).mpr ⟨ms, hms, rfl⟩
    obtain ⟨blanks, post, hblanks, heq⟩ := (splits_leftParen_iff hsplits).mp ht
    refine hm.none_follows _ _ _ rfl ((continuesFactor_written_iff .call .name m).mpr ⟨'(', ?_, .inl rfl⟩)
    rw [heq, skipBlanks_append_of_blank fun b hb => isBlank_of_isTokenBlank (hblanks b hb)]
    rfl

/-- The placeholders among the names are those of the marks, in their order. -/
theorem filter_writtenNames (h : SplitsMarked m ms) (hm : Settled n m) {P : String → Bool}
    (hP : ∀ text, P (String.ofList text) = (w text).isSome)
    (hwords : ∀ r ∈ m.filterMap Segment.found?, (w (placeholderName (stemWith n) r.1)).isSome = true) :
    (writtenNames (tokensWith n .name ms)).filter P =
      (m.filterMap Segment.found?).map fun r => (rangeVar n r).name := by
  induction h with
  | @chars cs ts hcs =>
    have hmarks := filterMap_found?_chars cs ([] : List (Segment NumberedRange))
    rw [List.append_nil] at hmarks
    have hkeeps := keeps_stretch hstem hcs (hm.fresh_stretch List.prefix_rfl)
    rw [tokensWith_chars, hmarks, filter_writtenNames_of_keeps hP hkeeps]
    rfl
  | @mark cs ts r m ms hcs _ ih =>
    rw [filterMap_found?_chars, List.filterMap_cons] at hwords ⊢
    obtain ⟨hr, hwords⟩ := List.forall_mem_cons.mp hwords
    have hkeeps := keeps_stretch hstem hcs (hm.fresh_stretch (List.prefix_append _ _))
    have hmark : P (String.ofList (placeholderName (stemWith n) r.1)) = true := by
      rw [hP]
      exact hr
    rw [tokensWith_mark, writtenNames_append, List.filter_append, filter_writtenNames_of_keeps hP hkeeps,
      Spelling.tokens, List.singleton_append, writtenNames_name, List.filter_cons_of_pos hmark,
      ih hm.behind hwords]
    rfl

end SplitsMarked

end

/-! ## The extraction and the sampling form -/

/-- The marks of a text are its ranges with their numbers. -/
theorem ranges_numbered (n : Nat) (segs : List (Segment FoundRange)) :
    ((numbered 0 segs).filterMap Segment.found?).map (rangeVar n) =
      ((segs.filterMap Segment.found?).map (·.token)).mapIdx fun index token =>
        ⟨String.ofList (placeholderName (stemWith n) index), token.interval⟩ := by
  rw [marks_numbered]
  generalize segs.filterMap Segment.found? = found
  exact List.ext_getElem (by simp) fun i _ _ => by simp [rangeVar]

section

variable (raw : String)

/-- Where ranges stand apart, the extraction and the sampling form have the tokens of one text with marks. -/
theorem exists_settled (h : RangesApart (expand raw.toList)) :
    ∃ n m, Settled n m ∧ (Extraction.ofText raw).ranges = (m.filterMap Segment.found?).map (rangeVar n) ∧
      (∀ ts, Splits (Extraction.ofText raw).expression.toList ts ↔ Splits (written (Spelling.name.word n) m) ts) ∧
      ∀ ts, Splits (NormalForm.ofText raw).expression.toList ts ↔ Splits (written (Spelling.call.word n) m) ts := by
  obtain ⟨n, hn, hshorter⟩ := exists_placeholderStem_eq (expand raw.toList)
  have hfree : ¬ stemWith n <:+: expand raw.toList := fun hoccurs => lt_irrefl n ((hshorter n).mp hoccurs)
  obtain ⟨m, hm, hmarks, hname, hcall⟩ := exists_finished h.isChain_numbered (not_stem_infix_numbered hfree)
  have hextraction : (Extraction.ofText raw).expression.toList = squeeze (written (Spelling.name.word n) m) := by
    rw [← hname, Extraction.ofText, String.toList_ofList, substituteRanges, substituteSegments_eq_written, hn]
    rfl
  have hnormal : (NormalForm.ofText raw).expression.toList = squeeze (written (Spelling.call.word n) m) := by
    rw [← hcall, NormalForm.ofText, String.toList_ofList, substituteRanges, substituteSegments_eq_written]
    rfl
  refine ⟨n, m.map Segment.spaced, hm.map_spaced, ?_, fun ts => ?_, fun ts => ?_⟩
  · rw [marks_map_spaced, hmarks, ranges_numbered, Extraction.ranges_ofText, hn]
    rfl
  · rw [hextraction, splits_squeeze_iff, written_map_spaced]
  · rw [hnormal, splits_squeeze_iff, written_map_spaced]

/-- The tokens of the sampling form are those of the extraction with calls for placeholders. -/
theorem splits_normalForm (h : RangesApart (expand raw.toList)) :
    (∀ us, Splits (NormalForm.ofText raw).expression.toList us ↔
      ∃ ts, Splits (Extraction.ofText raw).expression.toList ts ∧
        ts.flatMap (intervalCalls (Extraction.ofText raw).ranges).reword = us) ∧
    ∀ ts, Splits (Extraction.ofText raw).expression.toList ts →
      ts.IsChain (intervalCalls (Extraction.ofText raw).ranges).Uncalled ∧
        (writtenNames ts).filter (· ∈ (Extraction.ofText raw).ranges.map (·.name)) =
          (Extraction.ofText raw).ranges.map (·.name) := by
  obtain ⟨n, m, hm, hranges, hextraction, hnormal⟩ := exists_settled raw h
  have hnodup := Extraction.nodup_names raw
  rw [hranges] at hnodup ⊢
  have hstem : ∀ text, (intervalCalls ((m.filterMap Segment.found?).map (rangeVar n)) text).isSome = true →
      stemWith n <+: text := fun text hsome => stem_prefix_of_mem (isSome_intervalCalls.mp hsome)
  have hwords : ∀ r ∈ m.filterMap Segment.found?,
      (intervalCalls ((m.filterMap Segment.found?).map (rangeVar n))).reword
        (.name (placeholderName (stemWith n) r.1)) = Spelling.call.tokens n r := fun r hr =>
    reword_placeholder hnodup hr
  refine ⟨fun us => ?_, fun ts hts => ?_⟩
  · simp only [hnormal, hextraction, splits_written_iff _ hm]
    constructor
    · rintro ⟨ms, hms, rfl⟩
      exact ⟨_, ⟨ms, hms, rfl⟩, hms.flatMap_reword hstem hm hwords⟩
    · rintro ⟨_, ⟨ms, hms, rfl⟩, rfl⟩
      exact ⟨ms, hms, (hms.flatMap_reword hstem hm hwords).symm⟩
  · obtain ⟨ms, hms, rfl⟩ := (splits_written_iff .name hm).mp ((hextraction ts).mp hts)
    refine ⟨hms.isChain_uncalled hstem hm, ?_⟩
    rw [hms.filter_writtenNames hstem hm, List.map_map]
    · rfl
    · intro text
      rw [Bool.eq_iff_iff, isSome_intervalCalls, decide_eq_true_iff]
    · exact fun r hr => isSome_intervalCalls.mpr (mem_names_iff.mpr ⟨r, hr, rfl⟩)

end

/-! ## Formulas -/

/-- Where no range of a text runs into what follows it, the sampling form has a formula exactly if the extraction has
one, and it is that one with a draw from each range in place of its variable. The formula of the extraction has the
variable of each range once, in the order of the ranges. -/
theorem NormalForm.compile_iff_extraction {raw : String} (h : RangesApart (expand raw.toList)) :
    (∀ g, compile (ofText raw).expression = .ok g ↔
      ∃ f, compile (Extraction.ofText raw).expression = .ok f ∧
        f.substitute (drawFor boundFormula (Extraction.ofText raw).ranges) = g) ∧
    ∀ f, compile (Extraction.ofText raw).expression = .ok f →
      f.vars.filter (· ∈ (Extraction.ofText raw).ranges.map (·.name)) =
        (Extraction.ofText raw).ranges.map (·.name) := by
  obtain ⟨hsplits, htokens⟩ := splits_normalForm raw h
  have hbounds : ∀ r ∈ (Extraction.ofText raw).ranges,
      IsBoundValue r.interval.min ∧ IsBoundValue r.interval.max := by
    intro r hr
    obtain ⟨token, -, heq⟩ : ∃ token ∈ rangeTokens (expand raw.toList), token.interval = r.interval := by
      have hmem := List.mem_map_of_mem (f := RangeVar.interval) hr
      rw [Extraction.intervals_ofText] at hmem
      exact List.mem_map.mp hmem
    exact heq ▸ isBoundValue_interval token
  have hvars : NamesVariables (· ∈ (Extraction.ofText raw).ranges.map (·.name)) := by
    obtain ⟨n, m, -, hranges, -⟩ := exists_settled raw h
    rw [hranges]
    exact namesVariables_placeholders
  refine ⟨fun g => ?_, fun f hf => ?_⟩
  · exact Wording.compile_reword (readable_intervalCalls _) (denote_intervalCalls hvars hbounds) hsplits
      fun ts hts => (htokens ts hts).1
  · obtain ⟨s, hs, hcalls, rfl⟩ := compile_eq_ok_iff.mp hf
    rw [s.filter_vars hvars hcalls, (htokens _ hs).2]

/-- Two ranges, one between parentheses and one before a name. -/
theorem NormalForm.twoProducts_compile :
    let raw := "2 (-1~2) + 3~4% sin(y)"
    RangesApart (expand raw.toList) ∧
      (Extraction.ofText raw).expression = "2*(__range0__) + __range1__*sin(y)" ∧
      (ofText raw).expression = "2*(sample(uniform(-1, 2))) + sample(uniform(0.04, 3))*sin(y)" ∧
      ∃ f, compile (Extraction.ofText raw).expression = .ok f ∧
        compile (ofText raw).expression = .ok (f.substitute (drawFor boundFormula (Extraction.ofText raw).ranges)) ∧
        f.vars.filter (· ∈ ["__range0__", "__range1__"]) = ["__range0__", "__range1__"] := by
  intro raw
  have happart : RangesApart (expand raw.toList) := by decide +kernel
  have hnames : (Extraction.ofText raw).ranges.map (·.name) = ["__range0__", "__range1__"] := by decide +kernel
  have hrun : (compile (Extraction.ofText raw).expression).toOption.isSome = true := by decide +kernel
  obtain ⟨hsampling, hvars⟩ := compile_iff_extraction happart
  rw [hnames] at hvars
  cases hf : compile (Extraction.ofText raw).expression with
  | error e =>
    rw [hf] at hrun
    cases hrun
  | ok f =>
    exact ⟨happart, by decide +kernel, by decide +kernel, f, rfl, (hsampling _).mpr ⟨f, hf, rfl⟩, hvars f hf⟩

/-- A percentage directly behind a range with a percent sign is written out behind the call only. -/
theorem NormalForm.percentBehindRange_differs :
    (NormalForm.ofText "1~2%5%").expression = "sample(uniform(0.02, 1))*(5/100)" ∧
      (Extraction.ofText "1~2%5%").expression = "__range0__5%" ∧
      ¬ ((∃ f, compile (Extraction.ofText "1~2%5%").expression = .ok f) ↔
        ∃ g, compile (NormalForm.ofText "1~2%5%").expression = .ok g) := by
  have hrefused : (compile (Extraction.ofText "1~2%5%").expression).toOption.isSome = false := by decide +kernel
  have hrun : (compile (ofText "1~2%5%").expression).toOption.isSome = true := by decide +kernel
  refine ⟨by decide +kernel, by decide +kernel, fun hiff => ?_⟩
  cases hg : compile (ofText "1~2%5%").expression with
  | error e =>
    rw [hg] at hrun
    cases hrun
  | ok g =>
    obtain ⟨f, hf⟩ := hiff.mpr ⟨g, hg⟩
    rw [hf] at hrefused
    cases hrefused

end RangeCalc
