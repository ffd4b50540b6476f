import RangeCalc.Proofs.Shorthand.Spacing
import RangeCalc.Range.Extraction

/-!
# White space does not matter for ranges

Texts that are squeezed to the same have the same sampling form and the same extraction, apart from how the
ranges are quoted in faults. Each step keeps such texts squeezed to the same.

* `squeeze_expand`, `squeeze_substituteRanges`, `finish_eq_of_squeeze`: the steps;
* `placeholderStem_eq_of_squeeze`: the stem that is looked for in such texts;
* `ofText_squeeze`: a text with its white space squeezed beforehand.
-/

namespace RangeCalc

open Text Shorthand

/-! ## The steps -/

section

variable {s t : List Char} (h : squeeze s = squeeze t)
include h

theorem squeeze_expand : squeeze (expand s) = squeeze (expand t) := by
  have h := squeeze_replaceEach keepsWords_thousands h
  have h := squeeze_replaceEach keepsWords_sharedPercent h
  have h := squeeze_replaceEach keepsWords_appliedPercent h
  have h := squeeze_replaceEach keepsWords_percentSpan h
  exact squeeze_replaceEach keepsWords_timesSign h

theorem squeeze_insertProducts {stem : Option (List Char)} (hstem : ∀ cs ∈ stem, ∀ c ∈ cs, isBlank c = false) :
    squeeze (insertProducts s stem) = squeeze (insertProducts t stem) := by
  have hrest : ∀ {s t : List Char}, squeeze s = squeeze t →
      squeeze (insertProducts s none) = squeeze (insertProducts t none) := fun {s t} h => by
    have h := squeeze_replaceEach keepsWords_numberParenthesis h
    have h := squeeze_replaceEach keepsWords_parenthesisParenthesis h
    have h := squeeze_replaceEach keepsWords_numberName h
    exact squeeze_replaceEach keepsWords_parenthesisName h
  cases stem with
  | none => exact hrest h
  | some stem => exact hrest (squeeze_replaceEach (keepsWords_placeholderProduct (hstem stem rfl)) h)

theorem finish_eq_of_squeeze {stem : Option (List Char)} (hstem : ∀ cs ∈ stem, ∀ c ∈ cs, isBlank c = false) :
    finish s stem = finish t stem :=
  squeeze_insertProducts (squeeze_replaceEach keepsWords_percent h) hstem

end

/-! ## Ranges -/

section

variable {replace : Nat → RangeToken → List Char}
  (hreplace : ∀ index token, replace index { token with text := [] } = replace index token)
include hreplace

theorem SameSegments.substituteSegments {l l' : List (Segment FoundRange)}
    (h : SameSegments FoundRange.written l l') (index : Nat) :
    SameWords (substituteSegments replace index l) (substituteSegments replace index l') := by
  induction h generalizing index with
  | ends hu hv =>
    have hend := fun u => substituteSegments_map_char replace index u []
    simp only [List.append_nil, RangeCalc.substituteSegments] at hend
    rw [hend, hend]
    exact sameWords_of_blank hu hv
  | blanks hu hv hne hne' _ ih =>
    rw [substituteSegments_map_char, substituteSegments_map_char]
    exact (ih index).blanks hu hv hne hne'
  | char c _ ih => exact (ih index).cons c
  | @found r r' _ _ hr _ ih =>
    have hoperator : r.written.operator = r'.written.operator := congrArg FoundRange.operator hr
    change r.operator = r'.operator at hoperator
    have htoken : replace index r.token = replace index r'.token := by
      rw [← hreplace index r.token, ← hreplace index r'.token]
      exact congrArg (replace index ·.token) hr
    rw [RangeCalc.substituteSegments, RangeCalc.substituteSegments, hoperator, htoken]
    exact (ih (index + 1)).append _

/-- Ranges are replaced by what does not depend on white space in them. -/
theorem squeeze_substituteRanges {s t : List Char} (h : squeeze s = squeeze t) :
    squeeze (substituteRanges replace s) = squeeze (substituteRanges replace t) := by
  obtain ⟨u, v, l, l', hu, hv, hs, ht, hsame⟩ := segments_of_squeeze RangeToken.keepsWords_find h
  rw [substituteRanges, substituteRanges, hs, ht, substituteSegments_map_char, substituteSegments_map_char,
    squeeze_append hu, squeeze_append hv]
  exact (SameSegments.substituteSegments hreplace hsame 0).squeeze

end

theorem map_rangeTokens {β : Type} {view : RangeToken → β}
    (hview : ∀ token, view { token with text := [] } = view token) {s t : List Char}
    (h : squeeze s = squeeze t) : (rangeTokens s).map view = (rangeTokens t).map view := by
  have hwritten : ∀ text, (rangeTokens text).map view =
      ((occurrences RangeToken.find text).map FoundRange.written).map (view ·.token) := fun text => by
    rw [rangeTokens, List.map_map, List.map_map]
    exact List.map_congr_left fun r _ => (hview r.token).symm
  rw [hwritten, hwritten, map_occurrences RangeToken.keepsWords_find h]

/-! ## Placeholders -/

theorem not_blank_of_mem_stemWith {n : Nat} : ∀ c ∈ stemWith n, isBlank c = false := by
  have hstem : "__range".toList.all (!isBlank ·) = true := by decide +kernel
  refine List.forall_mem_append.mpr ⟨fun c hc => ?_, by simpa using hstem⟩
  rw [List.eq_of_mem_replicate hc]
  decide

theorem stemWith_ne_nil (n : Nat) : stemWith n ≠ [] :=
  List.append_ne_nil_of_right_ne_nil _ (by decide)

/-- The stem is the shortest that does not occur. -/
theorem placeholderStem_eq (text : List Char) :
    ∃ n, placeholderStem text = stemWith n ∧ ¬ stemWith n <:+: text ∧ ∀ m < n, stemWith m <:+: text := by
  rw [placeholderStem]
  cases hfind : (List.range text.length).find? fun n => !occursIn (stemWith n) text with
  | some n =>
    obtain ⟨hn, -, hleast⟩ := List.find?_range_eq_some.mp hfind
    refine ⟨n, rfl, ?_, fun m hm => ?_⟩
    · simpa [← occursIn_iff] using hn
    · simpa [← occursIn_iff] using hleast m hm
  | none =>
    refine ⟨text.length, rfl, fun h => ?_, fun m hm => ?_⟩
    · have := h.length_le
      simp [stemWith] at this
    · simpa [← occursIn_iff] using List.find?_range_eq_none.mp hfind m hm

theorem placeholderStem_eq_of_squeeze {s t : List Char} (h : squeeze s = squeeze t) :
    placeholderStem s = placeholderStem t := by
  have hoccurs (n : Nat) : stemWith n <:+: s ↔ stemWith n <:+: t := by
    rw [← infix_squeeze_iff not_blank_of_mem_stemWith (stemWith_ne_nil n), h,
      infix_squeeze_iff not_blank_of_mem_stemWith (stemWith_ne_nil n)]
  obtain ⟨n, hn, hfree, hleast⟩ := placeholderStem_eq s
  obtain ⟨m, hm, hfree', hleast'⟩ := placeholderStem_eq t
  obtain hlt | rfl | hlt := Nat.lt_trichotomy n m
  · exact absurd ((hoccurs n).mpr (hleast' n hlt)) hfree
  · rw [hn, hm]
  · exact absurd ((hoccurs m).mp (hleast m hlt)) hfree'

/-! ## Whole texts -/

/-- What of a fault does not depend on white space: which bound, and its text. -/
def RangeFault.bound (fault : RangeFault) : RangeSide × List Char :=
  (fault.side, fault.text)

theorem RangeToken.faults_bounds (token : RangeToken) :
    token.faults.map RangeFault.bound =
      (if token.min?.isNone then [(.min, token.minText)] else []) ++
        if token.max?.isNone then [(.max, token.maxText)] else [] := by
  rw [faults, List.map_append]
  split <;> split <;> rfl

theorem Extraction.isSome_faultText? (e : Extraction) : e.faultText?.isSome = !e.faults.isEmpty := by
  rw [faultText?]
  cases e.faults.isEmpty <;> rfl

theorem NormalForm.ofText_eq_of_squeeze {raw raw' : String} (h : squeeze raw.toList = squeeze raw'.toList) :
    ofText raw = ofText raw' := by
  have hsubstituted : squeeze (substituteRanges (fun _ token => samplingCall token) (expand raw.toList)) =
      squeeze (substituteRanges (fun _ token => samplingCall token) (expand raw'.toList)) :=
    squeeze_substituteRanges (fun _ _ => rfl) (squeeze_expand h)
  have hnone : ∀ cs ∈ (none : Option (List Char)), ∀ c ∈ cs, isBlank c = false := nofun
  simp only [ofText, finish_eq_of_squeeze hsubstituted hnone]

namespace Extraction

variable {raw raw' : String} (h : squeeze raw.toList = squeeze raw'.toList)
include h

theorem expression_eq_of_squeeze : (ofText raw).expression = (ofText raw').expression := by
  have hexpanded := squeeze_expand h
  simp only [ofText, placeholderStem_eq_of_squeeze hexpanded]
  refine congrArg String.ofList (finish_eq_of_squeeze (squeeze_substituteRanges (fun _ _ => rfl) hexpanded) ?_)
  intro stem hstem
  obtain ⟨n, hn, -⟩ := placeholderStem_eq (expand raw'.toList)
  rw [← Option.mem_some_iff.mp hstem, hn]
  exact not_blank_of_mem_stemWith

theorem ranges_eq_of_squeeze : (ofText raw).ranges = (ofText raw').ranges := by
  have hexpanded := squeeze_expand h
  have hintervals : (rangeTokens (expand raw.toList)).map RangeToken.interval =
      (rangeTokens (expand raw'.toList)).map RangeToken.interval := map_rangeTokens (fun _ => rfl) hexpanded
  have hranges : ∀ raw, (ofText raw).ranges =
      ((rangeTokens (expand raw.toList)).map RangeToken.interval).mapIdx fun index interval =>
        ⟨String.ofList (placeholderName (placeholderStem (expand raw.toList)) index), interval⟩ :=
    fun raw => by
      rw [ofText]
      exact List.ext_getElem? fun j => by simp [List.getElem?_mapIdx, Function.comp_def]
  rw [hranges, hranges, hintervals, placeholderStem_eq_of_squeeze hexpanded]

theorem faults_eq_of_squeeze :
    (ofText raw).faults.map RangeFault.bound = (ofText raw').faults.map RangeFault.bound := by
  have hbounds : (rangeTokens (expand raw.toList)).map (fun token => token.faults.map RangeFault.bound) =
      (rangeTokens (expand raw'.toList)).map fun token => token.faults.map RangeFault.bound :=
    map_rangeTokens (fun token => by rw [RangeToken.faults_bounds, RangeToken.faults_bounds]; rfl)
      (squeeze_expand h)
  have hfaults : ∀ raw, (ofText raw).faults.map RangeFault.bound =
      ((rangeTokens (expand raw.toList)).map fun token => token.faults.map RangeFault.bound).flatten :=
    fun raw => by rw [ofText, List.map_flatMap, List.flatMap_def]
  rw [hfaults, hfaults, hbounds]

end Extraction

/-- White space does not matter: neither to the sampling form, nor to the ranges, the text with placeholders
and whether there are faults. -/
theorem ofText_squeeze (raw : String) :
    NormalForm.ofText (String.ofList (squeeze raw.toList)) = NormalForm.ofText raw ∧
      let squeezed := Extraction.ofText (String.ofList (squeeze raw.toList))
      let extraction := Extraction.ofText raw
      squeezed.expression = extraction.expression ∧ squeezed.ranges = extraction.ranges ∧
        squeezed.faults.map RangeFault.bound = extraction.faults.map RangeFault.bound ∧
        squeezed.faultText?.isSome = extraction.faultText?.isSome := by
  have h : squeeze (String.ofList (squeeze raw.toList)).toList = squeeze raw.toList := by
    rw [String.toList_ofList]
    exact squeeze_eq_self (isSqueezed_squeeze _)
  have hfaults := Extraction.faults_eq_of_squeeze h
  refine ⟨NormalForm.ofText_eq_of_squeeze h, Extraction.expression_eq_of_squeeze h,
    Extraction.ranges_eq_of_squeeze h, hfaults, ?_⟩
  rw [Extraction.isSome_faultText?, Extraction.isSome_faultText?,
    ← List.isEmpty_map (f := RangeFault.bound), hfaults, List.isEmpty_map]

end RangeCalc
