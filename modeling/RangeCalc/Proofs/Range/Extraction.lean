import RangeCalc.Proofs.Number.Written
import RangeCalc.Proofs.Range.Call
import RangeCalc.Proofs.Range.Spacing

/-!
# What an extraction holds

* `StemSearch`: the search for a stem that does not occur in a text, of which `placeholderStem` is the result;
* `RangeToken.faults_eq`: the faults of a range are about the undefined bounds of its interval;
* `Cut`: a text cut at its ranges, so that it can be written with other words for them;
* `Extraction.ofText_accounts_for_ranges`: the placeholders, the ranges and the faults of an extraction.
-/

namespace RangeCalc

open Text Shorthand Binary64

/-! ## Placeholders -/

/-- The search for a stem that does not occur in a text: one that does is tried with one more underscore. -/
inductive StemSearch (text : List Char) : (stem found : List Char) → Prop where
  | stop {stem : List Char} (hfree : ¬ stem <:+: text) : StemSearch text stem stem
  | longer {stem found : List Char} (hoccurs : stem <:+: text) (hrest : StemSearch text ('_' :: stem) found) :
      StemSearch text stem found

section

variable {text stem : List Char}

theorem stemWith_suffix {m n : Nat} (h : m ≤ n) : stemWith m <:+ stemWith n := by
  obtain ⟨k, rfl⟩ := Nat.exists_eq_add_of_le' h
  refine ⟨List.replicate k '_', ?_⟩
  rw [stemWith, stemWith, ← List.append_assoc, List.replicate_append_replicate]

/-- The stems that occur in a text are those shorter than its stem. -/
theorem exists_placeholderStem_eq (text : List Char) :
    ∃ n, placeholderStem text = stemWith n ∧ ∀ m, stemWith m <:+: text ↔ m < n := by
  obtain ⟨n, hn, hfree, hleast⟩ := placeholderStem_eq text
  refine ⟨n, hn, fun m => ⟨fun hoccurs => ?_, hleast m⟩⟩
  by_contra hle
  exact hfree ((stemWith_suffix (not_lt.mp hle)).isInfix.trans hoccurs)

theorem stemSearch_of_occurs (k m : Nat) (hfree : ¬ stemWith (m + k) <:+: text)
    (hoccurs : ∀ i < m + k, stemWith i <:+: text) : StemSearch text (stemWith m) (stemWith (m + k)) := by
  induction k generalizing m with
  | zero => exact .stop hfree
  | succ k ih =>
    rw [← Nat.add_assoc, Nat.add_right_comm] at hfree hoccurs ⊢
    exact .longer (hoccurs m (by omega)) (ih (m + 1) hfree hoccurs)

/-- The stem of a text is found by the search that starts without additional underscores. -/
theorem stemSearch_placeholderStem (text : List Char) :
    StemSearch text "__range".toList (placeholderStem text) := by
  obtain ⟨n, hn, hfree, hleast⟩ := placeholderStem_eq text
  rw [← Nat.zero_add n] at hfree hleast
  have hsearch := stemSearch_of_occurs n 0 hfree hleast
  rwa [Nat.zero_add, ← hn] at hsearch

theorem not_placeholderName_infix (text : List Char) (index : Nat) :
    ¬ placeholderName (placeholderStem text) index <:+: text := by
  obtain ⟨n, hn, hfree, -⟩ := placeholderStem_eq text
  rw [hn]
  refine mt (List.IsInfix.trans ?_) hfree
  rw [placeholderName, List.append_assoc]
  exact (List.prefix_append _ _).isInfix

/-- The number of a placeholder can be read off its name. -/
theorem placeholderName_injective (stem : List Char) : Function.Injective (placeholderName stem) := by
  intro i j h
  have hdigits : digitChars i = digitChars j := List.append_cancel_left (List.append_cancel_right h)
  rw [← natOfDigits_digitChars i, hdigits, natOfDigits_digitChars]

end

/-! ## Bounds -/

/-- The bound on one side of an interval. -/
def Interval.bound {α : Type} (i : Interval α) : RangeSide → α
  | .min => i.min
  | .max => i.max

/-- The sides of an interval without a bound, that of the least bound first. -/
def Interval.undefinedSides (i : Interval Float) : List RangeSide :=
  [RangeSide.min, .max].filter fun side => (i.bound side).isNaN

namespace RangeToken

variable (token : RangeToken)

/-- The text of one bound. -/
def boundText : RangeSide → List Char
  | .min => token.minText
  | .max => token.maxText

/-- The fault of a range without a bound on one side. -/
def fault (side : RangeSide) : RangeFault :=
  ⟨token.text, side, token.boundText side⟩

/-- Bounds are exchanged only if both are defined, so that an undefined one stays on its side. -/
theorem isNaN_interval :
    token.interval.min.isNaN = token.min?.isNone ∧ token.interval.max.isNaN = token.max?.isNone := by
  have hbound : ∀ {text percent}, ((boundValue? text percent).getD nan).isNaN =
      (boundValue? text percent).isNone := fun {text percent} => by
    cases h : boundValue? text percent with
    | none => decide
    | some x => exact not_isNaN_of_isFinite (isFinite_of_boundValue? h)
  have hmin : (token.min?.getD nan).isNaN = token.min?.isNone := hbound
  have hmax : (token.max?.getD nan).isNaN = token.max?.isNone := hbound
  rw [interval, Interval.ordered]
  split
  next hlt =>
    obtain ⟨hhigh, hlow⟩ := not_isNaN_of_lt hlt
    exact ⟨by rw [hhigh, ← hmin, hlow], by rw [hlow, ← hmax, hhigh]⟩
  next => exact ⟨hmin, hmax⟩

theorem faults_eq : token.faults = token.interval.undefinedSides.map token.fault := by
  obtain ⟨hmin, hmax⟩ := token.isNaN_interval
  simp only [Interval.undefinedSides, List.filter_cons, List.filter_nil, Interval.bound, hmin, hmax, faults]
  split <;> split <;> rfl

/-- Two finite bounds in ascending order, or one that is undefined. -/
theorem ordered_interval :
    (token.interval.min.isFinite = true ∧ token.interval.max.isFinite = true ∧
      token.interval.min ≤ token.interval.max) ∨
      token.interval.min.isNaN = true ∨ token.interval.max.isNaN = true := by
  obtain ⟨hmin, hmax⟩ := token.isNaN_interval
  cases hlow : token.min? with
  | none => exact .inr (.inl (by rw [hmin, hlow]; rfl))
  | some a =>
    cases hhigh : token.max? with
    | none => exact .inr (.inr (by rw [hmax, hhigh]; rfl))
    | some b =>
      have ha := isFinite_of_boundValue? hlow
      have hb := isFinite_of_boundValue? hhigh
      have hinterval : token.interval = .ordered a b := by rw [interval, hlow, hhigh]; rfl
      rw [hinterval]
      rcases Interval.ordered_cases (not_isNaN_of_isFinite ha) (not_isNaN_of_isFinite hb) with
        ⟨h, hle⟩ | ⟨h, hle⟩ <;> rw [h]
      · exact .inl ⟨ha, hb, hle⟩
      · exact .inl ⟨hb, ha, hle⟩

end RangeToken

theorem Interval.isValid_iff (i : Interval Float) : i.isValid = true ↔ i.undefinedSides = [] := by
  simp [isValid, Scalar.isUndefined, undefinedSides, bound]

/-! ## A text cut at its ranges -/

namespace FoundRange

variable (r : FoundRange)

/-- What a range covers: its operator, and the text of its token. -/
def text : List Char :=
  r.operator.toList ++ r.token.text

/-- A word for a range, with a blank between it and the operator. -/
def spaced (word : List Char) : List Char :=
  match r.operator with
  | some sign => sign :: ' ' :: word
  | none => word

end FoundRange

/-- A range covers its operator and the text of its token, and its operator is a sign. -/
theorem RangeToken.find_text {before text after : List Char} {r : FoundRange}
    (h : find before text = some (r, after)) :
    r.text ++ after = text ∧ ∀ sign ∈ r.operator, sign = '+' ∨ sign = '-' := by
  obtain ⟨-, covered, htext, ⟨shape⟩⟩ := find_eq_some h
  have hwhole : text.take (text.length - after.length) = covered := by
    rw [htext, List.length_append, Nat.add_sub_cancel, List.take_left]
  have hoperator : ∀ sign ∈ r.operator, covered = sign :: covered.drop 1 := by
    intro sign hsign
    have hcovered := shape.text_eq
    rw [shape.operator_eq sign hsign] at hcovered
    rw [hcovered]
    rfl
  simp only [find, guard, bind, Option.bind_eq_some_iff] at h
  obtain ⟨_, -, ⟨minText, rest₁⟩, -, rest₃, -, ⟨maxText, rest₄⟩, -, h⟩ := h
  split at h
  next sign unsigned hmin =>
    split at h
    next hsign =>
      obtain ⟨rfl, rfl⟩ := Prod.mk.inj (Option.some.inj h)
      rw [FoundRange.text, hwhole, Option.toList_some, List.singleton_append, ← hoperator sign rfl]
      exact ⟨htext.symm, fun sign' heq => Option.some.inj heq ▸ hsign.1⟩
    next =>
      obtain ⟨rfl, rfl⟩ := Prod.mk.inj (Option.some.inj h)
      rw [FoundRange.text, hwhole]
      exact ⟨htext.symm, fun sign' heq => absurd heq (Option.not_mem_none sign')⟩
  next => cases h

/-- What stands before each range, with the range, and what stands after the last. -/
structure Cut where
  parts : List (List Char × FoundRange)
  rest : List Char

namespace Cut

/-- The text with a word for each range, which may depend on the number of the range. -/
def write (word : Nat → FoundRange → List Char) (cut : Cut) : List Char :=
  (cut.parts.mapIdx fun index (before, r) => before ++ word index r).flatten ++ cut.rest

/-- The cut of a text with one more character in front. -/
def push (c : Char) : Cut → Cut
  | ⟨[], rest⟩ => ⟨[], c :: rest⟩
  | ⟨(before, r) :: parts, rest⟩ => ⟨(c :: before, r) :: parts, rest⟩

/-- The cut of a text from its pieces. -/
def ofPieces : List (Piece FoundRange) → Cut
  | [] => ⟨[], []⟩
  | .char c :: ps => (ofPieces ps).push c
  | .found r _ :: ps => ⟨([], r) :: (ofPieces ps).parts, (ofPieces ps).rest⟩

variable {word : Nat → FoundRange → List Char}

@[simp]
theorem write_push (c : Char) (cut : Cut) : (cut.push c).write word = c :: cut.write word := by
  obtain ⟨_ | ⟨⟨before, r⟩, parts⟩, rest⟩ := cut <;> simp [push, write]

@[simp]
theorem write_found (r : FoundRange) (cut : Cut) :
    write word ⟨([], r) :: cut.parts, cut.rest⟩ = word 0 r ++ cut.write fun index => word (index + 1) := by
  simp [write, List.mapIdx_cons]

@[simp]
theorem ranges_push (c : Char) (cut : Cut) : (cut.push c).parts.map Prod.snd = cut.parts.map Prod.snd := by
  obtain ⟨_ | ⟨⟨before, r⟩, parts⟩, rest⟩ := cut <;> rfl

/-- Ranges are replaced in the cut of a text, each by the word for its number. -/
theorem substituteSegments_eq_write (replace : Nat → RangeToken → List Char) (ps : List (Piece FoundRange))
    (index : Nat) :
    substituteSegments replace index (ps.map Piece.segment) =
      (ofPieces ps).write fun i r => r.spaced (replace (index + i) r.token) := by
  induction ps generalizing index with
  | nil => rfl
  | cons p ps ih =>
    rcases p with c | ⟨r, covered⟩
    · rw [ofPieces, write_push, ← ih]
      rfl
    · have hnext := ih (index + 1)
      simp only [Nat.add_assoc, Nat.add_comm 1] at hnext
      rw [ofPieces, write_found, Nat.add_zero, ← hnext, List.map_cons, Piece.segment, substituteSegments,
        FoundRange.spaced]
      cases r.operator <;> rfl

theorem ranges_ofPieces (ps : List (Piece FoundRange)) :
    (ofPieces ps).parts.map Prod.snd = (ps.map Piece.segment).filterMap Segment.found? := by
  induction ps with
  | nil => rfl
  | cons p ps ih =>
    rcases p with c | ⟨r, covered⟩
    · rw [ofPieces, ranges_push, ih]
      rfl
    · rw [ofPieces, List.map_cons, ih]
      rfl

theorem write_ofPieces {before text : List Char} {ps : List (Piece FoundRange)}
    (h : Scans RangeToken.find before text ps) : (ofPieces ps).write (fun _ r => r.text) = text := by
  induction h with
  | nil => rfl
  | char _ _ ih => rw [ofPieces, write_push, ih]
  | found _ hsome _ ih =>
    rw [ofPieces, write_found, ih]
    exact (RangeToken.find_text hsome).1

theorem operators_ofPieces {before text : List Char} {ps : List (Piece FoundRange)}
    (h : Scans RangeToken.find before text ps) :
    ∀ r ∈ (ofPieces ps).parts.map Prod.snd, ∀ sign ∈ r.operator, sign = '+' ∨ sign = '-' := by
  induction h with
  | nil => exact List.forall_mem_nil _
  | char _ _ ih =>
    rw [ofPieces, ranges_push]
    exact ih
  | found _ hsome _ ih => exact List.forall_mem_cons.mpr ⟨(RangeToken.find_text hsome).2, ih⟩

end Cut

/-- Every text is cut at its ranges, and these are replaced where they stand. -/
theorem exists_cut (text : List Char) :
    ∃ cut : Cut, cut.parts.map (·.2.token) = rangeTokens text ∧
      (∀ part ∈ cut.parts, ∀ sign ∈ part.2.operator, sign = '+' ∨ sign = '-') ∧
      cut.write (fun _ r => r.text) = text ∧
      ∀ replace, substituteRanges replace text = cut.write fun index r => r.spaced (replace index r.token) := by
  obtain ⟨ps, hps⟩ := Scans.exists_scan RangeToken.find_covers [] text
  have hranges := Cut.ranges_ofPieces ps
  refine ⟨Cut.ofPieces ps, ?_, ?_, Cut.write_ofPieces hps, fun replace => ?_⟩
  · rw [rangeTokens, occurrences, hps.segments_eq, ← hranges, List.map_map]
    rfl
  · exact fun part hpart => Cut.operators_ofPieces hps part.2 (List.mem_map_of_mem hpart)
  · have hwrite := Cut.substituteSegments_eq_write replace ps 0
    simp only [Nat.zero_add] at hwrite
    rw [substituteRanges, hps.segments_eq, hwrite]

/-! ## The books of an extraction -/

namespace Extraction

variable (raw : String)

theorem ranges_ofText :
    (ofText raw).ranges = (rangeTokens (expand raw.toList)).mapIdx fun index token =>
      ⟨String.ofList (placeholderName (placeholderStem (expand raw.toList)) index), token.interval⟩ := by
  rw [ofText]

theorem intervals_ofText :
    (ofText raw).ranges.map RangeVar.interval = (rangeTokens (expand raw.toList)).map RangeToken.interval := by
  rw [ranges_ofText]
  generalize rangeTokens (expand raw.toList) = tokens
  exact List.ext_getElem (by simp) fun j _ _ => by simp

/-- The placeholders are numbered in order, so that they are distinct. -/
theorem nodup_names : ((ofText raw).ranges.map RangeVar.name).Nodup := by
  rw [ranges_ofText]
  generalize placeholderStem (expand raw.toList) = stem
  generalize rangeTokens (expand raw.toList) = tokens
  have hnames : (tokens.mapIdx fun index token =>
      (⟨String.ofList (placeholderName stem index), token.interval⟩ : RangeVar Float)).map RangeVar.name =
      (List.range tokens.length).map fun index => String.ofList (placeholderName stem index) :=
    List.ext_getElem (by simp) fun j _ _ => by simp
  rw [hnames]
  exact List.nodup_range.map fun i j h => placeholderName_injective stem (String.ofList_injective h)

theorem faults_ofText :
    (ofText raw).faults = ((rangeTokens (expand raw.toList)).zip (ofText raw).ranges).flatMap fun (token, r) =>
      r.interval.undefinedSides.map token.fault := by
  have hfaults : (ofText raw).faults = (rangeTokens (expand raw.toList)).flatMap RangeToken.faults := by
    rw [ofText]
  rw [hfaults, ranges_ofText, List.flatMap_def, List.flatMap_def]
  generalize placeholderStem (expand raw.toList) = stem
  generalize rangeTokens (expand raw.toList) = tokens
  refine congrArg List.flatten (List.ext_getElem (by simp) fun j _ _ => ?_)
  simp [RangeToken.faults_eq]

theorem length_faults_ofText :
    (ofText raw).faults.length =
      ((ofText raw).ranges.map fun r => r.interval.undefinedSides.length).sum := by
  have hlengths : (ofText raw).ranges.map (fun r => r.interval.undefinedSides.length) =
      ((ofText raw).ranges.map RangeVar.interval).map fun i => i.undefinedSides.length := by
    rw [List.map_map]
    rfl
  rw [hlengths, intervals_ofText, List.map_map, ofText, List.length_flatMap]
  exact congrArg List.sum (List.map_congr_left fun token _ => by rw [token.faults_eq, List.length_map]; rfl)

theorem faultText?_ofText :
    (ofText raw).faultText? = none ↔ ∀ r ∈ (ofText raw).ranges, r.interval.isValid = true := by
  have hvalid : (∀ r ∈ (ofText raw).ranges, r.interval.isValid = true) ↔
      ∀ i ∈ (ofText raw).ranges.map RangeVar.interval, i.undefinedSides = [] := by
    simp only [Interval.isValid_iff, List.forall_mem_map]
  rw [hvalid, intervals_ofText, ← Option.not_isSome_iff_eq_none, isSome_faultText?]
  simp [ofText, RangeToken.faults_eq]

/-- An extraction numbers the ranges of the expanded text. Its placeholders start with the shortest stem that
does not occur in that text, so that they do not occur there either. Each range has two finite bounds in
ascending order or an undefined one, and there is a fault for each undefined bound, in order, and for nothing
else. The text is cut at its ranges; whatever these are replaced with, the rest of the text stays, apart from a
blank behind a sign that is an operator. -/
theorem ofText_accounts_for_ranges :
    let text := expand raw.toList
    let stem := placeholderStem text
    let tokens := rangeTokens text
    let e := ofText raw
    StemSearch text "__range".toList stem ∧
      (∃ n, stem = stemWith n ∧ ∀ m, stemWith m <:+: text ↔ m < n) ∧
      (∀ index, ¬ placeholderName stem index <:+: text) ∧
      e.ranges = tokens.mapIdx (fun index token =>
        ⟨String.ofList (placeholderName stem index), token.interval⟩) ∧
      (e.ranges.map RangeVar.name).Nodup ∧
      (∀ r ∈ e.ranges,
        (r.interval.min.isFinite = true ∧ r.interval.max.isFinite = true ∧ r.interval.min ≤ r.interval.max) ∨
          r.interval.min.isNaN = true ∨ r.interval.max.isNaN = true) ∧
      e.faults = (tokens.zip e.ranges).flatMap (fun (token, r) =>
        r.interval.undefinedSides.map token.fault) ∧
      e.faults.length = (e.ranges.map fun r => r.interval.undefinedSides.length).sum ∧
      (e.faultText? = none ↔ ∀ r ∈ e.ranges, r.interval.isValid = true) ∧
      ∃ cut : Cut, cut.parts.map (·.2.token) = tokens ∧
        (∀ part ∈ cut.parts, ∀ sign ∈ part.2.operator, sign = '+' ∨ sign = '-') ∧
        cut.write (fun _ r => r.text) = text ∧
        (∀ replace, substituteRanges replace text = cut.write fun index r => r.spaced (replace index r.token)) ∧
        e.expression = String.ofList
          (finish (cut.write fun index r => r.spaced (placeholderName stem index)) (some stem)) := by
  intro text stem tokens e
  obtain ⟨cut, htokens, hoperators, htext, hreplace⟩ := exists_cut text
  refine ⟨stemSearch_placeholderStem text, exists_placeholderStem_eq text, not_placeholderName_infix text,
    ranges_ofText raw, nodup_names raw, fun r hr => ?_, faults_ofText raw, length_faults_ofText raw,
    faultText?_ofText raw, cut, htokens, hoperators, htext, hreplace, ?_⟩
  · have hinterval : r.interval ∈ e.ranges.map RangeVar.interval := List.mem_map_of_mem hr
    rw [intervals_ofText] at hinterval
    obtain ⟨token, -, heq⟩ := List.mem_map.mp hinterval
    rw [← heq]
    exact token.ordered_interval
  · have hexpression : e.expression = String.ofList
        (finish (substituteRanges (fun index _ => placeholderName stem index) text) (some stem)) := by
      simp only [e, ofText, text, stem]
    rw [hexpression, hreplace]

end Extraction

end RangeCalc
