import Mathlib
import RangeCalc.Proofs.Formula.SamplingCall
import RangeCalc.Proofs.Text.Segment
import RangeCalc.Proofs.Text.Squeeze
import RangeCalc.Range.Normal

/-!
# When the sampling form is known to be probabilistic

The sampling form of a text is searched for calls in which no white space stands before the parenthesis.
Its formula is probabilistic also where there is a space.

* `mentionsSampling_iff`: which calls are found;
* `IsSqueezed.writesCall_iff`: which calls can be written where spaces are single;
* `NormalForm.isProbabilistic_iff`: when what was found agrees with the formula.
-/

namespace RangeCalc

open Text

/-- Characters that are no letters are the same in small letters. -/
theorem lowerAscii_eq_iff {cs ds : List Char} (h : ∀ c ∈ ds, c.isAlpha = false) :
    lowerAscii cs = ds ↔ cs = ds := by
  induction ds generalizing cs with
  | nil => simp [lowerAscii]
  | cons d ds ih =>
    obtain ⟨hd, hds⟩ := List.forall_mem_cons.mp h
    cases cs with
    | nil => simp [lowerAscii]
    | cons c cs =>
      rw [lowerAscii, List.map_cons, List.cons.injEq, List.cons.injEq, toLower_of_not_isAlpha hd]
      exact and_congr_right fun _ => ih hds

/-- Whether a sampling word with given characters between it and an opening parenthesis is written in a
text, in any case of its letters. -/
def mentionsSamplingWith (between text : List Char) : Bool :=
  samplingWords.any fun word => occursIn (word ++ (between ++ ['('])) (lowerAscii text)

theorem mentionsSamplingWith_iff {between text : List Char} (h : ∀ c ∈ between, c.isAlpha = false) :
    mentionsSamplingWith between text = true ↔
      ∃ name, lowerAscii name ∈ samplingWords ∧ name ++ (between ++ ['(']) <:+: text := by
  have hend : ∀ c ∈ between ++ ['('], c.isAlpha = false :=
    List.forall_mem_append.mpr ⟨h, by simp [Char.isAlpha, Char.isUpper, Char.isLower]⟩
  simp only [mentionsSamplingWith, List.any_eq_true, occursIn_iff]
  constructor
  · rintro ⟨word, hword, pre, post, heq⟩
    obtain ⟨front, post', rfl, hfront, -⟩ := List.map_eq_append_iff.mp heq.symm
    obtain ⟨pre', part, rfl, -, hpart⟩ := List.map_eq_append_iff.mp hfront
    obtain ⟨name, tail, rfl, rfl, htail⟩ := List.map_eq_append_iff.mp hpart
    obtain rfl := (lowerAscii_eq_iff hend).mp htail
    exact ⟨name, hword, pre', post', rfl⟩
  · rintro ⟨name, hname, hpart⟩
    refine ⟨_, hname, ?_⟩
    have := hpart.map Char.toLower
    rwa [List.map_append, show (between ++ ['(']).map Char.toLower = between ++ ['('] from
      (lowerAscii_eq_iff hend).mpr rfl] at this

theorem mentionsSampling_eq (text : List Char) :
    mentionsSampling text = mentionsSamplingWith [] text := by
  simp only [mentionsSampling, mentionsSamplingWith, samplingWords, List.any_cons, List.any_nil,
    Bool.or_false]
  rfl

/-- Where spaces are single, at most one stands before an opening parenthesis. -/
theorem Text.IsSqueezed.writesCall_iff {name text : List Char} (h : IsSqueezed text) :
    WritesCall name text ↔ name ++ ([] ++ ['(']) <:+: text ∨ name ++ ([' '] ++ ['(']) <:+: text := by
  constructor
  · rintro ⟨pre, blanks, post, hblanks, rfl⟩
    have hspace : ∀ c ∈ blanks, c = ' ' := by
      intro c hc
      refine h.space c (by simp [hc]) ?_
      have := hblanks c hc
      simp only [isTokenBlank, Bool.or_eq_true, beq_iff_eq] at this
      rcases this with (((rfl | rfl) | rfl) | rfl) | rfl <;> decide
    rcases blanks with - | ⟨b, - | ⟨b', blanks⟩⟩
    · exact .inl ⟨pre, post, by simp⟩
    · obtain rfl := hspace b (by simp)
      exact .inr ⟨pre, post, by simp⟩
    · obtain rfl := hspace b (by simp)
      obtain rfl := hspace b' (by simp)
      exact absurd ⟨pre ++ name, blanks ++ '(' :: post, by simp⟩ h.single
  · rintro (⟨pre, post, rfl⟩ | ⟨pre, post, rfl⟩)
    · exact ⟨pre, [], post, fun _ hc => absurd hc List.not_mem_nil, by simp⟩
    · exact ⟨pre, [' '], post, by simp [isTokenBlank], by simp⟩

theorem NormalForm.isSqueezed (raw : String) : IsSqueezed (NormalForm.ofText raw).expression.toList := by
  rw [ofText, String.toList_ofList]
  exact isSqueezed_squeeze _

theorem NormalForm.isProbabilistic_eq (raw : String) :
    (NormalForm.ofText raw).isProbabilistic =
      mentionsSampling (NormalForm.ofText raw).expression.toList := by
  rw [ofText, String.toList_ofList]

/-- A formula in sampling form is probabilistic exactly if it was found to be or a sampling function is
called with a space before the parenthesis. So the two agree unless all calls of sampling functions have
such a space. -/
theorem NormalForm.isProbabilistic_iff {raw : String} {f : Formula Float}
    (h : compile (NormalForm.ofText raw).expression = .ok f) :
    (f.isProbabilistic = true ↔ (NormalForm.ofText raw).isProbabilistic = true ∨
      mentionsSamplingWith [' '] (NormalForm.ofText raw).expression.toList = true) ∧
    ((NormalForm.ofText raw).isProbabilistic = f.isProbabilistic ↔
      (mentionsSamplingWith [' '] (NormalForm.ofText raw).expression.toList = true →
        (NormalForm.ofText raw).isProbabilistic = true)) := by
  have hiff : f.isProbabilistic = true ↔ (NormalForm.ofText raw).isProbabilistic = true ∨
      mentionsSamplingWith [' '] (NormalForm.ofText raw).expression.toList = true := by
    rw [compile_isProbabilistic_iff h, isProbabilistic_eq, mentionsSampling_eq,
      mentionsSamplingWith_iff (by simp),
      mentionsSamplingWith_iff (by simp [Char.isAlpha, Char.isUpper, Char.isLower])]
    simp only [(isSqueezed raw).writesCall_iff, and_or_left, exists_or]
  refine ⟨hiff, ?_⟩
  rw [Bool.eq_iff_iff, hiff]
  exact ⟨fun h hspaced => h.mpr (.inr hspaced), fun h => ⟨.inl, fun hor => hor.elim id h⟩⟩

/-- A sampling function called without a space is found. -/
theorem rangeInProduct_isProbabilistic :
    ∃ f, compile (NormalForm.ofText "2 sin(1~2) + 1").expression = .ok f ∧ f.isProbabilistic = true := by
  have hflag : (NormalForm.ofText "2 sin(1~2) + 1").isProbabilistic = true := by decide +kernel
  have hrun : (compile (NormalForm.ofText "2 sin(1~2) + 1").expression).toOption.isSome = true := by
    decide +kernel
  rcases h : compile (NormalForm.ofText "2 sin(1~2) + 1").expression with e | f
  · rw [h] at hrun
    cases hrun
  · exact ⟨f, rfl, (NormalForm.isProbabilistic_iff h).1.mpr (.inl hflag)⟩

/-- A sampling function called with a space is not found. -/
theorem spacedCall_not_found :
    (compile (NormalForm.ofText "sample (uniform (1, 2))").expression).toOption.any
        Formula.isProbabilistic = true ∧
      (NormalForm.ofText "sample (uniform (1, 2))").isProbabilistic = false := by
  decide +kernel

end RangeCalc
