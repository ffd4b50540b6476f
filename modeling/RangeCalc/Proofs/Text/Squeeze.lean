import Mathlib.Data.List.TakeWhile
import RangeCalc.Text.Blank

/-!
# Single spaces

* `trim_split`: what `trim` drops is white space;
* `IsSqueezed`: single spaces inside, none at the ends;
* `isSqueezed_squeeze`, `squeeze_eq_self`: what is squeezed is squeezed text, and squeezed text is kept.
-/

namespace RangeCalc.Text

theorem isBlank_space : isBlank ' ' = true := by decide

/-! ## The ends -/

theorem skipBlanks_of_head {cs : List Char} (h : ∀ c ∈ cs.head?, isBlank c = false) :
    skipBlanks cs = cs := by
  cases cs with
  | nil => rfl
  | cons c rest => exact List.dropWhile_cons_of_neg (by simp [h c rfl])

theorem head?_skipBlanks (cs : List Char) : ∀ c ∈ (skipBlanks cs).head?, isBlank c = false := by
  induction cs with
  | nil => exact nofun
  | cons b rest ih =>
    rcases hb : isBlank b with _ | _
    · rw [skipBlanks_of_head (by simpa using hb)]
      simpa using hb
    · rw [skipBlanks, List.dropWhile_cons_of_pos hb]
      exact ih

/-- White space is dropped in front. -/
theorem skipBlanks_split (cs : List Char) :
    ∃ lead, (∀ c ∈ lead, isBlank c = true) ∧ cs = lead ++ skipBlanks cs :=
  ⟨cs.takeWhile isBlank, fun _ hc => List.mem_takeWhile_imp hc, List.takeWhile_append_dropWhile.symm⟩

/-- White space is dropped on either side. -/
theorem trim_split (cs : List Char) :
    ∃ lead tail, (∀ c ∈ lead, isBlank c = true) ∧ (∀ c ∈ tail, isBlank c = true) ∧
      cs = lead ++ (trim cs ++ tail) := by
  obtain ⟨lead, hlead, hcs⟩ := skipBlanks_split cs
  obtain ⟨tail, htail, hrest⟩ := skipBlanks_split (skipBlanks cs).reverse
  refine ⟨lead, tail.reverse, hlead, by simpa using htail, ?_⟩
  rw [trim, ← List.reverse_append, ← hrest, List.reverse_reverse]
  exact hcs

theorem getLast?_trim (cs : List Char) : ∀ c ∈ (trim cs).getLast?, isBlank c = false := by
  rw [trim, List.getLast?_reverse]
  exact head?_skipBlanks _

theorem head?_trim (cs : List Char) : ∀ c ∈ (trim cs).head?, isBlank c = false := by
  intro c hc
  obtain ⟨tail, -, hrest⟩ := skipBlanks_split (skipBlanks cs).reverse
  have hsplit : skipBlanks cs = trim cs ++ tail.reverse := by
    rw [trim, ← List.reverse_append, ← hrest, List.reverse_reverse]
  refine head?_skipBlanks cs c ?_
  rw [hsplit, List.head?_append, hc]
  rfl

theorem trim_eq_self {cs : List Char} (hhead : ∀ c ∈ cs.head?, isBlank c = false)
    (hlast : ∀ c ∈ cs.getLast?, isBlank c = false) : trim cs = cs := by
  rw [trim, skipBlanks_of_head hhead, skipBlanks_of_head (by simpa using hlast), List.reverse_reverse]

/-! ## The inside -/

/-- Single spaces inside, none at the ends. -/
structure IsSqueezed (text : List Char) : Prop where
  space : ∀ c ∈ text, isBlank c = true → c = ' '
  single : ¬ [' ', ' '] <:+: text
  head : ∀ c ∈ text.head?, isBlank c = false
  last : ∀ c ∈ text.getLast?, isBlank c = false

theorem squeezeRuns_char {c : Char} (hc : isBlank c = false) (rest : List Char) :
    squeezeRuns (c :: rest) = c :: squeezeRuns rest := by
  rw [squeezeRuns, if_neg (by simp [hc])]

/-- White space in front gives one space, which takes in the one that follows. -/
theorem squeezeRuns_blank {c : Char} (hc : isBlank c = true) (rest : List Char) :
    (∃ tail, squeezeRuns rest = ' ' :: tail ∧ squeezeRuns (c :: rest) = ' ' :: tail) ∨
      (squeezeRuns rest).head? ≠ some ' ' ∧ squeezeRuns (c :: rest) = ' ' :: squeezeRuns rest := by
  rw [squeezeRuns, if_pos hc]
  split
  next tail htail => exact .inl ⟨tail, htail, rfl⟩
  next hne =>
    refine .inr ⟨fun h => ?_, rfl⟩
    obtain ⟨tail, htail⟩ := List.head?_eq_some_iff.mp h
    exact hne tail htail

theorem space_of_mem_squeezeRuns (text : List Char) :
    ∀ c ∈ squeezeRuns text, isBlank c = true → c = ' ' := by
  induction text with
  | nil => exact nofun
  | cons b rest ih =>
    rcases hb : isBlank b with _ | _
    · rw [squeezeRuns_char hb]
      rintro c (_ | ⟨_, hc⟩) hblank
      · rw [hb] at hblank
        cases hblank
      · exact ih c hc hblank
    · obtain ⟨tail, htail, heq⟩ | ⟨-, heq⟩ := squeezeRuns_blank hb rest
      · rw [heq, ← htail]
        exact ih
      · rw [heq]
        rintro c (_ | ⟨_, hc⟩) hblank
        · rfl
        · exact ih c hc hblank

theorem single_squeezeRuns (text : List Char) : ¬ [' ', ' '] <:+: squeezeRuns text := by
  induction text with
  | nil => simp [squeezeRuns]
  | cons b rest ih =>
    rcases hb : isBlank b with _ | _
    · rw [squeezeRuns_char hb, List.infix_cons_iff, List.cons_prefix_cons]
      rintro (⟨rfl, -⟩ | h)
      · cases hb
      · exact ih h
    · obtain ⟨tail, htail, heq⟩ | ⟨hhead, heq⟩ := squeezeRuns_blank hb rest
      · rw [heq, ← htail]
        exact ih
      · rw [heq, List.infix_cons_iff, List.cons_prefix_cons]
        rintro (⟨-, ⟨tail, htail⟩⟩ | h)
        · rw [← htail] at hhead
          exact hhead rfl
        · exact ih h

theorem isSqueezed_squeeze (text : List Char) : IsSqueezed (squeeze text) := by
  obtain ⟨lead, tail, -, -, hsplit⟩ := trim_split (squeezeRuns text)
  have hpart : squeeze text <:+: squeezeRuns text := ⟨lead, tail, by rw [squeeze, List.append_assoc, ← hsplit]⟩
  exact ⟨fun c hc => space_of_mem_squeezeRuns text c (hpart.mem hc),
    fun h => single_squeezeRuns text (h.trans hpart), head?_trim _, getLast?_trim _⟩

theorem squeezeRuns_eq_self {text : List Char} (hspace : ∀ c ∈ text, isBlank c = true → c = ' ')
    (hsingle : ¬ [' ', ' '] <:+: text) : squeezeRuns text = text := by
  induction text with
  | nil => rfl
  | cons b rest ih =>
    rw [List.infix_cons_iff, not_or] at hsingle
    have hrest := ih (fun c hc => hspace c (List.mem_cons_of_mem b hc)) hsingle.2
    rcases hb : isBlank b with _ | _
    · rw [squeezeRuns_char hb, hrest]
    · obtain rfl := hspace b List.mem_cons_self hb
      obtain ⟨tail, htail, -⟩ | ⟨-, heq⟩ := squeezeRuns_blank hb rest
      · rw [hrest] at htail
        exact absurd ⟨tail, by rw [htail]; rfl⟩ hsingle.1
      · rw [heq, hrest]

/-- Squeezed text is kept. -/
theorem squeeze_eq_self {text : List Char} (h : IsSqueezed text) : squeeze text = text := by
  rw [squeeze, squeezeRuns_eq_self h.space h.single, trim_eq_self h.head h.last]

end RangeCalc.Text
