import RangeCalc.Proofs.Text.Rewrite

/-!
# Stretches of text in which nothing is found

* `NothingIn`: a finder recognises nothing at the places of a stretch of text;
* `Scans.stretch`, `replaceEach_of_nothingIn`: such a stretch is passed, such a text is kept;
* `Scans.exists_of_occurrence`, `replaceEach_occurrence`: one occurrence between two such stretches;
* `NoneFollows`: nowhere in a stretch stands a character of one kind before a text of another.
-/

namespace RangeCalc.Text

variable {α : Type} {find : Finder α} {before front rest x y : List Char}

/-- A finder recognises nothing at the places of a stretch of text, with `rest` behind the stretch. -/
def NothingIn (find : Finder α) (before front rest : List Char) : Prop :=
  ∀ x y, front = x ++ y → y ≠ [] → find (x.reverse ++ before) (y ++ rest) = none

theorem nothingIn_nil : NothingIn find before [] rest := by
  rintro x y heq hne
  exact absurd (List.append_eq_nil_iff.mp heq.symm).2 hne

theorem nothingIn_cons {c : Char} (hfind : find before (c :: (front ++ rest)) = none)
    (h : NothingIn find (c :: before) front rest) : NothingIn find before (c :: front) rest := by
  rintro (- | ⟨d, x⟩) y heq hne
  · obtain rfl : c :: front = y := heq
    exact hfind
  · obtain ⟨rfl, rfl⟩ := List.cons.inj heq
    rw [List.reverse_cons, List.append_assoc]
    exact h x y rfl hne

theorem nothingIn_append (hx : NothingIn find before x (y ++ rest))
    (hy : NothingIn find (x.reverse ++ before) y rest) : NothingIn find before (x ++ y) rest := by
  rintro u v heq hne
  rcases List.append_eq_append_iff.mp heq with ⟨z, rfl, rfl⟩ | ⟨z, rfl, rfl⟩
  · have := hy z v rfl hne
    rwa [← List.append_assoc, ← List.reverse_append] at this
  · rcases eq_or_ne z [] with rfl | hz
    · rw [List.append_nil] at hy
      exact hy [] y rfl hne
    · have := hx u z rfl hz
      rwa [← List.append_assoc] at this

/-- Such a stretch is passed, character by character. -/
theorem Scans.stretch {ps : List (Piece α)} (hfront : NothingIn find before front rest)
    (h : Scans find (front.reverse ++ before) rest ps) :
    Scans find before (front ++ rest) (front.map .char ++ ps) := by
  induction front generalizing before with
  | nil => exact h
  | cons c front ih =>
    refine .char (hfront [] (c :: front) rfl (List.cons_ne_nil _ _)) (ih (fun x y heq hne => ?_) ?_)
    · have := hfront (c :: x) y (congrArg _ heq) hne
      rwa [List.reverse_cons, List.append_assoc] at this
    · rwa [List.reverse_cons, List.append_assoc] at h

theorem Scans.of_nothingIn {text : List Char} (h : NothingIn find before text []) :
    Scans find before text (text.map .char) := by
  have hscan := Scans.stretch h .nil
  rwa [List.append_nil, List.append_nil] at hscan

/-- A text in which nothing is found is kept. -/
theorem replaceEach_of_nothingIn {rule : Finder (List Char)} {text : List Char}
    (h : NothingIn rule [] text []) : replaceEach rule text = text := by
  rw [(Scans.of_nothingIn h).replaceEach_eq, rewritten_chars]

theorem rewritten_occurrence (out : α → List Char) (a : α) (covered : List Char) :
    rewritten out (front.map .char ++ .found a covered :: rest.map .char) = front ++ (out a ++ rest) := by
  rw [rewritten_append, rewritten_chars, rewritten_found, rewritten_chars]

section

variable {text : List Char} {a : α}

/-- One occurrence between two stretches in which nothing is found. -/
theorem Scans.exists_of_occurrence (front : List Char) (hcovers : find.Covers)
    (hfront : NothingIn find [] front text) (hsome : find front.reverse text = some (a, rest))
    (hrest : ∀ before, NothingIn find before rest []) :
    ∃ covered, Scans find [] (front ++ text) (front.map .char ++ .found a covered :: rest.map .char) := by
  obtain ⟨covered, hne, rfl⟩ := hcovers _ _ _ _ hsome
  refine ⟨covered, .stretch hfront ?_⟩
  rw [List.append_nil]
  exact .found hne hsome (.of_nothingIn (hrest _))

theorem replaceEach_occurrence {rule : Finder (List Char)} {out : List Char} (front : List Char)
    (hcovers : rule.Covers) (hfront : NothingIn rule [] front text)
    (hsome : rule front.reverse text = some (out, rest)) (hrest : ∀ before, NothingIn rule before rest []) :
    replaceEach rule (front ++ text) = front ++ (out ++ rest) := by
  obtain ⟨covered, hscan⟩ := Scans.exists_of_occurrence front hcovers hfront hsome hrest
  rw [hscan.replaceEach_eq, rewritten_occurrence]
  rfl

end

/-! ## What follows a character -/

/-- No character of a stretch that is one of `D` stands before a text that is one of `C`, with `rest` behind
the stretch. -/
def NoneFollows (D : Char → Prop) (C : List Char → Prop) (front rest : List Char) : Prop :=
  ∀ x d y, front = x ++ d :: y → D d → ¬ C (y ++ rest)

variable {D : Char → Prop} {C : List Char → Prop}

theorem noneFollows_of_not (h : ∀ c ∈ front, ¬ D c) : NoneFollows D C front rest := by
  rintro x d y rfl hd
  exact absurd hd (h d (by simp))

theorem noneFollows_nil : NoneFollows D C [] rest :=
  noneFollows_of_not (List.forall_mem_nil _)

/-- Nothing stands before a character that does not occur. -/
theorem noneFollows_head {c : Char} (h : c ∉ front) (hrest : rest.head? ≠ some c) :
    NoneFollows D (fun rest => rest.head? = some c) front rest := by
  rintro x d y rfl - hhead
  cases y with
  | nil => exact hrest hhead
  | cons e y =>
    obtain rfl : e = c := Option.some.inj hhead
    simp at h

theorem NoneFollows.append (hx : NoneFollows D C x (y ++ rest)) (hy : NoneFollows D C y rest) :
    NoneFollows D C (x ++ y) rest := by
  rintro u d v heq hd
  rcases List.append_eq_append_iff.mp heq with ⟨z, rfl, rfl⟩ | ⟨z, rfl, hz⟩
  · exact hy z d v rfl hd
  · rcases z with - | ⟨e, z⟩
    · exact hy [] d v hz.symm hd
    · obtain ⟨rfl, rfl⟩ := List.cons.inj hz
      have := hx u d z rfl hd
      rwa [← List.append_assoc] at this

theorem NoneFollows.cons {c : Char} (hc : D c → ¬ C (y ++ rest)) (hy : NoneFollows D C y rest) :
    NoneFollows D C (c :: y) rest := by
  rintro (- | ⟨e, u⟩) d v heq hd
  · obtain ⟨rfl, rfl⟩ := List.cons.inj heq
    exact hc hd
  · obtain ⟨-, rfl⟩ := List.cons.inj heq
    exact hy u d v rfl hd

end RangeCalc.Text
