import RangeCalc.Proofs.Text.Stretch

/-!
# Texts with marks

A mark stands for a word that can be written in several ways. What a rule does between the marks does not depend
on how they are written, as long as no occurrence touches a mark.

* `written`: a text with a word for each mark;
* `Rewrites`: characters between marks are replaced;
* `exists_rewrites`: a rule replaces the same, whatever words are written for the marks;
* `Rewrites.infix_of`: a name that occurs between marks occurred there before.
-/

namespace RangeCalc.Text

variable {ι κ : Type}

/-- The text with a word for each mark. -/
def written (word : ι → List Char) (m : List (Segment ι)) : List Char :=
  m.flatMap fun
    | .char c => [c]
    | .found i => word i

section

variable {word : ι → List Char} {m m' : List (Segment ι)} {c : Char} {i : ι}

@[simp]
theorem written_nil : written word [] = [] := rfl

@[simp]
theorem written_char : written word (.char c :: m) = c :: written word m := rfl

@[simp]
theorem written_found : written word (.found i :: m) = word i ++ written word m := rfl

@[simp]
theorem written_append : written word (m ++ m') = written word m ++ written word m' :=
  List.flatMap_append

@[simp]
theorem written_chars (cs : List Char) : written word (cs.map .char) = cs := by
  induction cs with
  | nil => rfl
  | cons c cs ih => rw [List.map_cons, written_char, ih]

/-- A front in which no word for a mark can start consists of characters. -/
theorem exists_chars_of_written {part rest : List Char} (h : written word m = part ++ rest)
    (hword : ∀ i, ∃ x, (word i).head? = some x ∧ x ∉ part) :
    ∃ back, m = part.map .char ++ back ∧ written word back = rest := by
  induction part generalizing m with
  | nil => exact ⟨m, rfl, h⟩
  | cons d part ih =>
    rcases m with - | ⟨e | i, m⟩
    · cases h
    · obtain ⟨rfl, hrest⟩ := List.cons.inj h
      obtain ⟨back, rfl, rfl⟩ := ih hrest fun i =>
        (hword i).imp fun x hx => ⟨hx.1, fun hin => hx.2 (List.mem_cons_of_mem _ hin)⟩
      exact ⟨back, rfl, rfl⟩
    · obtain ⟨x, hx, hnot⟩ := hword i
      obtain ⟨tail, htail⟩ := List.head?_eq_some_iff.mp hx
      rw [written_found, htail, List.cons_append] at h
      rw [(List.cons.inj h).1] at hnot
      exact absurd List.mem_cons_self hnot

end

/-! ## Replacements between marks -/

/-- The second text is the first one with some stretches of characters replaced. -/
inductive Rewrites (Q : List Char → List Char → Prop) : (m m' : List (Segment ι)) → Prop where
  | nil : Rewrites Q [] []
  | char {m m' : List (Segment ι)} (c : Char) (h : Rewrites Q m m') : Rewrites Q (.char c :: m) (.char c :: m')
  | found {m m' : List (Segment ι)} (i : ι) (h : Rewrites Q m m') : Rewrites Q (.found i :: m) (.found i :: m')
  | piece {m m' : List (Segment ι)} {covered out : List Char} (hQ : Q covered out) (h : Rewrites Q m m') :
      Rewrites Q (covered.map .char ++ m) (out.map .char ++ m')

section

variable {Q : List Char → List Char → Prop} {m m' : List (Segment ι)}

theorem filterMap_found?_chars (cs : List Char) (m : List (Segment ι)) :
    (cs.map Segment.char ++ m).filterMap Segment.found? = m.filterMap Segment.found? := by
  induction cs with
  | nil => rfl
  | cons c cs ih => exact ih

/-- The marks stay, in their order. -/
theorem Rewrites.marks_eq (h : Rewrites Q m m') :
    m'.filterMap Segment.found? = m.filterMap Segment.found? := by
  induction h with
  | nil => rfl
  | char _ _ ih => exact ih
  | found i _ ih => exact congrArg (i :: ·) ih
  | piece _ _ ih => rw [filterMap_found?_chars, filterMap_found?_chars, ih]

/-- A rule that touches no mark and recognises the same, whatever words are written for the marks, replaces
the same. -/
theorem exists_rewrites {rule : Finder (List Char)} {word : κ → ι → List Char} (m : List (Segment ι))
    (hchar : ∀ front c back, m = front ++ .char c :: back →
      (∀ k, rule (written (word k) front).reverse (c :: written (word k) back) = none) ∨
      ∃ covered out rest, covered ≠ [] ∧ Q covered out ∧ .char c :: back = covered.map .char ++ rest ∧
        ∀ k, rule (written (word k) front).reverse (c :: written (word k) back) =
          some (out, written (word k) rest))
    (hfound : ∀ front i back, m = front ++ .found i :: back → ∀ k,
      NothingIn rule (written (word k) front).reverse (word k i) (written (word k) back)) :
    ∃ m', Rewrites Q m m' ∧ ∀ k, replaceEach rule (written (word k) m) = written (word k) m' := by
  have hscan : ∀ front back, m = front ++ back → ∃ m', Rewrites Q back m' ∧ ∀ k, ∃ ps,
      Scans rule (written (word k) front).reverse (written (word k) back) ps ∧
        rewritten id ps = written (word k) m' := by
    intro front back
    induction hn : back.length using Nat.strongRecOn generalizing front back with
    | ind n ih =>
      subst hn
      rintro rfl
      rcases back with - | ⟨c | i, back⟩
      · exact ⟨[], .nil, fun k => ⟨[], .nil, rfl⟩⟩
      · rcases hchar front c back rfl with hnone | ⟨covered, out, rest, hne, hpiece, hback, hsome⟩
        · obtain ⟨m', hm', hps⟩ := ih _ (Nat.lt_succ_self _) (front ++ [.char c]) back rfl (by simp)
          refine ⟨.char c :: m', .char c hm', fun k => ?_⟩
          obtain ⟨ps, hps, hout⟩ := hps k
          rw [written_append, written_char, written_nil, List.reverse_append, List.reverse_singleton,
            List.singleton_append] at hps
          exact ⟨.char c :: ps, .char (hnone k) hps, by rw [rewritten_char, hout, written_char]⟩
        · have hlength := congrArg List.length hback
          have := List.length_pos_iff.mpr hne
          rw [List.length_append, List.length_map] at hlength
          obtain ⟨m', hm', hps⟩ := ih rest.length (by omega) (front ++ covered.map .char) rest rfl (by simp [hback])
          rw [hback]
          refine ⟨out.map .char ++ m', .piece hpiece hm', fun k => ?_⟩
          obtain ⟨ps, hps, hout⟩ := hps k
          rw [written_append, written_chars, List.reverse_append] at hps
          have htext : c :: written (word k) back = covered ++ written (word k) rest := by
            rw [← written_char, hback, written_append, written_chars]
          have hfind := hsome k
          rw [htext] at hfind
          rw [written_append, written_chars]
          exact ⟨.found out covered :: ps, .found hne hfind hps,
            by rw [rewritten_found, hout, written_append, written_chars]; rfl⟩
      · obtain ⟨m', hm', hps⟩ := ih _ (Nat.lt_succ_self _) (front ++ [.found i]) back rfl (by simp)
        refine ⟨.found i :: m', .found i hm', fun k => ?_⟩
        obtain ⟨ps, hps, hout⟩ := hps k
        rw [written_append, written_found, written_nil, List.append_nil, List.reverse_append] at hps
        exact ⟨_, .stretch (hfound front i back rfl k) hps,
          by rw [rewritten_append, rewritten_chars, hout, written_found]⟩
  obtain ⟨m', hm', hps⟩ := hscan [] m rfl
  refine ⟨m', hm', fun k => ?_⟩
  obtain ⟨ps, hps, hout⟩ := hps k
  rw [hps.replaceEach_eq, hout]

/-! ## Names between marks -/

variable {P : Char → Prop} {cs : List Char}

/-- What replacements consist of no name starts with. -/
def Foreign (P : Char → Prop) (Q : List Char → List Char → Prop) : Prop :=
  ∀ covered out, Q covered out → out ≠ [] ∧ ∀ c ∈ out, ¬ P c

theorem Rewrites.prefix_of (h : Rewrites Q m m') (hQ : Foreign P Q) (hcs : ∀ c ∈ cs, P c)
    (hpre : cs.map .char <+: m') : cs.map .char <+: m := by
  induction h generalizing cs with
  | nil => exact hpre
  | char c _ ih =>
    rcases cs with - | ⟨d, cs⟩
    · exact List.nil_prefix
    · obtain ⟨heq, hrest⟩ := List.cons_prefix_cons.mp hpre
      exact List.cons_prefix_cons.mpr ⟨heq, ih (fun c hc => hcs c (List.mem_cons_of_mem d hc)) hrest⟩
  | found i _ _ =>
    rcases cs with - | ⟨d, cs⟩
    · exact List.nil_prefix
    · cases (List.cons_prefix_cons.mp hpre).1
  | @piece _ _ covered out hpiece _ _ =>
    rcases cs with - | ⟨d, cs⟩
    · exact List.nil_prefix
    · obtain ⟨hne, hout⟩ := hQ covered out hpiece
      obtain ⟨o, out, rfl⟩ := List.exists_cons_of_ne_nil hne
      obtain rfl : d = o := Segment.char.inj (List.cons_prefix_cons.mp hpre).1
      exact absurd (hcs d List.mem_cons_self) (hout d List.mem_cons_self)

theorem infix_of_chars_append {out : List Char} (hne : cs ≠ []) (hcs : ∀ c ∈ cs, P c) (hout : ∀ c ∈ out, ¬ P c)
    (h : cs.map .char <:+: out.map .char ++ m) : cs.map .char <:+: m := by
  induction out with
  | nil => exact h
  | cons o out ih =>
    obtain ⟨ho, hout⟩ := List.forall_mem_cons.mp hout
    rcases List.infix_cons_iff.mp h with hpre | hocc
    · obtain ⟨d, cs, rfl⟩ := List.exists_cons_of_ne_nil hne
      obtain rfl : d = o := Segment.char.inj (List.cons_prefix_cons.mp hpre).1
      exact absurd (hcs d List.mem_cons_self) ho
    · exact ih hout hocc

/-- A name that occurs between marks occurred there before, if replacements have no character of names. -/
theorem Rewrites.infix_of (h : Rewrites Q m m') (hQ : Foreign P Q) (hne : cs ≠ []) (hcs : ∀ c ∈ cs, P c)
    (hocc : cs.map .char <:+: m') : cs.map .char <:+: m := by
  induction h with
  | nil => exact hocc
  | char c h ih =>
    rcases List.infix_cons_iff.mp hocc with hpre | hocc
    · exact ((Rewrites.char c h).prefix_of hQ hcs hpre).isInfix
    · exact (ih hocc).trans (List.suffix_cons _ _).isInfix
  | found i h ih =>
    rcases List.infix_cons_iff.mp hocc with hpre | hocc
    · exact ((Rewrites.found i h).prefix_of hQ hcs hpre).isInfix
    · exact (ih hocc).trans (List.suffix_cons _ _).isInfix
  | piece hpiece _ ih =>
    exact (ih (infix_of_chars_append hne hcs (hQ _ _ hpiece).2 hocc)).trans (List.suffix_append _ _).isInfix

end

end RangeCalc.Text
