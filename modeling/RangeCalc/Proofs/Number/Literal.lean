import Mathlib.Data.List.TakeDrop
import Mathlib.Data.List.TakeWhile
import RangeCalc.Number.Literal

/-!
# Unsigned literals

    NUMBER: (digits ["." [digits]] | "." digits) [("e" | "E") ["+" | "-"] digits]

Digits are those of any script.

* `IsNumber`: the literals;
* `Front`: the longest part at the front of a text that has a property;
* `readsFront_spanLiteral?`: a literal is read as far as it goes.
-/

namespace RangeCalc

open Text

/-- One or more digits. -/
def IsDigits (cs : List Char) : Prop :=
  cs ≠ [] ∧ ∀ c ∈ cs, isDigit c = true

inductive IsMantissa : List Char → Prop where
  | whole {w : List Char} (hw : IsDigits w) : IsMantissa w
  | point {w places : List Char} (hw : IsDigits w) (hp : ∀ c ∈ places, isDigit c = true) :
      IsMantissa (w ++ '.' :: places)
  | fraction {places : List Char} (hp : IsDigits places) : IsMantissa ('.' :: places)

inductive IsExponent : List Char → Prop where
  | intro {e : Char} {sign ds : List Char} (he : e = 'e' ∨ e = 'E')
      (hs : sign = [] ∨ sign = ['+'] ∨ sign = ['-']) (hd : IsDigits ds) : IsExponent (e :: (sign ++ ds))

/-- An unsigned literal. -/
inductive IsNumber : List Char → Prop where
  | mantissa {m : List Char} (hm : IsMantissa m) : IsNumber m
  | scientific {m e : List Char} (hm : IsMantissa m) (he : IsExponent e) : IsNumber (m ++ e)

/-- A text splits into its longest front with a property and the rest. -/
structure Front (P : List Char → Prop) (text front rest : List Char) : Prop where
  holds : P front
  split : text = front ++ rest
  longest : ∀ other, P other → other <+: text → other.length ≤ front.length

/-- No front of the text has the property. -/
def NoFront (P : List Char → Prop) (text : List Char) : Prop :=
  ∀ front, P front → ¬ front <+: text

theorem Front.unique {P : List Char → Prop} {text front rest front' rest' : List Char}
    (h : Front P text front rest) (h' : Front P text front' rest') : front = front' ∧ rest = rest' := by
  have hsplit : front ++ rest = front' ++ rest' := h.split.symm.trans h'.split
  have hlength : front.length = front'.length :=
    Nat.le_antisymm (h'.longest front h.holds ⟨rest, h.split.symm⟩)
      (h.longest front' h'.holds ⟨rest', h'.split.symm⟩)
  exact List.append_inj hsplit hlength

theorem Front.not_noFront {P : List Char → Prop} {text front rest : List Char}
    (h : Front P text front rest) : ¬ NoFront P text :=
  fun hno => hno front h.holds ⟨rest, h.split.symm⟩

/-- A front is the longest one if no other has the character after it. -/
theorem Front.of_stop {P : List Char → Prop} {front rest : List Char} (h : P front)
    (hstop : ∀ x, rest.head? = some x → ∀ other, P other → x ∉ other) :
    Front P (front ++ rest) front rest := by
  refine ⟨h, rfl, fun other hother hpre => ?_⟩
  obtain ⟨tail, htail⟩ := hpre
  by_contra hlt
  rcases rest with - | ⟨x, rest⟩
  · have := congrArg List.length htail
    simp only [List.append_nil, List.length_append] at this
    omega
  · have hget := congrArg (·[front.length]?) htail
    simp only [List.getElem?_append_left (show front.length < other.length by omega),
      List.getElem?_append_right (Nat.le_refl _), Nat.sub_self, List.getElem?_cons_zero] at hget
    exact hstop x rfl other hother (List.mem_of_getElem? hget)

/-- A reader that takes the longest front with a property, or nothing if there is none. -/
def ReadsFront (P : List Char → Prop) (read : List Char → Option (List Char × List Char)) : Prop :=
  ∀ cs, (∀ front rest, read cs = some (front, rest) → Front P cs front rest) ∧
    (read cs = none → NoFront P cs)

section

variable {P : List Char → Prop} {read : List Char → Option (List Char × List Char)}
  {cs front rest : List Char}

theorem ReadsFront.eq_some_iff (h : ReadsFront P read) :
    read cs = some (front, rest) ↔ Front P cs front rest := by
  obtain ⟨hsome, hnone⟩ := h cs
  refine ⟨hsome front rest, fun hfront => ?_⟩
  cases hread : read cs with
  | none => exact absurd (hnone hread) hfront.not_noFront
  | some result =>
    obtain ⟨rfl, rfl⟩ := (hsome _ _ hread).unique hfront
    rfl

theorem ReadsFront.eq_none_iff (h : ReadsFront P read) : read cs = none ↔ NoFront P cs := by
  obtain ⟨hsome, hnone⟩ := h cs
  refine ⟨hnone, fun hno => ?_⟩
  cases hread : read cs with
  | none => rfl
  | some result => exact absurd hno (hsome _ _ hread).not_noFront

end

/-! ## Digits -/

theorem not_isDigit_point : isDigit '.' = false := by decide +kernel

theorem not_isDigit_sign {c : Char} (h : c = '+' ∨ c = '-') : isDigit c = false := by
  rcases h with rfl | rfl <;> decide +kernel

theorem not_isDigit_of_letter {c : Char} (h : c = 'e' ∨ c = 'E') : isDigit c = false := by
  rcases h with rfl | rfl <;> decide +kernel

theorem takeWhile_append_stop {α : Type} {p : α → Bool} {ds rest : List α} {x : α}
    (hd : ∀ c ∈ ds, p c = true) (hx : p x = false) : (ds ++ x :: rest).takeWhile p = ds := by
  rw [List.takeWhile_append_of_pos hd, List.takeWhile_cons_of_neg (by simp [hx]), List.append_nil]

theorem dropWhile_append_stop {α : Type} {p : α → Bool} {ds rest : List α} {x : α}
    (hd : ∀ c ∈ ds, p c = true) (hx : p x = false) : (ds ++ x :: rest).dropWhile p = x :: rest := by
  rw [List.dropWhile_append_of_pos hd, List.dropWhile_cons_of_neg (by simp [hx])]

theorem prefix_takeWhile {α : Type} {p : α → Bool} {ds cs : List α} (hd : ∀ c ∈ ds, p c = true)
    (h : ds <+: cs) : ds <+: cs.takeWhile p := by
  obtain ⟨rest, rfl⟩ := h
  rw [List.takeWhile_append_of_pos hd]
  exact List.prefix_append ..

theorem isDigits_takeWhile {cs : List Char} (h : cs.takeWhile isDigit ≠ []) :
    IsDigits (cs.takeWhile isDigit) :=
  ⟨h, fun _ hc => List.mem_takeWhile_imp hc⟩

/-! ## Mantissas -/

theorem IsMantissa.at_front {m cs : List Char} (hm : IsMantissa m) (h : m <+: cs) :
    (cs.takeWhile isDigit ≠ [] ∧ m <+: cs.takeWhile isDigit) ∨
      ∃ places rest, m = cs.takeWhile isDigit ++ '.' :: places ∧ cs.dropWhile isDigit = '.' :: rest ∧
        places <+: rest.takeWhile isDigit ∧ (cs.takeWhile isDigit ≠ [] ∨ places ≠ []) := by
  cases hm with
  | whole hw =>
    have hpre := prefix_takeWhile hw.2 h
    exact .inl ⟨fun hnil => hw.1 (List.prefix_nil.mp (hnil ▸ hpre)), hpre⟩
  | @point w places hw hp =>
    obtain ⟨rest, rfl⟩ := h
    rw [List.append_assoc, List.cons_append, takeWhile_append_stop hw.2 not_isDigit_point,
      dropWhile_append_stop hw.2 not_isDigit_point]
    exact .inr ⟨places, _, rfl, rfl, prefix_takeWhile hp (List.prefix_append ..), .inl hw.1⟩
  | @fraction places hp =>
    obtain ⟨rest, rfl⟩ := h
    rw [List.cons_append, List.takeWhile_cons_of_neg (by simp [not_isDigit_point]),
      List.dropWhile_cons_of_neg (by simp [not_isDigit_point])]
    exact .inr ⟨places, _, rfl, rfl, prefix_takeWhile hp.2 (List.prefix_append ..), .inr hp.1⟩

/-- A mantissa is read as far as it goes. -/
theorem readsFront_spanMantissa? : ReadsFront IsMantissa spanMantissa? := by
  intro cs
  have hcs : cs.takeWhile isDigit ++ cs.dropWhile isDigit = cs := List.takeWhile_append_dropWhile
  simp only [spanMantissa?, List.span_eq_takeWhile_dropWhile]
  split
  · rename_i rest heq
    obtain ⟨hw, hr⟩ := Prod.mk.inj heq
    rw [hw, hr] at hcs
    split
    · rename_i hp
      refine ⟨by simp, fun _ m hm h => ?_⟩
      rcases hm.at_front h with ⟨hne, -⟩ | ⟨places, rest', -, hr', hpre, hne⟩
      · exact hne hw
      · rw [hr, List.cons.injEq] at hr'
        rw [← hr'.2, (Prod.mk.inj hp).1] at hpre
        exact hne.elim (· hw) (· (List.prefix_nil.mp hpre))
    · rename_i places after hne hp
      obtain ⟨rfl, rfl⟩ := Prod.mk.inj hp
      refine ⟨fun m rest' h => ?_, by simp⟩
      simp only [Option.some.injEq, Prod.mk.injEq] at h
      obtain ⟨rfl, rfl⟩ := h
      refine ⟨.fraction (isDigits_takeWhile hne), ?_, fun m hm h => ?_⟩
      · rw [List.cons_append, List.takeWhile_append_dropWhile]
        exact hcs.symm
      · rcases hm.at_front h with ⟨hne, -⟩ | ⟨places, rest', rfl, hr', hpre, -⟩
        · exact absurd hw hne
        · rw [hr, List.cons.injEq] at hr'
          have := hpre.length_le
          simp only [hw, hr'.2, List.nil_append, List.length_cons]
          omega
  · rename_i r hr heq
    obtain ⟨hw, rfl⟩ := Prod.mk.inj heq
    refine ⟨by simp, fun _ m hm h => ?_⟩
    rcases hm.at_front h with ⟨hne, -⟩ | ⟨places, rest', -, hr', -, -⟩
    · exact hne hw
    · exact hr _ hr'
  · rename_i w rest hne heq
    obtain ⟨rfl, hr⟩ := Prod.mk.inj heq
    refine ⟨fun m rest' h => ?_, by simp⟩
    simp only [Option.some.injEq, Prod.mk.injEq] at h
    obtain ⟨rfl, rfl⟩ := h
    refine ⟨.point (isDigits_takeWhile hne) fun _ hc => List.mem_takeWhile_imp hc, ?_, fun m hm h => ?_⟩
    · rw [List.append_assoc, List.cons_append, List.takeWhile_append_dropWhile, ← hr]
      exact hcs.symm
    · rcases hm.at_front h with ⟨-, hpre⟩ | ⟨places, rest', rfl, hr', hpre, -⟩
      · have := hpre.length_le
        simp only [List.length_append]
        omega
      · rw [hr, List.cons.injEq] at hr'
        have := hpre.length_le
        simp only [hr'.2, List.length_append, List.length_cons]
        omega
  · rename_i w r _ hne hr heq
    obtain ⟨rfl, rfl⟩ := Prod.mk.inj heq
    refine ⟨fun m rest' h => ?_, by simp⟩
    simp only [Option.some.injEq, Prod.mk.injEq] at h
    obtain ⟨rfl, rfl⟩ := h
    refine ⟨.whole (isDigits_takeWhile hne), hcs.symm, fun m hm h => ?_⟩
    rcases hm.at_front h with ⟨-, hpre⟩ | ⟨places, rest', -, hr', -, -⟩
    · exact hpre.length_le
    · exact absurd hr' (hr _)

/-! ## Exponents -/

/-- The sign before the digits of an exponent, if any, and the rest. -/
def exponentSign : List Char → List Char × List Char
  | '+' :: tail => (['+'], tail)
  | '-' :: tail => (['-'], tail)
  | tail => ([], tail)

theorem exponentSign_split (rest : List Char) :
    rest = (exponentSign rest).1 ++ (exponentSign rest).2 ∧
      ((exponentSign rest).1 = [] ∨ (exponentSign rest).1 = ['+'] ∨ (exponentSign rest).1 = ['-']) := by
  rw [exponentSign.eq_def]
  split <;> simp

theorem exponentSign_of_not_sign {c : Char} (h : ¬ (c = '+' ∨ c = '-')) (tail : List Char) :
    exponentSign (c :: tail) = ([], c :: tail) := by
  rw [exponentSign.eq_def]
  split <;> simp_all

/-- After its letter and sign an exponent takes digits as far as they go. -/
theorem spanExponent_letter {e : Char} (he : e = 'e' ∨ e = 'E') (rest : List Char) :
    spanExponent (e :: rest) =
      if (exponentSign rest).2.takeWhile isDigit = [] then ([], e :: rest)
      else (e :: ((exponentSign rest).1 ++ (exponentSign rest).2.takeWhile isDigit),
        (exponentSign rest).2.dropWhile isDigit) := by
  have hspan := List.span_eq_takeWhile_dropWhile isDigit (exponentSign rest).2
  rw [spanExponent.eq_def]
  dsimp only
  rw [if_pos he]
  split
  next heq =>
    obtain ⟨hdigits, -⟩ := Prod.mk.inj (hspan.symm.trans heq)
    rw [if_pos hdigits]
  next hdigits heq =>
    obtain ⟨rfl, rfl⟩ := Prod.mk.inj (hspan.symm.trans heq)
    rw [if_neg hdigits]
    rfl

theorem spanExponent_of_not_letter {e : Char} (he : ¬ (e = 'e' ∨ e = 'E')) (rest : List Char) :
    spanExponent (e :: rest) = ([], e :: rest) := by
  simp only [spanExponent, he, if_false]

theorem IsExponent.at_front {x rest : List Char} {e : Char} (hx : IsExponent x) (h : x <+: e :: rest) :
    ∃ ds, x = e :: ((exponentSign rest).1 ++ ds) ∧ ds ≠ [] ∧
      ds <+: (exponentSign rest).2.takeWhile isDigit := by
  cases hx with
  | @intro e' sign ds he hs hd =>
    obtain ⟨rfl, tail, rfl⟩ := List.cons_prefix_cons.mp h
    have hsign : exponentSign (sign ++ ds ++ tail) = (sign, ds ++ tail) := by
      obtain ⟨d, ds, rfl⟩ := List.exists_cons_of_ne_nil hd.1
      have hdigit := hd.2 d (List.mem_cons_self ..)
      rcases hs with rfl | rfl | rfl
      · refine exponentSign_of_not_sign (fun h => ?_) _
        rw [not_isDigit_sign h] at hdigit
        cases hdigit
      · rfl
      · rfl
    rw [hsign]
    exact ⟨ds, rfl, hd.1, prefix_takeWhile hd.2 (List.prefix_append ..)⟩

/-- An exponent is read as far as it goes. -/
theorem spanExponent_spec (cs : List Char) :
    (spanExponent cs = ([], cs) ∧ NoFront IsExponent cs) ∨
      Front IsExponent cs (spanExponent cs).1 (spanExponent cs).2 := by
  rcases cs with - | ⟨e, rest⟩
  · refine .inl ⟨rfl, fun x hx h => ?_⟩
    cases hx
    simp at h
  by_cases he : e = 'e' ∨ e = 'E'
  · obtain ⟨hsplit, hs⟩ := exponentSign_split rest
    rw [spanExponent_letter he]
    split
    · rename_i hd
      refine .inl ⟨rfl, fun x hx h => ?_⟩
      obtain ⟨ds, -, hne, hpre⟩ := hx.at_front h
      exact hne (List.prefix_nil.mp (hd ▸ hpre))
    · rename_i hd
      refine .inr ⟨.intro he hs (isDigits_takeWhile hd), ?_, fun x hx h => ?_⟩
      · rw [List.cons_append, List.append_assoc, List.takeWhile_append_dropWhile, ← hsplit]
      · obtain ⟨ds, rfl, -, hpre⟩ := hx.at_front h
        have := hpre.length_le
        simp only [List.length_cons, List.length_append]
        omega
  · refine .inl ⟨spanExponent_of_not_letter he rest, fun x hx h => ?_⟩
    cases hx with
    | intro he' _ _ => exact he ((List.cons_prefix_cons.mp h).1 ▸ he')

/-! ## Literals -/

theorem IsMantissa.ne_nil {m : List Char} (hm : IsMantissa m) : m ≠ [] := by
  cases hm with
  | whole hw => exact hw.1
  | point hw hp => simp
  | fraction hp => simp

theorem IsNumber.ne_nil {l : List Char} (hl : IsNumber l) : l ≠ [] := by
  cases hl with
  | mantissa hm => exact hm.ne_nil
  | scientific hm hx => exact List.append_ne_nil_of_left_ne_nil hm.ne_nil _

/-- A mantissa has no letters. -/
theorem IsMantissa.mem {m : List Char} (hm : IsMantissa m) {c : Char} (hc : c ∈ m) :
    isDigit c = true ∨ c = '.' := by
  cases hm with
  | whole hw => exact .inl (hw.2 c hc)
  | point hw hp =>
    rcases List.mem_append.mp hc with hc | hc
    · exact .inl (hw.2 c hc)
    · rcases List.mem_cons.mp hc with rfl | hc
      · exact .inr rfl
      · exact .inl (hp c hc)
  | fraction hp =>
    rcases List.mem_cons.mp hc with rfl | hc
    · exact .inr rfl
    · exact .inl (hp.2 c hc)

/-- What a literal is made of. -/
theorem IsNumber.mem {l : List Char} (hl : IsNumber l) {c : Char} (hc : c ∈ l) :
    (isDigit c = true ∨ c = '.') ∨ (c = 'e' ∨ c = 'E') ∨ (c = '+' ∨ c = '-') := by
  cases hl with
  | mantissa hm => exact .inl (hm.mem hc)
  | @scientific m _ hm hx =>
    obtain ⟨he, hs, hd⟩ := hx
    rename_i e sign ds
    simp only [List.mem_append, List.mem_cons] at hc
    rcases hc with hc | rfl | hc | hc
    · exact .inl (hm.mem hc)
    · exact .inr (.inl he)
    · rcases hs with rfl | rfl | rfl <;> simp at hc
      · exact .inr (.inr (.inl hc))
      · exact .inr (.inr (.inr hc))
    · exact .inl (.inl (hd.2 c hc))

def isNumberStart (c : Char) : Bool :=
  isDigit c || c == '.'

theorem not_isNumber_cons {c : Char} {rest : List Char} (h : isNumberStart c = false) :
    ¬ IsNumber (c :: rest) := by
  have hmantissa : ∀ m tail, IsMantissa m → m ++ tail ≠ c :: rest := by
    intro m tail hm heq
    obtain ⟨d, m, rfl⟩ := List.exists_cons_of_ne_nil hm.ne_nil
    obtain ⟨rfl, -⟩ := List.cons.inj heq
    rcases hm.mem (List.mem_cons_self ..) with hd | rfl
    · simp [isNumberStart, hd] at h
    · exact absurd h (by decide)
  intro hl
  generalize heq : c :: rest = l at hl
  cases hl with
  | mantissa hm => exact hmantissa l [] hm (by rw [heq, List.append_nil])
  | scientific hm hx => exact hmantissa _ _ hm heq.symm

theorem IsExponent.head {x : List Char} (hx : IsExponent x) :
    ∃ e tail, x = e :: tail ∧ (e = 'e' ∨ e = 'E') := by
  cases hx with
  | intro he _ _ => exact ⟨_, _, rfl, he⟩

/-- Where a mantissa with an exponent stands at the front, the mantissa is the longest one. -/
theorem Front.eq_of_exponent {cs m rest m' x : List Char} (h : Front IsMantissa cs m rest)
    (hm' : IsMantissa m') (hx : IsExponent x) (hpre : m' ++ x <+: cs) : m' = m ∧ x <+: rest := by
  obtain ⟨tail, rfl⟩ := hpre
  obtain ⟨e, x, rfl, he⟩ := hx.head
  have hle := h.longest m' hm' (by simp)
  have hlength : m'.length = m.length := by
    by_contra hne
    have hget : m[m'.length]? = some e := by
      have := congrArg (·[m'.length]?) h.split
      simpa [List.getElem?_append_left (show m'.length < m.length by omega)] using this.symm
    rcases h.holds.mem (List.mem_of_getElem? hget) with hd | rfl
    · rw [not_isDigit_of_letter he] at hd
      cases hd
    · exact absurd he (by decide)
  obtain ⟨rfl, rfl⟩ := List.append_inj ((List.append_assoc ..).symm.trans h.split) hlength
  exact ⟨rfl, List.prefix_append ..⟩

/-- A literal is read as far as it goes. -/
theorem readsFront_spanLiteral? : ReadsFront IsNumber spanLiteral? := by
  intro cs
  obtain ⟨hsome, hnone⟩ := readsFront_spanMantissa? cs
  rw [spanLiteral?]
  cases hm : spanMantissa? cs with
  | none =>
    refine ⟨by simp, fun _ l hl h => ?_⟩
    cases hl with
    | mantissa hm' => exact hnone hm l hm' h
    | scientific hm' hx => exact hnone hm _ hm' ((List.prefix_append ..).trans h)
  | some result =>
    obtain ⟨m, after⟩ := result
    have hfront := hsome m after hm
    refine ⟨fun l rest h => ?_, by simp⟩
    simp only [Option.map_some, Option.some.injEq, Prod.mk.injEq] at h
    obtain ⟨rfl, rfl⟩ := h
    rcases spanExponent_spec after with ⟨hx, hno⟩ | hx
    · rw [hx, List.append_nil]
      refine ⟨.mantissa hfront.holds, hfront.split, fun l hl h => ?_⟩
      cases hl with
      | mantissa hm' => exact hfront.longest l hm' h
      | scientific hm' hx' => exact absurd (hfront.eq_of_exponent hm' hx' h).2 (hno _ hx')
    · refine ⟨.scientific hfront.holds hx.holds, ?_, fun l hl h => ?_⟩
      · rw [List.append_assoc, ← hx.split]
        exact hfront.split
      · cases hl with
        | mantissa hm' =>
          have := hfront.longest l hm' h
          simp only [List.length_append]
          omega
        | scientific hm' hx' =>
          obtain ⟨rfl, hpre⟩ := hfront.eq_of_exponent hm' hx' h
          have := hx.longest _ hx' hpre
          simp only [List.length_append]
          omega

end RangeCalc
