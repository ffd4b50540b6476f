import RangeCalc.Proofs.Number.Literal
import RangeCalc.Proofs.Number.Plain
import RangeCalc.Proofs.Number.Shortest
import RangeCalc.Proofs.Number.Unsigned

/-!
# The text of a number reads back

A finite number that is not negative is written as a literal, and the literal stands for that number.

* `Text.natOfDigits_append`: the number that digits denote;
* `literalDecimal`, `Denotes`: the decimal that a literal stands for, and literals of a given value;
* `denoted`: the number that a text denotes, with its sign;
* `Numeral.denotes_natural`: the text of a numeral, with and without an exponent, is a literal of its value;
* `literalValue_numberText`: the text of a number is a literal of that number.
-/

namespace RangeCalc

open Text

/-! ## Runs of digits -/

namespace Text

theorem natOfDigits_append (cs ds : List Char) :
    natOfDigits (cs ++ ds) = natOfDigits cs * 10 ^ ds.length + natOfDigits ds := by
  have hfold : ∀ ds n, ds.foldl (fun n c => 10 * n + (digitValue? c).getD 0) n =
      n * 10 ^ ds.length + natOfDigits ds := by
    intro ds
    induction ds with
    | nil => exact fun n => (Nat.mul_one n).symm
    | cons d ds ih =>
      intro n
      rw [natOfDigits, List.foldl_cons, List.foldl_cons, ih, ih, List.length_cons, Nat.pow_succ]
      ring
  rw [natOfDigits, List.foldl_append, hfold]
  rfl

theorem natOfDigits_zeros (n : Nat) : natOfDigits (List.replicate n '0') = 0 := by
  induction n with
  | zero => rfl
  | succ n ih =>
    rw [List.replicate_succ', natOfDigits_append, ih]
    rfl

theorem digitValue?_of_isDigit {c : Char} (h : c.isDigit = true) : digitValue? c = some (c.toNat - 48) := by
  simp only [Char.isDigit, Bool.and_eq_true, decide_eq_true_eq, UInt32.le_iff_toNat_le] at h
  exact if_pos h

theorem isDigit_of_isDigit {c : Char} (h : c.isDigit = true) : isDigit c = true := by
  rw [isDigit, digitValue?_of_isDigit h]
  rfl

end Text

theorem IsDigits.of_isDigit {ds : List Char} (hne : ds ≠ []) (h : ∀ c ∈ ds, c.isDigit = true) : IsDigits ds :=
  ⟨hne, fun c hc => isDigit_of_isDigit (h c hc)⟩

/-- The digits of a number denote it. -/
theorem natOfDigits_digitChars (n : Nat) : natOfDigits (digitChars n) = n := by
  have hfold : ∀ cs : List Char, (∀ c ∈ cs, c.isDigit = true) →
      natOfDigits cs = Nat.ofDigitChars 10 cs 0 := by
    intro cs hcs
    induction cs using List.reverseRecOn with
    | nil => rfl
    | append_singleton cs c ih =>
      obtain ⟨hcs, hc⟩ := List.forall_mem_append.mp hcs
      rw [natOfDigits_append, Nat.ofDigitChars_append, ih hcs]
      simp [natOfDigits, Nat.ofDigitChars, digitValue?_of_isDigit (hc c (List.mem_singleton_self c)),
        Nat.mul_comm]
  rw [hfold _ isDigit_of_mem_digitChars]
  exact Nat.ofDigitChars_ten_toDigits

/-- Zeros at the end count as powers of ten. -/
theorem dropTrailingZeros_spec {cs : List Char} (h : cs ≠ []) :
    (dropTrailingZeros cs).length ≤ cs.length ∧
      natOfDigits cs =
        natOfDigits (dropTrailingZeros cs) * 10 ^ (cs.length - (dropTrailingZeros cs).length) := by
  have hsplit : cs = (cs.reverse.dropWhile (· == '0')).reverse ++
      List.replicate (cs.reverse.takeWhile (· == '0')).length '0' := by
    have hzeros : cs.reverse.takeWhile (· == '0') =
        List.replicate (cs.reverse.takeWhile (· == '0')).length '0' :=
      List.eq_replicate_of_mem fun c hc => by simpa using List.mem_takeWhile_imp hc
    rw [← List.reverse_replicate, ← hzeros, ← List.reverse_append, List.takeWhile_append_dropWhile,
      List.reverse_reverse]
  generalize (cs.reverse.takeWhile (· == '0')).length = n at hsplit
  rw [dropTrailingZeros]
  split
  next hkept =>
    rw [hkept, List.nil_append] at hsplit
    subst hsplit
    refine ⟨List.length_pos_iff.mpr h, ?_⟩
    rw [natOfDigits_zeros]
    exact (Nat.zero_mul _).symm
  next hkept =>
    generalize (cs.reverse.dropWhile (· == '0')).reverse = kept at hsplit
    subst hsplit
    simp [natOfDigits_append, natOfDigits_zeros]

/-! ## Literals of a decimal value -/

/-- The decimal that a literal stands for. -/
def literalDecimal (cs : List Char) : Decimal :=
  let (whole, rest) := cs.span isDigit
  let (places, exponent) :=
    match rest with
    | '.' :: tail => tail.span isDigit
    | tail => ([], tail)
  ⟨natOfDigits (whole ++ places), exponentValue exponent - places.length⟩

/-- A literal is read as the number nearest to its decimal. -/
theorem literalValue_eq (cs : List Char) :
    literalValue cs = nearestDecimal (literalDecimal cs).digits (literalDecimal cs).exponent := rfl

/-- A text that is a literal of a decimal value. -/
structure Denotes (cs : List Char) (q : ℚ) : Prop where
  literal : IsNumber cs
  value : (literalDecimal cs).value = q

/-- It is read as the number nearest to that value. -/
theorem Denotes.nearest {cs : List Char} {q : ℚ} (h : Denotes cs q) :
    ∃ digits exponent, literalValue cs = nearestDecimal digits exponent ∧ (digits : ℚ) * 10 ^ exponent = q :=
  ⟨_, _, literalValue_eq cs, h.value⟩

/-- The number that a literal denotes, perhaps with a minus before it. -/
def denoted : List Char → ℚ
  | '-' :: l => -(literalDecimal l).value
  | l => (literalDecimal l).value

theorem Denotes.denoted_eq {cs : List Char} {q : ℚ} (h : Denotes cs q) : denoted cs = q := by
  rw [denoted.eq_def]
  split
  · exact absurd h.literal (not_isNumber_cons (by decide))
  · exact h.value

/-- The sign of a number is that of its text. -/
theorem Denotes.denoted_signed {cs : List Char} {q : ℚ} (h : Denotes cs q) (x : Float) :
    denoted (signed x cs) = if Binary64.isNegative x then -q else q := by
  rw [signed]
  split
  · rw [denoted, h.value]
  · exact h.denoted_eq

section

variable {w places ds rest : List Char}

theorem span_isDigit (hds : ∀ c ∈ ds, isDigit c = true) (hrest : ∀ c ∈ rest.head?, isDigit c = false) :
    (ds ++ rest).span isDigit = (ds, rest) := by
  rw [List.span_eq_takeWhile_dropWhile]
  rcases rest with - | ⟨c, rest⟩
  · rw [List.append_nil, List.takeWhile_eq_self_iff.mpr hds, List.dropWhile_eq_nil_iff.mpr hds]
  · have hc := hrest c rfl
    rw [takeWhile_append_stop hds hc, dropWhile_append_stop hds hc]

/-- An exponent, or nothing. -/
def IsExponentOrNil (ex : List Char) : Prop :=
  ex = [] ∨ ∃ tail, ex = 'e' :: tail

variable {ex : List Char} (hex : IsExponentOrNil ex) (hw : ∀ c ∈ w, isDigit c = true)

include hex

theorem IsExponentOrNil.head : ∀ c ∈ ex.head?, isDigit c = false := by
  rcases hex with rfl | ⟨tail, rfl⟩
  · exact nofun
  · rintro c ⟨⟩
    exact not_isDigit_of_letter (.inl rfl)

include hw

theorem literalDecimal_whole : literalDecimal (w ++ ex) = ⟨natOfDigits w, exponentValue ex⟩ := by
  rw [literalDecimal, span_isDigit hw hex.head]
  rcases hex with rfl | ⟨tail, rfl⟩ <;> simp

theorem literalDecimal_point (hp : ∀ c ∈ places, isDigit c = true) :
    literalDecimal (w ++ '.' :: (places ++ ex)) =
      ⟨natOfDigits (w ++ places), exponentValue ex - places.length⟩ := by
  have hpoint : ∀ c ∈ ('.' :: (places ++ ex)).head?, isDigit c = false := by
    rintro c ⟨⟩
    exact not_isDigit_point
  simp only [literalDecimal, span_isDigit hw hpoint, span_isDigit hp hex.head]

end

/-! ## Numerals -/

namespace Numeral

/-- The number that a numeral denotes. -/
def value (x : Numeral) : ℚ := natOfDigits x.digits * 10 ^ (x.point - x.digits.length)

theorem value_ofDecimal (d : Decimal) : (ofDecimal d).value = d.value := by
  obtain ⟨hle, hdigits⟩ := dropTrailingZeros_spec (show digitChars d.digits ≠ [] from Nat.toDigits_ne_nil)
  rw [natOfDigits_digitChars] at hdigits
  simp only [value, ofDecimal, Decimal.value]
  generalize (digitChars d.digits).length = n at hle hdigits ⊢
  generalize dropTrailingZeros (digitChars d.digits) = kept at hle hdigits ⊢
  rw [show d.exponent + n - kept.length = (n - kept.length : Nat) + d.exponent by omega,
    zpow_add₀ (by norm_num), zpow_natCast, hdigits]
  push_cast
  ring

/-- The digits around the point. -/
theorem value_eq_places (x : Numeral) :
    (natOfDigits (x.whole ++ x.fraction) : ℚ) * 10 ^ (-(x.fraction.length : Int)) = x.value := by
  rw [value, whole, fraction]
  by_cases hpoint : x.point ≤ 0
  · rw [if_pos hpoint, if_pos hpoint]
    by_cases hzero : x.digits = ['0']
    · simp [hzero, natOfDigits, digitValue?]
    · have hzeros : natOfDigits (['0'] ++ List.replicate (-x.point).toNat '0') = 0 :=
        natOfDigits_zeros ((-x.point).toNat + 1)
      rw [if_neg hzero, ← List.append_assoc, natOfDigits_append, hzeros, Nat.zero_mul, Nat.zero_add,
        List.length_append, List.length_replicate]
      congr 2
      omega
  · rw [if_neg hpoint, if_neg hpoint]
    dsimp only
    rcases Nat.le_total x.digits.length x.point.toNat with hle | hle
    · rw [List.take_of_length_le hle, List.drop_of_length_le hle, List.append_nil, natOfDigits_append,
        natOfDigits_zeros, List.length_replicate, Nat.add_zero,
        show x.point - x.digits.length = ((x.point.toNat - x.digits.length : Nat) : Int) by omega,
        zpow_natCast]
      simp
    · rw [Nat.sub_eq_zero_of_le hle, List.replicate_zero, List.append_nil, List.take_append_drop,
        List.length_drop]
      congr 2
      omega

/-- The exponent of the scientific form. -/
theorem exponent_spec (e : Int) : ∃ sign ds,
    (if e < 0 then '-' else '+') ::
      (if (digitChars e.natAbs).length < 2 then '0' :: digitChars e.natAbs else digitChars e.natAbs) =
        sign ++ ds ∧
      (sign = [] ∨ sign = ['+'] ∨ sign = ['-']) ∧ IsDigits ds ∧ exponentValue ('e' :: (sign ++ ds)) = e := by
  obtain ⟨ds, hds, hdigits, hvalue⟩ : ∃ ds,
      (if (digitChars e.natAbs).length < 2 then '0' :: digitChars e.natAbs else digitChars e.natAbs) = ds ∧
        IsDigits ds ∧ natOfDigits ds = e.natAbs := by
    have hdigit : ∀ c ∈ digitChars e.natAbs, isDigit c = true :=
      fun c hc => isDigit_of_isDigit (isDigit_of_mem_digitChars c hc)
    have hvalue := natOfDigits_digitChars e.natAbs
    split
    · exact ⟨_, rfl, ⟨List.cons_ne_nil _ _, List.forall_mem_cons.mpr ⟨by decide, hdigit⟩⟩, hvalue⟩
    · exact ⟨_, rfl, ⟨Nat.toDigits_ne_nil, hdigit⟩, hvalue⟩
  rw [hds]
  by_cases he : e < 0
  · refine ⟨['-'], ds, by rw [if_pos he]; rfl, .inr (.inr rfl), hdigits, ?_⟩
    show -(natOfDigits ds : Int) = e
    omega
  · refine ⟨['+'], ds, by rw [if_neg he]; rfl, .inr (.inl rfl), hdigits, ?_⟩
    show (natOfDigits ds : Int) = e
    omega

section

variable {x : Numeral} (hdigits : ∀ c ∈ x.digits, c.isDigit = true) (hne : x.digits ≠ [])

include hdigits hne

theorem isDigits_whole : IsDigits x.whole := by
  refine .of_isDigit ?_ (isDigit_of_mem_whole hdigits)
  rw [whole]
  split
  · exact List.cons_ne_nil _ _
  · have := List.length_pos_iff.mpr hne
    rw [← List.length_pos_iff]
    simp only [List.length_append, List.length_take, List.length_replicate]
    omega

theorem denotes_positional : Denotes x.positional x.value := by
  obtain ⟨places, hplaces, hp, hvalue⟩ : ∃ places, x.positional = x.whole ++ '.' :: places ∧
      (∀ c ∈ places, isDigit c = true) ∧
      (natOfDigits (x.whole ++ places) : ℚ) * 10 ^ (-(places.length : Int)) = x.value := by
    have hvalue := x.value_eq_places
    have hfraction := isDigit_of_mem_fraction hdigits
    rw [positional]
    split
    next hnil =>
      refine ⟨['0'], rfl, List.forall_mem_singleton.mpr (by decide), ?_⟩
      rw [← hvalue, hnil, natOfDigits_append]
      simp [natOfDigits, digitValue?]
    next => exact ⟨_, rfl, fun c hc => isDigit_of_isDigit (hfraction c hc), hvalue⟩
  have hw := isDigits_whole hdigits hne
  rw [hplaces]
  refine ⟨.mantissa (.point hw hp), ?_⟩
  have h := literalDecimal_point (.inl rfl) hw.2 hp
  rw [List.append_nil, show exponentValue [] = 0 from rfl, Int.zero_sub] at h
  rw [h, Decimal.value, hvalue]

theorem denotes_scientific : Denotes x.scientific x.value := by
  obtain ⟨sign, ds, hex, hs, hds, hvalue⟩ := exponent_spec (x.point - 1)
  have hexponent : IsExponent ('e' :: (sign ++ ds)) := .intro (.inl rfl) hs hds
  have hstart : IsExponentOrNil ('e' :: (sign ++ ds)) := .inr ⟨_, rfl⟩
  have hdigit : ∀ c ∈ x.digits, isDigit c = true := fun c hc => isDigit_of_isDigit (hdigits c hc)
  rw [scientific, hex, value]
  rcases hx : x.digits with - | ⟨a, - | ⟨b, rest⟩⟩ <;> rw [hx] at hdigit
  · exact absurd hx hne
  · refine ⟨.scientific (.whole ⟨List.cons_ne_nil _ _, hdigit⟩) hexponent, ?_⟩
    rw [literalDecimal_whole hstart hdigit, Decimal.value, hvalue]
    rfl
  · obtain ⟨ha, hp⟩ := List.forall_mem_cons.mp hdigit
    have hw : IsDigits [a] := ⟨List.cons_ne_nil _ _, List.forall_mem_singleton.mpr ha⟩
    refine ⟨.scientific (.point hw hp) hexponent, ?_⟩
    show (literalDecimal ([a] ++ '.' :: (b :: rest ++ 'e' :: (sign ++ ds)))).value = _
    rw [literalDecimal_point hstart hw.2 hp, Decimal.value, hvalue]
    show ((natOfDigits (a :: b :: rest) : Nat) : ℚ) * _ = _
    congr 2
    simp only [List.length_cons]
    omega

/-- The text of a numeral is a literal of its value. -/
theorem denotes_natural : Denotes x.natural x.value := by
  rw [natural]
  split
  · exact denotes_positional hdigits hne
  · exact denotes_scientific hdigits hne

end

end Numeral

/-! ## Numbers -/

open Binary64

theorem numberText_of_isFinite {x : Float} (hx : x.isFinite = true) :
    numberText x = String.ofList (signed x (shortestNumeral x).natural) := by
  rw [numberText, not_isNaN_of_isFinite hx, not_isInf_of_isFinite hx]
  rfl

theorem numberText_of_finite {x : Float} (h : Unsigned x) (hx : x.isFinite = true) :
    numberText x = String.ofList (shortestNumeral x).natural := by
  rw [numberText_of_isFinite hx, signed, h.sign]
  rfl

theorem numberText_infinity : numberText infinity = "inf" := by decide +kernel

/-- A finite number that is not negative is read again. -/
theorem literalValue_numberText {x : Float} (h : Unsigned x) (hx : x.isFinite = true) :
    IsNumber (numberText x).toList ∧ literalValue (numberText x).toList = x := by
  have hdenotes := Numeral.denotes_natural (Numeral.digits_ofDecimal (.shortest (magnitude x)))
    (Numeral.digits_ofDecimal_ne_nil _)
  rw [numberText_of_finite h hx, String.toList_ofList]
  refine ⟨hdenotes.literal, ?_⟩
  rcases unpack_finite hx with ⟨hzero, hu⟩ | ⟨m, e, hm, hu, hc, he, hmag⟩
  · have hvalue : literalValue (Numeral.ofDecimal (.shortest 0)).natural = 0 := rfl
    rw [shortestNumeral, hzero, hvalue]
    apply eq_of_unpack
    rw [hu, h.signOf_eq]
    rfl
  · obtain ⟨digits, exponent, hvalue, hq⟩ := hdenotes.nearest
    rw [Numeral.value_ofDecimal, hmag] at hq
    have hrounds := Decimal.roundsTo_shortest hc hm
    rw [shortestNumeral, hvalue, nearestDecimal_eq hc hm he (by rwa [hq])]
    apply eq_of_unpack
    rw [ofCanonical_unpack hm hc he, hu, h.signOf_eq]

end RangeCalc
