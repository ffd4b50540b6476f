import Mathlib
import RangeCalc.Proofs.Formula.SamplingCall
import RangeCalc.Proofs.Number.Units
import RangeCalc.Proofs.Number.Written
import RangeCalc.Proofs.Shorthand.Percent
import RangeCalc.Range.Interval

/-!
# The numbers of bounds

* `IsNegatable`: numerals, perhaps with a minus; `readNumber?_negatable`: they are read as their values;
* `isNegatable_plainChars`, `alike_plainChars`: what is written for a finite number is such a numeral, and it
  is read as that number, up to the sign of a zero;
* `Interval.ordered_cases`: two finite numbers in ascending order;
* `finite_hundredth`, `isFinite_growth`: percentages and changes by percentages are finite.
-/

namespace RangeCalc

open Text Shorthand Binary64

/-! ## Numerals with a minus -/

namespace Shorthand

/-- A numeral, perhaps with a minus. -/
def IsNegatable (cs : List Char) : Prop :=
  ∃ sign n, IsMinus sign ∧ IsNumeral n ∧ cs = sign ++ n

variable {cs n : List Char}

theorem isNumeral_of_isDigit {n : List Char} (hne : n ≠ []) (h : n.all Char.isDigit = true) : IsNumeral n :=
  .whole (.of_isDigit hne (List.all_eq_true.mp h))

theorem IsNumeral.isNegatable (hn : IsNumeral n) : IsNegatable n :=
  ⟨[], n, .inl rfl, hn, rfl⟩

theorem IsNumeral.ne_minus (hn : IsNumeral n) (tail : List Char) : n ≠ '-' :: tail := by
  rintro rfl
  rcases hn.mem List.mem_cons_self with h | h <;> exact absurd h (by decide)

/-- The characters of such a numeral. -/
theorem IsNegatable.mem (h : IsNegatable cs) {c : Char} (hc : c ∈ cs) : isDigit c = true ∨ c = '.' ∨ c = '-' := by
  obtain ⟨sign, n, hsign, hn, rfl⟩ := h
  rcases List.mem_append.mp hc with hc | hc
  · rcases hsign with rfl | rfl
    · cases hc
    · exact .inr (.inr (List.mem_singleton.mp hc))
  · exact (hn.mem hc).imp_right .inl

theorem IsNegatable.not_blank (h : IsNegatable cs) : ∀ c ∈ cs, isBlank c = false := by
  intro c hc
  rcases h.mem hc with hdigit | rfl | rfl
  · exact Bool.of_not_eq_true fun hblank => not_digit_of_isBlank hblank (.inl hdigit)
  · decide
  · decide

theorem IsNegatable.not_mem (h : IsNegatable cs) {c : Char} (hdigit : isDigit c = false) (hc : c ∉ ['.', '-']) :
    c ∉ cs := by
  intro hmem
  rcases h.mem hmem with h | rfl | rfl
  · exact Bool.false_ne_true (hdigit.symm.trans h)
  · exact hc (by decide)
  · exact hc (by decide)

theorem numeralValue_numeral (hn : IsNumeral n) : numeralValue n = literalValue n := by
  rw [numeralValue.eq_def]
  split
  · exact absurd rfl (hn.ne_minus _)
  · rfl

theorem numeralValue_minus (n : List Char) : numeralValue ('-' :: n) = -literalValue n := rfl

end Shorthand

/-! ## Reading -/

section

variable {cs n : List Char}

theorem dropSeparators?_eq_some (h : '_' ∉ cs) (before : Bool) : dropSeparators? before cs = some cs := by
  induction cs generalizing before with
  | nil => rfl
  | cons c cs ih =>
    have hc : c ≠ '_' := fun heq => h (heq ▸ List.mem_cons_self)
    have hread := ih (fun hmem => h (List.mem_cons_of_mem c hmem)) (isDigit c)
    rw [dropSeparators?.eq_def]
    split
    · rename_i heq
      cases heq
    · rename_i heq
      exact absurd (List.cons.inj heq).1 hc
    · rename_i heq
      obtain ⟨rfl, rfl⟩ := List.cons.inj heq
      rw [hread]
      rfl

theorem trimPadding_eq_self (h : ∀ c ∈ cs, isPadding c = false) : trimPadding cs = cs := by
  have hkept : ∀ ds : List Char, (∀ c ∈ ds, isPadding c = false) → ds.dropWhile isPadding = ds := by
    rintro (- | ⟨d, ds⟩) hds
    · rfl
    · rw [List.dropWhile_cons_of_neg (by simp [hds d List.mem_cons_self])]
  rw [trimPadding, hkept cs h, hkept cs.reverse fun c hc => h c (List.mem_reverse.mp hc), List.reverse_reverse]

theorem spanLiteral?_numeral (hn : IsNumeral n) : spanLiteral? n = some (n, []) :=
  readsFront_spanLiteral?.eq_some_iff.mpr
    ⟨.mantissa hn.isMantissa, (List.append_nil n).symm, fun _ _ hpre => hpre.length_le⟩

/-- A word for what is no finite number starts with no digit. -/
theorem lower_numeral_ne (hn : IsNumeral n) {word : String} (hword : word.toList.head?.any Char.isAlpha = true) :
    String.ofList (n.map Char.toLower) ≠ word := by
  rintro rfl
  obtain ⟨d, tail, rfl, hd⟩ := hn.head
  have halpha : d.toLower.isAlpha = true := by simpa using hword
  rw [Char.isAlpha_toLower_eq_isAlpha] at halpha
  rw [not_isDigit_of_isNameStart (isNameStart_of_isAlpha halpha)] at hd
  cases hd

/-- A numeral with a minus is read as its value. -/
theorem readNumber?_negatable (h : IsNegatable cs) : readNumber? cs = some (numeralValue cs) := by
  have hpadding : ∀ c ∈ cs, isPadding c = false := fun c hc => by
    rcases h.mem hc with hdigit | rfl | rfl
    · have hblank : isBlank c = false := Bool.of_not_eq_true fun hblank =>
        not_digit_of_isBlank hblank (.inl hdigit)
      rw [isPadding, hblank, Bool.false_and]
    · decide
    · decide
  have hseparator : '_' ∉ cs := fun hmem => absurd (h.mem hmem) (by decide)
  obtain ⟨sign, n, hsign, hn, rfl⟩ := h
  have hsplit : splitSign (sign ++ n) = (decide (sign = ['-']), n) := by
    obtain ⟨d, tail, rfl, hd⟩ := hn.head
    rcases hsign with rfl | rfl
    · rw [List.nil_append, splitSign.eq_def]
      split
      · rename_i heq
        obtain ⟨rfl, -⟩ := List.cons.inj heq
        exact absurd hd (by decide)
      · rename_i heq
        obtain ⟨rfl, -⟩ := List.cons.inj heq
        exact absurd hd (by decide)
      · rfl
    · rfl
  rw [readNumber?, trimPadding_eq_self hpadding, dropSeparators?_eq_some hseparator]
  simp only [bind, Option.bind, hsplit]
  split
  · exact absurd ‹_› (lower_numeral_ne hn (by decide))
  · exact absurd ‹_› (lower_numeral_ne hn (by decide))
  · exact absurd ‹_› (lower_numeral_ne hn (by decide))
  · rw [spanLiteral?_numeral hn]
    rcases hsign with rfl | rfl
    · rw [List.nil_append, numeralValue_numeral hn]
      rfl
    · rfl

/-- The value of a bound that is such a numeral. -/
theorem boundValue?_negatable (h : IsNegatable cs) (percent : Bool) :
    boundValue? cs percent =
      if (numeralValue cs).isFinite then some (if percent then numeralValue cs / 100 else numeralValue cs)
      else none := by
  rw [boundValue?, readNumber?_negatable h]
  by_cases hfinite : (numeralValue cs).isFinite = true
  · simp [guard, hfinite]
  · simp [guard, hfinite]

end

/-! ## Writing -/

/-- The plain text of a numeral is a literal of its value. -/
theorem Numeral.denotes_plain {x : Numeral} (hdigits : ∀ c ∈ x.digits, c.isDigit = true) (hne : x.digits ≠ []) :
    IsNumeral x.plain ∧ Denotes x.plain x.value := by
  have hw := isDigits_whole hdigits hne
  have hvalue := x.value_eq_places
  have hnil : exponentValue [] = 0 := rfl
  rw [plain]
  split
  next hplaces =>
    refine ⟨.whole hw, .mantissa (.whole hw), ?_⟩
    have h := literalDecimal_whole (.inl rfl) hw.2
    rw [List.append_nil, hnil] at h
    rw [h, ← hvalue, hplaces, List.append_nil]
    rfl
  next hplaces =>
    have hp : IsDigits x.fraction := .of_isDigit hplaces (isDigit_of_mem_fraction hdigits)
    refine ⟨.places hw hp, .mantissa (.point hw hp.2), ?_⟩
    have h := literalDecimal_point (.inl rfl) hw.2 hp.2
    rw [List.append_nil, hnil, Int.zero_sub] at h
    rw [h, ← hvalue]
    rfl

section

variable {x y : Float} (hx : x.isFinite = true)

include hx

theorem plainChars_of_isFinite : plainChars x =
    if magnitude x = 0 then ['0'] else signed x (shortestNumeral x).plain := by
  rw [plainChars, not_isNaN_of_isFinite hx, not_isInf_of_isFinite hx]
  rfl

/-- What is written for the size of a finite number other than zero is read as a number of that size. -/
theorem literalValue_plain (hzero : magnitude x ≠ 0) :
    IsNumeral (shortestNumeral x).plain ∧
      ∃ m e hm, Canonical m e ∧ e ≤ 971 ∧ x.toModel.unpack = .finite (signOf x) m e hm ∧
        (literalValue (shortestNumeral x).plain).toModel.unpack = .finite .positive m e hm := by
  obtain ⟨hnumeral, hdenotes⟩ := Numeral.denotes_plain (Numeral.digits_ofDecimal (.shortest (magnitude x)))
    (Numeral.digits_ofDecimal_ne_nil _)
  rcases unpack_finite hx with ⟨hmag, -⟩ | ⟨m, e, hm, hu, hc, he, hmag⟩
  · exact absurd hmag hzero
  · refine ⟨hnumeral, m, e, hm, hc, he, hu, ?_⟩
    obtain ⟨digits, exponent, hvalue, hq⟩ := hdenotes.nearest
    rw [Numeral.value_ofDecimal, hmag] at hq
    have hrounds := Decimal.roundsTo_shortest hc hm
    rw [shortestNumeral, hvalue, nearestDecimal_eq hc hm he (by rwa [hq]), ofCanonical_unpack hm hc he]

/-- A finite number is written as a numeral, perhaps with a minus. -/
theorem isNegatable_plainChars : IsNegatable (plainChars x) := by
  rw [plainChars_of_isFinite hx]
  split
  · have hdigit : isDigit '0' = true := by decide
    exact IsNumeral.isNegatable (.whole ⟨List.cons_ne_nil _ _, List.forall_mem_singleton.mpr hdigit⟩)
  · obtain ⟨hn, -⟩ := literalValue_plain hx ‹_›
    rw [signed]
    split
    · exact ⟨['-'], _, .inr rfl, hn, rfl⟩
    · exact hn.isNegatable

/-- It is read as that number, up to the sign of a zero. -/
theorem alike_plainChars : Alike (numeralValue (plainChars x)) x := by
  rw [plainChars_of_isFinite hx]
  split
  next hzero =>
    rcases unpack_finite hx with ⟨-, hu⟩ | ⟨m, e, hm, -, -, -, hmag⟩
    · exact .inr ⟨by decide, beq_zero_iff.mpr ⟨_, hu⟩⟩
    · have : 0 < m * 2 ^ (e + 1074).toNat := Nat.mul_pos hm (Nat.two_pow_pos _)
      omega
  next hzero =>
    obtain ⟨hn, m, e, hm, hc, he, hu, hplain⟩ := literalValue_plain hx hzero
    refine .inl (eq_of_unpack ?_)
    rw [signed]
    split
    next hneg =>
      rw [signOf, if_pos hneg] at hu
      rw [numeralValue_minus, hu]
      show (Float.Model.pack (Float.Model.UnpackedFloat.neg _)).unpack = _
      rw [hplain]
      exact unpack_pack hm hc he
    next hpos =>
      rw [signOf, if_neg hpos] at hu
      rw [numeralValue_numeral hn, hplain, hu]

/-- Without a sign it is read as exactly that number. -/
theorem literalValue_plainChars (h : Unsigned x) :
    IsNumeral (plainChars x) ∧ literalValue (plainChars x) = x := by
  rw [plainChars_of_isFinite hx]
  split
  next hzero =>
    have hdigit : isDigit '0' = true := by decide
    refine ⟨.whole ⟨List.cons_ne_nil _ _, List.forall_mem_singleton.mpr hdigit⟩, ?_⟩
    rcases unpack_finite hx with ⟨-, hu⟩ | ⟨m, e, hm, -, -, -, hmag⟩
    · rw [h.signOf_eq] at hu
      exact eq_of_unpack (hu ▸ rfl)
    · have : 0 < m * 2 ^ (e + 1074).toNat := Nat.mul_pos hm (Nat.two_pow_pos _)
      omega
  next hzero =>
    obtain ⟨hn, m, e, hm, -, -, hu, hplain⟩ := literalValue_plain hx hzero
    rw [signed, h.sign]
    rw [h.signOf_eq] at hu
    exact ⟨hn, eq_of_unpack (hplain.trans hu.symm)⟩

end

theorem plainChars_of_beq_zero {x : Float} (h : (x == 0) = true) : plainChars x = ['0'] := by
  obtain ⟨hfinite, hunits⟩ := units_of_beq_zero h
  rw [plainChars_of_isFinite hfinite, ← natAbs_units, hunits]
  rfl

/-- Zeros of both signs are written alike. -/
theorem plainChars_of_alike {x y : Float} (h : Alike x y) : plainChars x = plainChars y := by
  rcases h with rfl | ⟨hx, hy⟩
  · rfl
  · rw [plainChars_of_beq_zero hx, plainChars_of_beq_zero hy]

/-! ## Percentages -/

section

variable {x : Float} (hx : x.isFinite = true)

include hx

/-- A hundredth of a number is far from overflowing; the exponent is a variable so that it is not evaluated. -/
theorem finite_hundredth :
    ∃ k, k = 2092 ∧ (x / 100).isFinite = true ∧ (units (x / 100)).natAbs ≤ 1 * 2 ^ k := by
  obtain ⟨k, hk⟩ : ∃ k, k = 2092 := ⟨_, rfl⟩
  obtain ⟨hundred, hunits⟩ : (100 : Float).isFinite = true ∧ units 100 = 100 * one := by decide
  have hone := one_cast_pos
  have hlt : 1 * 2 ^ k < overflowKey := by
    rw [Nat.one_mul]
    exact two_pow_lt_overflowKey (by omega)
  have hsize : |(units x : ℚ)| ≤ 64 * 2 ^ k := by
    obtain ⟨hlow, hhigh⟩ := (isFinite_iff_key (not_isNaN_of_isFinite hx)).mp hx
    rw [key_of_isFinite hx] at hlow hhigh
    have hle : (units x).natAbs ≤ 2 ^ (6 + k) := by
      have := overflowKey_le_two_pow (k := 6 + k) (by omega)
      omega
    rw [Nat.pow_add] at hle
    rw [← Int.cast_abs, ← Nat.cast_natAbs]
    exact_mod_cast hle
  have hquotient : |(units x / units 100 * one : ℚ)| ≤ (1 * 2 ^ k : Nat) := by
    have heq : (units x / units 100 * one : ℚ) = units x / 100 := by
      rw [hunits]
      push_cast
      field_simp
    rw [heq, abs_div, abs_of_pos (show (0 : ℚ) < 100 by norm_num)]
    push_cast
    have hpos : (0 : ℚ) < 2 ^ k := by positivity
    linarith
  have hne : units 100 ≠ 0 := by
    rw [hunits]
    have := one_pos
    omega
  exact ⟨k, hk, (rounds_div hx hundred hne).finite (by decide) hlt hquotient⟩

theorem isFinite_growth : (1 + x / 100).isFinite = true := by
  obtain ⟨k, hk, hfinite, hle⟩ := finite_hundredth hx
  obtain ⟨hone, hunits⟩ : (1 : Float).isFinite = true ∧ units 1 = one := by decide
  have hlt : 1 * 2 ^ (k + 1) < overflowKey := by
    rw [Nat.one_mul]
    exact two_pow_lt_overflowKey (by omega)
  have hsum : |(units 1 + units (x / 100) : ℚ)| ≤ (1 * 2 ^ (k + 1) : Nat) := by
    obtain ⟨j, hj, hone⟩ := exists_one_eq
    have hpow : one ≤ 2 ^ k := by
      rw [hone]
      exact Nat.pow_le_pow_right (by decide) (by omega)
    have hnat : (units 1 + units (x / 100)).natAbs ≤ 1 * 2 ^ (k + 1) := by
      rw [Nat.pow_succ]
      omega
    rw [← Int.cast_add, ← Int.cast_abs, ← Nat.cast_natAbs]
    exact_mod_cast hnat
  exact ((rounds_add hone hfinite).finite (by decide) hlt hsum).1

theorem unsigned_hundredth (h : Unsigned x) : Unsigned (x / 100) := by
  obtain ⟨hundred, hnegative, hmag⟩ : (100 : Float).isFinite = true ∧ isNegative 100 = false ∧
      magnitude 100 ≠ 0 := by
    decide
  have hsign : signOf 100 = .positive := by rw [signOf, hnegative]; rfl
  show Unsigned (.ofModel (.pack (Float.Model.UnpackedFloat.div _ x.toModel.unpack (100 : Float).toModel.unpack)))
  rcases unpack_finite hundred with ⟨hzero, -⟩ | ⟨n, f, hn, hu, -⟩
  · exact absurd hzero hmag
  rw [hu, hsign]
  rcases unpack_finite hx with ⟨-, hv⟩ | ⟨m, e, hm, hv, -⟩
  · rw [hv, h.signOf_eq]
    exact HasUnits.unsigned .zero
  · rw [hv, h.signOf_eq]
    exact unsigned_div hm hn

end

variable {a b : Float}

/-- Two numbers in ascending order. -/
theorem Interval.ordered_cases (ha : a.isNaN = false) (hb : b.isNaN = false) :
    Interval.ordered a b = ⟨a, b⟩ ∧ a ≤ b ∨ Interval.ordered a b = ⟨b, a⟩ ∧ b ≤ a := by
  rw [Interval.ordered]
  split
  next hlt =>
    exact .inr ⟨rfl, (le_iff_key hb ha).mpr ((lt_iff_key hb ha).mp hlt).le⟩
  next hnot =>
    exact .inl ⟨rfl, (le_iff_key ha hb).mpr (not_lt.mp fun hlt => hnot ((lt_iff_key hb ha).mpr hlt))⟩

end RangeCalc
