import Mathlib.Algebra.Ring.Int.Parity
import RangeCalc.Proofs.Number.Units
import RangeCalc.Proofs.Number.Written

/-!
# Displayed numbers

    displayed: ["-"] group ("," group)* ["." digit digit]

A displayed number has two places, unless both are zero, and its integer part is in groups of three digits. It is
the exact value of the number, rounded to hundredths, ties to even.

* `IsGrouped`, `IsDisplayed`: groups of digits, and the texts that are displayed;
* `withoutCommas_groupThousands`, `isGrouped_groupThousands`: grouping keeps the digits;
* `IsNearestEven`: the integer nearest to a rational number, of either sign, and `IsNearestEven.mono`;
* `shown`: the number that is displayed, and `shown_eq`;
* `displayText_rounded`: a finite number is displayed as its rounded value, and in order.
-/

namespace RangeCalc

open Text Binary64

/-! ## Groups of digits -/

/-- Digits in groups of three, counted from the right, with a comma between two groups. -/
inductive IsGrouped : List Char → Prop where
  | first {ds : List Char} (hne : ds ≠ []) (hlength : ds.length ≤ 3) (hds : ∀ c ∈ ds, c.isDigit = true) :
      IsGrouped ds
  | group {cs ds : List Char} (hcs : IsGrouped cs) (hlength : ds.length = 3)
      (hds : ∀ c ∈ ds, c.isDigit = true) : IsGrouped (cs ++ ',' :: ds)

/-- A text without its commas. -/
def withoutCommas (cs : List Char) : List Char :=
  cs.filter (· ≠ ',')

theorem withoutCommas_append (cs ds : List Char) :
    withoutCommas (cs ++ ds) = withoutCommas cs ++ withoutCommas ds :=
  List.filter_append ..

theorem withoutCommas_eq_self {cs : List Char} (h : ',' ∉ cs) : withoutCommas cs = cs :=
  List.filter_eq_self.mpr fun _ hc => decide_eq_true fun heq => h (heq ▸ hc)

theorem withoutCommas_signed (x : Float) (cs : List Char) :
    withoutCommas (signed x cs) = signed x (withoutCommas cs) := by
  rw [signed, signed]
  split
  · exact List.filter_cons_of_pos (by decide)
  · rfl

theorem comma_not_mem_digits {ds : List Char} (h : ∀ c ∈ ds, c.isDigit = true) : ',' ∉ ds :=
  fun hmem => absurd (h ',' hmem) (by decide)

section

variable {ds : List Char}

/-- At most three digits are one group. -/
theorem groupReversed_short (h : ∀ a b c d rest, ds = a :: b :: c :: d :: rest → False) :
    groupReversed ds = ds ∧ ds.length ≤ 3 := by
  rcases ds with - | ⟨a, - | ⟨b, - | ⟨c, - | ⟨d, rest⟩⟩⟩⟩
  · exact ⟨rfl, by decide⟩
  · exact ⟨rfl, Nat.le_of_ble_eq_true rfl⟩
  · exact ⟨rfl, Nat.le_of_ble_eq_true rfl⟩
  · exact ⟨rfl, Nat.le_of_ble_eq_true rfl⟩
  · exact (h a b c d rest rfl).elim

theorem withoutCommas_groupReversed (h : ',' ∉ ds) : withoutCommas (groupReversed ds) = ds := by
  induction ds using groupReversed.induct with
  | case1 a b c d rest ih =>
    have hsplit : groupReversed (a :: b :: c :: d :: rest) = [a, b, c] ++ ([','] ++ groupReversed (d :: rest)) := rfl
    have hcomma : withoutCommas [','] = [] := rfl
    obtain ⟨hfront, hrest⟩ : ',' ∉ [a, b, c] ∧ ',' ∉ d :: rest :=
      not_or.mp fun hmem => h ((@List.mem_append _ _ [a, b, c] (d :: rest)).mpr hmem)
    rw [hsplit, withoutCommas_append, withoutCommas_append, withoutCommas_eq_self hfront, hcomma, ih hrest]
    rfl
  | case2 ds hshort => rw [(groupReversed_short hshort).1, withoutCommas_eq_self h]

theorem getLast?_groupReversed (ds : List Char) : (groupReversed ds).getLast? = ds.getLast? := by
  induction ds using groupReversed.induct with
  | case1 a b c d rest ih => simp only [groupReversed, List.getLast?_cons, ih, Option.getD_some]
  | case2 ds hshort => rw [(groupReversed_short hshort).1]

theorem isGrouped_groupReversed (hne : ds ≠ []) (hds : ∀ c ∈ ds, c.isDigit = true) :
    IsGrouped (groupReversed ds).reverse := by
  induction ds using groupReversed.induct with
  | case1 a b c d rest ih =>
    have hsplit : (groupReversed (a :: b :: c :: d :: rest)).reverse =
        (groupReversed (d :: rest)).reverse ++ ',' :: [c, b, a] := by
      simp [groupReversed]
    obtain ⟨ha, hb, hc, hrest⟩ : a.isDigit = true ∧ b.isDigit = true ∧ c.isDigit = true ∧
        ∀ e ∈ d :: rest, e.isDigit = true := by
      simpa only [List.forall_mem_cons] using hds
    rw [hsplit]
    exact .group (ih (List.cons_ne_nil _ _) hrest) rfl (by simp [ha, hb, hc])
  | case2 ds hshort =>
    obtain ⟨hgroup, hlength⟩ := groupReversed_short hshort
    rw [hgroup]
    exact .first (by simpa using hne) (by simpa using hlength) (by simpa using hds)

/-- Grouping only adds commas. -/
theorem withoutCommas_groupThousands (hds : ∀ c ∈ ds, c.isDigit = true) :
    withoutCommas (groupThousands ds) = ds := by
  have hreverse : ',' ∉ ds.reverse := fun hmem => comma_not_mem_digits hds (List.mem_reverse.mp hmem)
  rw [groupThousands, withoutCommas, List.filter_reverse, ← withoutCommas,
    withoutCommas_groupReversed hreverse, List.reverse_reverse]

theorem isGrouped_groupThousands (hne : ds ≠ []) (hds : ∀ c ∈ ds, c.isDigit = true) :
    IsGrouped (groupThousands ds) :=
  isGrouped_groupReversed (by simpa using hne) fun c hc => hds c (List.mem_reverse.mp hc)

theorem head?_groupThousands (ds : List Char) : (groupThousands ds).head? = ds.head? := by
  rw [groupThousands, List.head?_reverse, getLast?_groupReversed, List.getLast?_reverse]

end

/-! ## Digits of a number -/

/-- Only the digits of zero start with 0. -/
theorem head?_digitChars {n : Nat} (h : (digitChars n).head? = some '0') : n = 0 := by
  induction n using Nat.strongRecOn with
  | ind n ih =>
    rw [digitChars] at h
    rcases Nat.lt_or_ge n 10 with hlt | hge
    · rw [Nat.toDigits_of_lt_base hlt, List.head?_cons, Option.some.injEq] at h
      exact Nat.digitChar_eq_zero.mp h
    · rw [Nat.toDigits_of_base_le (by decide) hge, List.head?_append_of_ne_nil _ Nat.toDigits_ne_nil] at h
      have hzero := ih (n / 10) (by omega) h
      omega

theorem digitValue?_digitChar {d : Nat} (h : d < 10) : digitValue? (Nat.digitChar d) = some d := by
  rw [digitValue?_of_isDigit (by simp [h]), Nat.toNat_digitChar_of_lt_ten h, Nat.add_sub_cancel_left]

theorem natOfDigits_twoDigits {n : Nat} (h : n < 100) : natOfDigits (twoDigits n) = n := by
  simp only [natOfDigits, twoDigits, List.foldl_cons, List.foldl_nil,
    digitValue?_digitChar (Nat.mod_lt _ (by decide : 0 < 10)), Option.getD_some]
  omega

theorem isDigit_of_mem_twoDigits (n : Nat) : ∀ c ∈ twoDigits n, c.isDigit = true := by
  have hdigit : ∀ d, (Nat.digitChar (d % 10)).isDigit = true := fun d => by
    simp [Nat.mod_lt d (by decide : 0 < 10)]
  exact List.forall_mem_cons.mpr ⟨hdigit _, List.forall_mem_singleton.mpr (hdigit _)⟩

/-! ## Shape -/

/-- Nothing, or a point and two digits that are not both 0. -/
inductive IsPlaces : List Char → Prop where
  | none : IsPlaces []
  | two {a b : Char} (ha : a.isDigit = true) (hb : b.isDigit = true) (hne : ¬ (a = '0' ∧ b = '0')) :
      IsPlaces ['.', a, b]

/-- A displayed number: perhaps a minus, an integer part in groups that starts with 0 only if it is 0, and its
places. -/
inductive IsDisplayed : List Char → Prop where
  | intro {sign whole places : List Char} (hsign : sign = [] ∨ sign = ['-']) (hwhole : IsGrouped whole)
      (hzero : whole.head? = some '0' → whole = ['0']) (hplaces : IsPlaces places) :
      IsDisplayed (sign ++ whole ++ places)

/-- The places of a number of hundredths. -/
def placesChars (n : Nat) : List Char :=
  if n % 100 = 0 then [] else '.' :: twoDigits (n % 100)

theorem displayText_of_isFinite {x : Float} (hx : x.isFinite = true) :
    displayText x = String.ofList
      (signed x (groupThousands (digitChars (hundredths x / 100)) ++ placesChars (hundredths x))) := by
  rw [displayText, not_isNaN_of_isFinite hx, not_isInf_of_isFinite hx]
  rfl

theorem isPlaces_placesChars (n : Nat) : IsPlaces (placesChars n) := by
  rw [placesChars]
  split
  next => exact .none
  next hne =>
    obtain ⟨ha, hb⟩ := List.forall_mem_cons.mp (isDigit_of_mem_twoDigits (n % 100))
    refine .two ha (hb _ List.mem_cons_self) fun ⟨ha, hb⟩ => ?_
    rw [Nat.digitChar_eq_zero] at ha hb
    omega

theorem isDisplayed_displayText {x : Float} (hx : x.isFinite = true) : IsDisplayed (displayText x).toList := by
  have hdigits := @isDigit_of_mem_digitChars (hundredths x / 100)
  have hwhole := isGrouped_groupThousands Nat.toDigits_ne_nil hdigits
  have hzero : (groupThousands (digitChars (hundredths x / 100))).head? = some '0' →
      groupThousands (digitChars (hundredths x / 100)) = ['0'] := by
    intro hhead
    rw [head?_groupThousands] at hhead
    rw [head?_digitChars hhead]
    rfl
  rw [displayText_of_isFinite hx, String.toList_ofList, signed]
  split
  · exact .intro (.inr rfl) hwhole hzero (isPlaces_placesChars _)
  · exact .intro (.inl rfl) hwhole hzero (isPlaces_placesChars _)

/-! ## Value -/

/-- The text of a number of hundredths denotes it. -/
theorem denotes_hundredths (n : Nat) : Denotes (digitChars (n / 100) ++ placesChars n) (n / 100) := by
  have hw : IsDigits (digitChars (n / 100)) := .of_isDigit Nat.toDigits_ne_nil isDigit_of_mem_digitChars
  have hnil : exponentValue [] = 0 := rfl
  have hsum : n = n / 100 * 100 + n % 100 := by omega
  rw [placesChars]
  split
  next hwhole =>
    refine ⟨by simpa using IsNumber.mantissa (.whole hw), ?_⟩
    rw [literalDecimal_whole (.inl rfl) hw.2, natOfDigits_digitChars, Decimal.value, hnil, zpow_zero, mul_one,
      eq_div_iff (by norm_num)]
    rw [hwhole, Nat.add_zero] at hsum
    exact_mod_cast hsum.symm
  next =>
    have hp : IsDigits (twoDigits (n % 100)) := .of_isDigit (List.cons_ne_nil _ _) (isDigit_of_mem_twoDigits _)
    have hvalue : natOfDigits (digitChars (n / 100) ++ twoDigits (n % 100)) = n := by
      rw [natOfDigits_append, natOfDigits_digitChars, natOfDigits_twoDigits (Nat.mod_lt _ (by decide))]
      exact hsum.symm
    have hexponent : (10 : ℚ) ^ (0 - ((twoDigits (n % 100)).length : Int)) = 1 / 100 := by
      rw [show (twoDigits (n % 100)).length = 2 from rfl]
      norm_num
    refine ⟨.mantissa (.point hw hp.2), ?_⟩
    have h := literalDecimal_point (.inl rfl) hw.2 hp.2
    rw [List.append_nil, hvalue, hnil] at h
    rw [h, Decimal.value, hexponent, mul_one_div]

/-- The integer nearest to a rational number, the even one of two that are equally near. -/
structure IsNearestEven (a : ℚ) (k : ℤ) : Prop where
  near : |a - k| ≤ 1 / 2
  even : |a - k| = 1 / 2 → Even k

theorem Binary64.NearestEven.isNearestEven {a : ℚ} {r : Nat} (h : NearestEven a r) : IsNearestEven a r := by
  have hlow := h.low
  have hhigh := h.high
  refine ⟨?_, fun htie => ?_⟩
  · rw [Int.cast_natCast, abs_le]
    constructor <;> linarith
  · rw [Int.cast_natCast, abs_eq (by norm_num)] at htie
    have heven := h.even (htie.symm.imp (fun h => by linarith) (fun h => by linarith))
    exact_mod_cast Nat.even_iff.mpr heven

namespace IsNearestEven

variable {a b : ℚ} {j k : ℤ}

theorem neg (h : IsNearestEven a k) : IsNearestEven (-a) (-k) := by
  have hdistance : |-a - ((-k : ℤ) : ℚ)| = |a - k| := by
    rw [Int.cast_neg, neg_sub_neg, abs_sub_comm]
  exact ⟨hdistance ▸ h.near, fun htie => (h.even (hdistance ▸ htie)).neg⟩

theorem mono (h : IsNearestEven a j) (h' : IsNearestEven b k) (hab : a ≤ b) : j ≤ k := by
  by_contra hlt
  have hle : (k : ℚ) + 1 ≤ j := by exact_mod_cast not_le.mp hlt
  have hnear := abs_le.mp h.near
  have hnear' := abs_le.mp h'.near
  -- both are ties between the same two integers
  have hj : a - j = -(1 / 2) := by linarith
  have hk : b - k = 1 / 2 := by linarith
  have hnext : j = k + 1 := by
    have : (j : ℚ) = k + 1 := by linarith
    exact_mod_cast this
  have heven := h.even (by rw [hj, abs_neg, abs_of_pos (by norm_num)])
  have heven' := h'.even (by rw [hk, abs_of_pos (by norm_num)])
  rw [hnext, Int.even_add_one] at heven
  exact heven heven'

end IsNearestEven

/-- The hundredths of a number with its sign. -/
def signedHundredths (x : Float) : Int :=
  if isNegative x then -(hundredths x : Int) else hundredths x

/-- They are the exact value, rounded. -/
theorem isNearestEven_signedHundredths (x : Float) :
    IsNearestEven (100 * (units x / one)) (signedHundredths x) := by
  have hnear : IsNearestEven (100 * (magnitude x / one)) (hundredths x) := by
    have h := (nearestEven_shiftRoundEven (100 * magnitude x) 1074).isNearestEven
    have hone : ((one : Nat) : ℚ) = 2 ^ 1074 := one_cast
    rw [← hone, Nat.cast_mul, Nat.cast_ofNat, mul_div_assoc] at h
    exact h
  rw [signedHundredths, units]
  split
  · rw [Int.cast_neg, neg_div, mul_neg]
    exact hnear.neg
  · exact hnear

/-- The number that is displayed: the text without its commas. -/
def shown (x : Float) : ℚ :=
  denoted (withoutCommas (displayText x).toList)

theorem shown_eq {x : Float} (hx : x.isFinite = true) : shown x = signedHundredths x / 100 := by
  have hplaces : ',' ∉ placesChars (hundredths x) := by
    rw [placesChars]
    split
    · exact List.not_mem_nil
    · exact List.not_mem_cons_of_ne_of_not_mem (by decide) (comma_not_mem_digits (isDigit_of_mem_twoDigits _))
  rw [shown, displayText_of_isFinite hx, String.toList_ofList, withoutCommas_signed, withoutCommas_append,
    withoutCommas_groupThousands isDigit_of_mem_digitChars, withoutCommas_eq_self hplaces,
    (denotes_hundredths _).denoted_signed, signedHundredths]
  split
  · rw [Int.cast_neg, neg_div]
    rfl
  · rfl

/-- A finite number is displayed with an optional minus, groups of three digits without a leading 0, and two places
that are not both 0, or none. Without the commas the text denotes the exact value of the number in hundredths,
rounded to the nearest, ties to even. So numbers are displayed in order. -/
theorem displayText_rounded {x : Float} (hx : x.isFinite = true) :
    IsDisplayed (displayText x).toList ∧
      (∃ k : ℤ, IsNearestEven (100 * (units x / one)) k ∧ shown x = k / 100) ∧
      ∀ y : Float, y.isFinite = true → x ≤ y → shown x ≤ shown y := by
  refine ⟨isDisplayed_displayText hx, ⟨_, isNearestEven_signedHundredths x, shown_eq hx⟩, fun y hy hle => ?_⟩
  have hunits : (units x : ℚ) ≤ units y := by exact_mod_cast (le_iff_units hx hy).mp hle
  have hvalue : 100 * (units x / one : ℚ) ≤ 100 * (units y / one) := by
    have hone := one_cast_pos
    gcongr
  have hrounded : (signedHundredths x : ℚ) ≤ signedHundredths y := by
    exact_mod_cast (isNearestEven_signedHundredths x).mono (isNearestEven_signedHundredths y) hvalue
  rw [shown_eq hx, shown_eq hy]
  gcongr

/-- Rounding carries into a new group. -/
theorem carried_displayText :
    (999999.999 : Float).isFinite = true ∧ displayText 999999.999 = "1,000,000" ∧ IsDisplayed "1,000,000".toList ∧
      (∃ k : ℤ, IsNearestEven (100 * (units 999999.999 / one)) k ∧ shown 999999.999 = k / 100) ∧
      shown 999999.999 ≤ shown 1234567.125 := by
  have hfinite : (999999.999 : Float).isFinite = true := by decide
  have htext : displayText 999999.999 = "1,000,000" := by decide +kernel
  obtain ⟨hshape, hvalue, hmono⟩ := displayText_rounded hfinite
  rw [htext] at hshape
  exact ⟨hfinite, htext, hshape, hvalue, hmono 1234567.125 (by decide) (by decide)⟩

end RangeCalc
