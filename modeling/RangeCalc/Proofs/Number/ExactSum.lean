import Mathlib.Algebra.BigOperators.Group.List.Basic
import Mathlib.Data.Nat.Size
import RangeCalc.Proofs.Number.Units

/-!
# Sums without rounding errors

The parts of a sum add up to it, and each is below the step of all that come after it. Therefore the parts
before the last one hardly count, and a sum overflows only where a term or a total is almost too large for a
finite number.

* `Parts`: what the parts of a sum are, and `Parts.add?`: what adding a term keeps;
* `rounds_exactSum?`: a sum that does not overflow is the exact one rounded;
* `exactSum?_isSome`: numbers whose sizes add up to something finite do not overflow.
-/

namespace RangeCalc.Binary64

variable {a : ℚ} {k n r s : Nat}

/-! ## Rounding in units -/

/-- The integers that are numbers of units of finite numbers, without bound. -/
def OnGrid (i : Int) : Prop :=
  ∃ m k, m ≤ 2 ^ 53 ∧ i.natAbs = m * 2 ^ k

theorem roundUnits_eq (i : Int) :
    ∃ k r, IsStep i.natAbs k ∧ NearestEven (i.natAbs / 2 ^ k) r ∧
      roundUnits i = i.sign * (r * 2 ^ k : Nat) := by
  by_cases hsmall : i.natAbs < 2 ^ 53
  · refine ⟨0, i.natAbs, ⟨.inl rfl, by exact_mod_cast hsmall⟩, ?_, ?_⟩
    · simpa using NearestEven.self i.natAbs
    · have hshift : i.natAbs.log2 - 52 = 0 := by
        by_cases h0 : i.natAbs = 0
        · rw [h0]
          rfl
        · have := (Nat.log2_lt h0).mpr hsmall
          omega
      simp only [roundUnits, hshift, if_true]
      rw [Nat.pow_zero, Nat.mul_one, Int.sign_mul_natAbs]
  · have hlarge := not_lt.mp hsmall
    have hlog := (Nat.le_log2 (show i.natAbs ≠ 0 by omega)).mpr hlarge
    have hshift : ¬ i.natAbs.log2 - 52 = 0 := by omega
    refine ⟨_, _, isStep_log2 hlarge, nearestEven_shiftRoundEven i.natAbs _, ?_⟩
    simp only [roundUnits, if_neg hshift, Nat.shiftLeft_eq]
    split
    next hneg => rw [Int.sign_eq_neg_one_of_neg hneg, neg_one_mul]
    next hneg => rw [Int.sign_eq_one_of_pos (by omega), one_mul]

theorem roundsUnits_roundUnits (i : Int) : RoundsUnits i.natAbs (roundUnits i).natAbs := by
  rcases eq_or_ne i 0 with rfl | hne
  · have hzero : roundUnits 0 = 0 := by decide
    rw [hzero]
    simpa using RoundsUnits.self (Nat.zero_le (2 ^ 53)) 0
  · obtain ⟨k, r, hstep, hnear, hround⟩ := roundUnits_eq i
    refine ⟨k, r, hstep, hnear, ?_⟩
    rw [hround, Int.natAbs_mul, Int.natAbs_sign_of_ne_zero hne, Nat.one_mul, Int.natAbs_natCast]

/-- What rounding in units leaves over is at most half a step, and less if the multiple is odd. -/
theorem roundUnits_cases (i : Int) :
    ∃ k r, (k = 0 ∨ 2 ^ (52 + k) ≤ i.natAbs) ∧ i.natAbs < 2 ^ (53 + k) ∧ r ≤ 2 ^ 53 ∧
      (roundUnits i).natAbs = r * 2 ^ k ∧
      (i - roundUnits i).natAbs = ((i.natAbs : Int) - (r * 2 ^ k : Nat)).natAbs ∧
      2 * (i - roundUnits i).natAbs ≤ 2 ^ k ∧ (2 * (i - roundUnits i).natAbs = 2 ^ k → r % 2 = 0) := by
  obtain ⟨k, r, hstep, hnear, hround⟩ := roundUnits_eq i
  have hpos : (0 : ℚ) < 2 ^ k := by positivity
  have hcast : (i.natAbs : ℚ) = i.natAbs / 2 ^ k * 2 ^ k := by field_simp
  have hlow : r * 2 ^ k * 2 ≤ i.natAbs * 2 + 2 ^ k := by
    have h := mul_le_mul_of_nonneg_right hnear.low hpos.le
    rw [← hcast] at h
    have : (r : ℚ) * 2 ^ k * 2 ≤ i.natAbs * 2 + 2 ^ k := by linarith
    exact_mod_cast this
  have hhigh : i.natAbs * 2 ≤ r * 2 ^ k * 2 + 2 ^ k := by
    have h := mul_le_mul_of_nonneg_right hnear.high hpos.le
    rw [← hcast] at h
    have : (i.natAbs : ℚ) * 2 ≤ r * 2 ^ k * 2 + 2 ^ k := by linarith
    exact_mod_cast this
  have htie : r * 2 ^ k * 2 = i.natAbs * 2 + 2 ^ k ∨ i.natAbs * 2 = r * 2 ^ k * 2 + 2 ^ k →
      r % 2 = 0 := by
    refine fun htie => hnear.even (htie.imp (fun h => ?_) fun h => ?_)
    · have h' : (r : ℚ) * 2 ^ k * 2 = i.natAbs * 2 + 2 ^ k := by exact_mod_cast h
      rw [div_eq_iff hpos.ne']
      linarith
    · have h' : (i.natAbs : ℚ) * 2 = r * 2 ^ k * 2 + 2 ^ k := by exact_mod_cast h
      rw [div_eq_iff hpos.ne']
      linarith
  have hle := hnear.le_of_lt hstep.high
  refine ⟨k, r, hstep.low.imp id fun h => by exact_mod_cast h, by exact_mod_cast hstep.high, hle, ?_⟩
  have hzero : i = 0 → r * 2 ^ k = 0 := by
    rintro rfl
    have := Nat.two_pow_pos k
    rcases Nat.eq_zero_or_pos r with rfl | hr
    · exact Nat.zero_mul _
    · have := Nat.le_mul_of_pos_left (2 ^ k) hr
      omega
  rw [hround]
  generalize r * 2 ^ k = multiple at hlow hhigh htie hzero ⊢
  rcases lt_trichotomy i 0 with hneg | rfl | hpos
  · rw [Int.sign_eq_neg_one_of_neg hneg, neg_one_mul]
    omega
  · obtain rfl := hzero rfl
    simp at htie hhigh ⊢
    omega
  · rw [Int.sign_eq_one_of_pos hpos, one_mul]
    omega

theorem onGrid_roundUnits (i : Int) : OnGrid (roundUnits i) := by
  obtain ⟨k, r, -, -, hle, habs, -⟩ := roundUnits_cases i
  exact ⟨r, k, hle, habs⟩

/-- Multiples that differ are a step apart. -/
theorem mul_two_pow_cases (q r k : Nat) :
    q = r ∨ q * 2 ^ k + 2 ^ k ≤ r * 2 ^ k ∨ r * 2 ^ k + 2 ^ k ≤ q * 2 ^ k := by
  rcases lt_trichotomy q r with h | h | h
  · right
    left
    rw [← Nat.succ_mul]
    exact Nat.mul_le_mul_right _ h
  · exact .inl h
  · right
    right
    rw [← Nat.succ_mul]
    exact Nat.mul_le_mul_right _ h

/-- No number on the grid is nearer than the rounded one. -/
theorem natAbs_sub_roundUnits_le (i : Int) {j : Int} (hj : OnGrid j) :
    (i - roundUnits i).natAbs ≤ (i - j).natAbs := by
  obtain ⟨k, r, hlow, -, hle, -, hleft, hhalf, -⟩ := roundUnits_cases i
  obtain ⟨m, l, hm, hj⟩ := hj
  -- sizes may be compared, as signs that differ only add to the distance
  suffices h : (i - roundUnits i).natAbs ≤ ((i.natAbs : Int) - j.natAbs).natAbs by omega
  by_cases hkl : k ≤ l
  · -- two multiples of the step
    obtain ⟨q, hq⟩ : ∃ q, j.natAbs = q * 2 ^ k := by
      refine ⟨m * 2 ^ (l - k), ?_⟩
      rw [hj, Nat.mul_assoc, ← Nat.pow_add, Nat.sub_add_cancel hkl]
    rcases mul_two_pow_cases q r k with rfl | hqr | hqr <;> omega
  · -- the numbers with a smaller step end where this one begins
    have hbelow : j.natAbs ≤ 2 ^ (52 + k) := by
      rw [hj]
      calc m * 2 ^ l ≤ 2 ^ 53 * 2 ^ l := Nat.mul_le_mul_right _ hm
        _ = 2 ^ (53 + l) := (Nat.pow_add 2 _ _).symm
        _ ≤ 2 ^ (52 + k) := Nat.pow_le_pow_right (by decide) (by omega)
    have hi := hlow.resolve_left (by omega)
    have hpow : 2 ^ (52 + k) = 2 ^ 52 * 2 ^ k := Nat.pow_add 2 52 k
    rcases mul_two_pow_cases (2 ^ 52) r k with rfl | hr | hr <;> omega

theorem two_pow_dvd_iff {i : Int} {k : Nat} : (2 ^ k : Int) ∣ i ↔ ∃ q, i.natAbs = q * 2 ^ k := by
  rw [← Int.natAbs_dvd_natAbs, Int.natAbs_pow, dvd_iff_exists_eq_mul_left]
  rfl

/-- Rounding keeps divisibility by powers of two. -/
theorem dvd_roundUnits {i : Int} {k : Nat} (h : (2 ^ k : Int) ∣ i) : (2 ^ k : Int) ∣ roundUnits i := by
  obtain ⟨l, r, -, -, -, habs, hleft, hhalf, -⟩ := roundUnits_cases i
  by_cases hkl : k ≤ l
  · exact (pow_dvd_pow 2 hkl).trans (two_pow_dvd_iff.mpr ⟨r, habs⟩)
  · -- what is left over is a multiple of the step and less than it
    obtain ⟨q, hq⟩ := two_pow_dvd_iff.mp ((pow_dvd_pow (2 : Int) (Nat.le_of_not_le hkl)).trans h)
    have hpos := Nat.two_pow_pos l
    have hzero : i - roundUnits i = 0 := by
      rcases mul_two_pow_cases q r l with rfl | hqr | hqr <;> omega
    rwa [show roundUnits i = i by omega]

/-! ## Separated numbers -/

theorem natAbs_sum_le (is : List Int) : is.sum.natAbs ≤ (is.map Int.natAbs).sum := by
  induction is with
  | nil => exact le_rfl
  | cons i rest ih =>
    rw [List.sum_cons, List.map_cons, List.sum_cons]
    exact (Int.natAbs_add_le _ _).trans (Nat.add_le_add_left ih _)

/-- The second number is a multiple of a power of two that is more than twice the first. -/
def Below (p q : Int) : Prop :=
  (2 ^ (p.natAbs.size + 1) : Int) ∣ q

theorem below_of_lt {p q : Int} {k : Nat} (hp : p.natAbs < 2 ^ k) (hq : (2 ^ (k + 1) : Int) ∣ q) :
    Below p q :=
  (pow_dvd_pow 2 (Nat.succ_le_succ (Nat.size_le.mpr hp))).trans hq

theorem Below.of_le {p p' q : Int} (h : Below p q) (hle : p'.natAbs ≤ p.natAbs) : Below p' q :=
  below_of_lt (hle.trans_lt (Nat.lt_size_self _)) h

theorem two_pow_le_natAbs {i : Int} {k : Nat} (h : (2 ^ k : Int) ∣ i) (hi : i ≠ 0) :
    2 ^ k ≤ i.natAbs := by
  obtain ⟨q, hq⟩ := two_pow_dvd_iff.mp h
  have hpos := Int.natAbs_pos.mpr hi
  rw [hq] at hpos ⊢
  exact Nat.le_mul_of_pos_left _ (Nat.pos_of_mul_pos_right hpos)

/-- A multiple that is less than a power of two stays a step away from it. -/
theorem natAbs_add_le {i : Int} {k l : Nat} (h : (2 ^ k : Int) ∣ i) (hkl : k ≤ l)
    (hi : i.natAbs < 2 ^ l) : i.natAbs + 2 ^ k ≤ 2 ^ l := by
  obtain ⟨q, hq⟩ := two_pow_dvd_iff.mp h
  have hpow : 2 ^ l = 2 ^ (l - k) * 2 ^ k := by rw [← Nat.pow_add, Nat.sub_add_cancel hkl]
  rcases mul_two_pow_cases q (2 ^ (l - k)) k with rfl | h | h <;> omega

/-- What rounding leaves over is below the rounded number. -/
theorem below_roundUnits {i : Int} (h : i - roundUnits i ≠ 0) :
    Below (i - roundUnits i) (roundUnits i) := by
  obtain ⟨k, r, -, -, -, habs, -, hhalf, htie⟩ := roundUnits_cases i
  have hpos := Int.natAbs_pos.mpr h
  obtain ⟨l, rfl⟩ : ∃ l, k = l + 1 := Nat.exists_eq_add_one.mpr <| by
    by_contra hk
    obtain rfl : k = 0 := by omega
    rw [Nat.pow_zero] at hhalf
    omega
  rcases hhalf.lt_or_eq with hlt | heq
  · exact below_of_lt (k := l) (by omega) (two_pow_dvd_iff.mpr ⟨r, habs⟩)
  · obtain ⟨c, rfl⟩ := Nat.dvd_of_mod_eq_zero (htie heq)
    refine below_of_lt (k := l + 1) (by omega) (two_pow_dvd_iff.mpr ⟨c, ?_⟩)
    rw [habs, Nat.pow_succ 2 (l + 1)]
    ring

/-- Separated multiples of `2 ^ i` whose sizes are less than `2 ^ j` add up to less. -/
theorem sum_natAbs_le {ps : List Int} (hsep : ps.Pairwise Below) (hne : ∀ p ∈ ps, p ≠ 0) {i j : Nat}
    (hij : i ≤ j) (hdvd : ∀ p ∈ ps, (2 ^ i : Int) ∣ p) (hlt : ∀ p ∈ ps, p.natAbs < 2 ^ j) :
    (ps.map Int.natAbs).sum + 2 ^ i ≤ 2 ^ j := by
  induction ps generalizing i with
  | nil =>
    rw [List.map_nil, List.sum_nil, Nat.zero_add]
    exact Nat.pow_le_pow_right (by decide) hij
  | cons p rest ih =>
    rw [List.pairwise_cons] at hsep
    rw [List.forall_mem_cons] at hne hdvd hlt
    rw [List.map_cons, List.sum_cons]
    have hsize : p.natAbs < 2 ^ p.natAbs.size := Nat.lt_size_self _
    have hi : i ≤ p.natAbs.size := (Nat.lt_size.mpr (two_pow_le_natAbs hdvd.1 hne.1)).le
    by_cases hrest : rest = []
    · have := natAbs_add_le hdvd.1 hij hlt.1
      rw [hrest, List.map_nil, List.sum_nil]
      omega
    · obtain ⟨q, hq⟩ := List.exists_mem_of_ne_nil rest hrest
      have hj : p.natAbs.size + 1 ≤ j := by
        have hle := two_pow_le_natAbs (hsep.1 q hq) (hne.2 q hq)
        exact ((Nat.pow_lt_pow_iff_right (by decide)).mp (hle.trans_lt (hlt.2 q hq))).le
      have hhead := natAbs_add_le hdvd.1 hi hsize
      have htail := ih hsep.2 hne.2 hj hsep.1 hlt.2
      rw [Nat.pow_succ] at htail
      omega

/-! ## The largest numbers -/

/-- Half of the step between the largest numbers. -/
def halfStep : Nat := twoTo 2044

/-- The units of the largest finite number. -/
def largestUnits : Nat := (2 ^ 54 - 2) * halfStep

theorem twoTo_add (m n : Nat) : twoTo (m + n) = twoTo m * twoTo n := by
  rw [twoTo_eq, twoTo_eq, twoTo_eq, Nat.pow_add]

theorem overflowKey_eq : overflowKey = 2 ^ 54 * halfStep := twoTo_add 54 2044

theorem overflowUnits_eq : overflowUnits = ((2 ^ 54 - 1) * halfStep : Nat) := by
  have hkey : twoTo 2098 = 2 ^ 54 * twoTo 2044 := twoTo_add 54 2044
  rw [overflowUnits, hkey, halfStep]
  push_cast
  ring

theorem exists_halfStep_eq : ∃ k, k = 2044 ∧ halfStep = 2 ^ k := ⟨2044, rfl, twoTo_eq 2044⟩

theorem halfStep_pos : 0 < halfStep := twoTo_pos 2044

/-- The largest number has all 53 binary digits, and a step of two half steps. -/
theorem exists_largestUnits_eq :
    ∃ k, k = 2045 ∧ largestUnits = (2 ^ 53 - 1) * 2 ^ k ∧ halfStep * 2 = 2 ^ k := by
  obtain ⟨l, hl, hhalf⟩ := exists_halfStep_eq
  refine ⟨l + 1, by omega, ?_, by rw [hhalf, Nat.pow_succ]⟩
  rw [largestUnits, hhalf, Nat.pow_succ]
  ring

/-- What is less than the least overflow is rounded to a finite number. -/
theorem RoundsUnits.le_largestUnits (h : RoundsUnits a n) (ha : a < ((2 ^ 54 - 1) * halfStep : Nat)) :
    n ≤ largestUnits := by
  obtain ⟨k, -, hlargest, hstep⟩ := exists_largestUnits_eq
  rw [hlargest]
  refine h.le_of_lt_half (by decide) (by decide) ?_
  have hstep' : (halfStep : ℚ) * 2 = 2 ^ k := by exact_mod_cast hstep
  rw [← hstep']
  push_cast at ha ⊢
  linarith

theorem largestUnits_lt_overflowKey : largestUnits < overflowKey := by
  rw [overflowKey_eq]
  exact Nat.mul_lt_mul_of_pos_right (by decide) halfStep_pos

theorem Rounds.isFinite_of_lt {x : Float} (hx : Rounds a x)
    (ha : |a| < ((2 ^ 54 - 1) * halfStep : Nat)) : x.isFinite = true := by
  obtain ⟨n, hn, hkey⟩ := hx.key_eq
  have hle := hn.le_largestUnits ha
  have hlt := largestUnits_lt_overflowKey
  exact (isFinite_iff_key hx.defined).mpr ⟨by omega, by omega⟩

theorem Rounds.isFinite_of_le_largest {x : Float} (hx : Rounds a x) (ha : |a| ≤ largestUnits) :
    x.isFinite = true := by
  refine hx.isFinite_of_lt (ha.trans_lt ?_)
  rw [largestUnits, Nat.cast_lt]
  exact Nat.mul_lt_mul_of_pos_right (by decide) halfStep_pos

/-- What is rounded to a finite number is below the power of two that is no longer finite. -/
theorem Rounds.lt_of_isFinite {x : Float} (hx : Rounds a x) (hfinite : x.isFinite = true) :
    a < (2 ^ 54 * halfStep : Nat) := by
  obtain ⟨k, -, -, hdouble⟩ := exists_largestUnits_eq
  obtain ⟨n, hn, hkey⟩ := hx.key_eq
  have hbounds := (isFinite_iff_key hx.defined).mp hfinite
  by_contra hlarge
  have hpower : 2 ^ 53 * 2 ^ k = 2 ^ 54 * halfStep := by
    rw [← hdouble]
    ring
  rw [← hpower, not_lt] at hlarge
  have hle := (RoundsUnits.self le_rfl k).mono hn (hlarge.trans (le_abs_self a))
  rw [hpower, ← overflowKey_eq] at hle
  omega

theorem natAbs_roundUnits_le {i : Int} (h : i.natAbs < (2 ^ 54 - 1) * halfStep) :
    (roundUnits i).natAbs ≤ largestUnits ∧ (i - roundUnits i).natAbs ≤ halfStep := by
  refine ⟨(roundsUnits_roundUnits i).le_largestUnits (by exact_mod_cast h), ?_⟩
  obtain ⟨l, -, hhalf⟩ := exists_halfStep_eq
  obtain ⟨k, r, hlow, -, -, -, -, hleft, -⟩ := roundUnits_cases i
  rw [hhalf] at h ⊢
  have hle : k ≤ l + 1 := by
    rcases hlow with rfl | hlow
    · exact Nat.zero_le _
    · have hlt : 2 ^ (52 + k) < 2 ^ (54 + l) := by
        rw [Nat.pow_add 2 54]
        exact hlow.trans_lt (h.trans_le (Nat.mul_le_mul_right _ (by decide)))
      have := (Nat.pow_lt_pow_iff_right (by decide)).mp hlt
      omega
  have hpow := Nat.pow_le_pow_right (show 0 < 2 by decide) hle
  rw [Nat.pow_succ] at hpow
  omega

/-! ## Parts of a sum -/

theorem isRoundable_iff {i : Int} : isRoundable i = true ↔ i.natAbs < (2 ^ 54 - 1) * halfStep := by
  rw [isRoundable, overflowUnits_eq, Bool.and_eq_true, decide_eq_true_iff, decide_eq_true_iff]
  generalize (2 ^ 54 - 1) * halfStep = limit
  omega

namespace SumParts

variable {x part : Int} {parts rest parts' : List Int}

theorem add?_nil : add? x [] = some parts' ↔ parts' = if x = 0 then [] else [x] := by
  rw [add?, Option.some.injEq, eq_comm]

/-- A term is added to the first part, and what it is rounded to is added to the others. -/
theorem add?_cons : add? x (part :: rest) = some parts' ↔
    (x + part).natAbs < (2 ^ 54 - 1) * halfStep ∧
      ∃ tail, add? (roundUnits (x + part)) rest = some tail ∧
        parts' = if x + part - roundUnits (x + part) = 0 then tail
          else (x + part - roundUnits (x + part)) :: tail := by
  rw [add?, ← isRoundable_iff]
  dsimp only
  split
  next h =>
    rw [Option.map_eq_some_iff]
    simp only [h, true_and, eq_comm]
  next h => simp [h]

/-- What was left over is a part unless it is zero. -/
theorem mem_ite_cons {p leftover : Int} {tail : List Int} :
    p ∈ (if leftover = 0 then tail else leftover :: tail) ↔ (p = leftover ∧ p ≠ 0) ∨ p ∈ tail := by
  split
  next h => simp only [h, and_not_self, false_or]
  next h =>
    rw [List.mem_cons]
    exact or_congr_left ⟨fun hp => ⟨hp, by rwa [hp]⟩, And.left⟩

theorem sum_add? (h : add? x parts = some parts') : parts'.sum = x + parts.sum := by
  induction parts generalizing x parts' with
  | nil =>
    obtain rfl := add?_nil.mp h
    split <;> simp [*]
  | cons part rest ih =>
    obtain ⟨-, tail, htail, rfl⟩ := add?_cons.mp h
    have hsum := ih htail
    rw [List.sum_cons]
    split
    · omega
    · rw [List.sum_cons]
      omega

theorem ne_zero_add? (h : add? x parts = some parts') : ∀ p ∈ parts', p ≠ 0 := by
  induction parts generalizing x parts' with
  | nil =>
    obtain rfl := add?_nil.mp h
    intro p hp
    exact (mem_ite_cons.mp hp).elim And.right fun hp => absurd hp List.not_mem_nil
  | cons part rest ih =>
    obtain ⟨-, tail, htail, rfl⟩ := add?_cons.mp h
    intro p hp
    exact (mem_ite_cons.mp hp).elim And.right (ih htail p)

theorem dvd_add? {k : Nat} (hx : (2 ^ k : Int) ∣ x) (hparts : ∀ p ∈ parts, (2 ^ k : Int) ∣ p)
    (h : add? x parts = some parts') : ∀ p ∈ parts', (2 ^ k : Int) ∣ p := by
  induction parts generalizing x parts' with
  | nil =>
    obtain rfl := add?_nil.mp h
    intro p hp
    rcases mem_ite_cons.mp hp with ⟨rfl, -⟩ | hp
    · exact hx
    · exact absurd hp List.not_mem_nil
  | cons part rest ih =>
    obtain ⟨-, tail, htail, rfl⟩ := add?_cons.mp h
    rw [List.forall_mem_cons] at hparts
    have htotal := dvd_add hx hparts.1
    intro p hp
    rcases mem_ite_cons.mp hp with ⟨rfl, -⟩ | hp
    · exact dvd_sub htotal (dvd_roundUnits htotal)
    · exact ih (dvd_roundUnits htotal) hparts.2 htail p hp

/-- What is left over is not larger than the part that it replaces. -/
theorem natAbs_leftover_le (hx : OnGrid x) :
    (x + part - roundUnits (x + part)).natAbs ≤ part.natAbs := by
  have h := natAbs_sub_roundUnits_le (x + part) hx
  rwa [add_sub_cancel_left] at h

theorem separated_add? (hx : OnGrid x) (hparts : parts.Pairwise Below)
    (h : add? x parts = some parts') : parts'.Pairwise Below := by
  induction parts generalizing x parts' with
  | nil =>
    obtain rfl := add?_nil.mp h
    split
    · exact .nil
    · exact List.pairwise_singleton _ _
  | cons part rest ih =>
    obtain ⟨-, tail, htail, rfl⟩ := add?_cons.mp h
    rw [List.pairwise_cons] at hparts
    have hrest := ih (onGrid_roundUnits _) hparts.2 htail
    split
    · exact hrest
    next hne =>
      refine List.pairwise_cons.mpr ⟨?_, hrest⟩
      exact dvd_add? (below_roundUnits hne)
        (fun q hq => (hparts.1 q hq).of_le (natAbs_leftover_le hx)) htail

/-- All parts are numbers of units of finite numbers, and all but the last are at most half a step. -/
theorem bounded_add? (hx : x.natAbs ≤ largestUnits) (h : add? x parts = some parts') :
    (∀ p ∈ parts', p.natAbs ≤ largestUnits) ∧ ∀ p ∈ parts'.dropLast, p.natAbs ≤ halfStep := by
  induction parts generalizing x parts' with
  | nil =>
    obtain rfl := add?_nil.mp h
    split <;> simp [hx]
  | cons part rest ih =>
    obtain ⟨hround, tail, htail, rfl⟩ := add?_cons.mp h
    obtain ⟨hle, hleft⟩ := natAbs_roundUnits_le hround
    obtain ⟨hall, hlower⟩ := ih hle htail
    split
    · exact ⟨hall, hlower⟩
    · have hlarge : halfStep ≤ largestUnits := Nat.le_mul_of_pos_left _ (by decide)
      refine ⟨List.forall_mem_cons.mpr ⟨hleft.trans hlarge, hall⟩, fun p hp => ?_⟩
      cases tail with
      | nil => exact absurd hp List.not_mem_nil
      | cons q tail =>
        rw [List.dropLast_cons_cons, List.mem_cons] at hp
        rcases hp with rfl | hp
        · exact hleft
        · exact hlower p hp

/-- The sizes of all parts but the last, added up. -/
def lower (parts : List Int) : Nat :=
  (parts.dropLast.map Int.natAbs).sum

/-- A term can be added if neither it nor the new total is too large. What is left over on the way to the
last part may be counted twice. -/
theorem add?_isSome (hx : OnGrid x) (hterm : x.natAbs + 2 * lower parts < (2 ^ 54 - 1) * halfStep)
    (htotal : (x + parts.sum).natAbs + lower parts < (2 ^ 54 - 1) * halfStep) :
    ∃ parts', add? x parts = some parts' := by
  induction parts generalizing x with
  | nil => exact ⟨_, rfl⟩
  | cons part rest ih =>
    have hleft := @natAbs_leftover_le x part hx
    rw [List.sum_cons] at htotal
    cases rest with
    | nil =>
      rw [List.sum_nil] at htotal
      exact ⟨_, add?_cons.mpr ⟨by omega, _, rfl, rfl⟩⟩
    | cons next rest =>
      have hlower : lower (part :: next :: rest) = part.natAbs + lower (next :: rest) := by
        rw [lower, List.dropLast_cons_cons, List.map_cons, List.sum_cons]
        rfl
      rw [hlower] at hterm htotal
      obtain ⟨tail, htail⟩ := ih (onGrid_roundUnits (x + part)) (by omega) (by omega)
      exact ⟨_, add?_cons.mpr ⟨by omega, tail, htail, rfl⟩⟩

end SumParts

/-- What the parts of a sum are: separated numbers, of which only the last may be large. -/
structure Parts (parts : List Int) : Prop where
  ne_zero : ∀ p ∈ parts, p ≠ 0
  separated : parts.Pairwise Below
  bounded : ∀ p ∈ parts, p.natAbs ≤ largestUnits
  small : ∀ p ∈ parts.dropLast, p.natAbs ≤ halfStep

namespace Parts

variable {parts : List Int} (h : Parts parts)

include h

theorem lower_lt : SumParts.lower parts < 2 * halfStep := by
  obtain ⟨l, -, hhalf⟩ := exists_halfStep_eq
  have hsub := List.dropLast_sublist parts
  have hlt : ∀ p ∈ parts.dropLast, p.natAbs < 2 ^ (l + 1) := by
    intro p hp
    have hp := h.small p hp
    rw [hhalf] at hp
    exact hp.trans_lt (Nat.pow_lt_pow_right (by decide) (by omega))
  have hsum := sum_natAbs_le (h.separated.sublist hsub) (fun p hp => h.ne_zero p (hsub.subset hp))
    (Nat.zero_le (l + 1)) (fun p _ => by rw [pow_zero]; exact one_dvd p) hlt
  rw [Nat.pow_succ, ← hhalf] at hsum
  rw [SumParts.lower]
  omega

/-- The exact total of the parts is not rounded to infinity. -/
theorem natAbs_sum_lt : parts.sum.natAbs < (2 ^ 54 - 1) * halfStep := by
  obtain ⟨l, -, hhalf⟩ := exists_halfStep_eq
  have hpos := halfStep_pos
  obtain ⟨hne, hsep, hbounded, hsmall⟩ := h
  rcases List.eq_nil_or_concat' parts with rfl | ⟨front, last, rfl⟩
  · rw [List.sum_nil]
    exact Nat.mul_pos (by decide) hpos
  rw [List.pairwise_append] at hsep
  rw [List.dropLast_concat] at hsmall
  have hlast := hbounded last (by simp)
  have hsum : (front ++ [last]).sum.natAbs ≤ (front.map Int.natAbs).sum + last.natAbs := by
    rw [List.sum_append, List.sum_singleton]
    exact (Int.natAbs_add_le _ _).trans (Nat.add_le_add_right (natAbs_sum_le front) _)
  rw [largestUnits] at hlast
  rcases List.eq_nil_or_concat' front with rfl | ⟨front, q, rfl⟩
  · rw [List.map_nil, List.sum_nil] at hsum
    omega
  -- all parts but the last are smaller than what divides the last one
  have hqne : q ≠ 0 := hne q (by simp)
  have hlt : ∀ p ∈ front ++ [q], p.natAbs < 2 ^ q.natAbs.size := by
    intro p hp
    have hq := Nat.lt_size_self q.natAbs
    rcases List.mem_append.mp hp with hp | hp
    · have hbelow : Below p q :=
        (List.pairwise_append.mp hsep.1).2.2 p hp q (List.mem_singleton_self q)
      have hle := two_pow_le_natAbs hbelow hqne
      rw [Nat.pow_succ] at hle
      have := Nat.lt_size_self p.natAbs
      omega
    · rwa [List.mem_singleton.mp hp]
  have hfront := sum_natAbs_le hsep.1 (fun p hp => hne p (List.mem_append_left _ hp))
    (Nat.zero_le q.natAbs.size) (fun p _ => by rw [pow_zero]; exact one_dvd p) hlt
  have hsize : q.natAbs.size ≤ l + 1 := by
    rw [Nat.size_le, Nat.pow_succ, ← hhalf]
    have := hsmall q (by simp)
    omega
  rcases hsize.lt_or_eq with hle | heq
  · have hpow := Nat.pow_le_pow_right (show 0 < 2 by decide) (Nat.le_of_lt_succ hle)
    rw [← hhalf] at hpow
    omega
  · have hdvd : (2 ^ (l + 2) : Int) ∣ last := by
      have hbelow := hsep.2.2 q (by simp) last (List.mem_singleton_self last)
      rwa [Below, heq] at hbelow
    have hstep := natAbs_add_le (l := 54 + l) hdvd (by omega) (by
      rw [Nat.pow_add, ← hhalf]
      omega)
    rw [heq, Nat.pow_succ, ← hhalf] at hfront
    rw [Nat.pow_add, Nat.pow_add 2 54, ← hhalf] at hstep
    omega

omit h in
/-- What adding a term keeps. -/
theorem add? {x : Int} {parts' : List Int} (h : Parts parts) (hx : OnGrid x)
    (hle : x.natAbs ≤ largestUnits) (hadd : SumParts.add? x parts = some parts') : Parts parts' := by
  obtain ⟨hbounded, hsmall⟩ := SumParts.bounded_add? hle hadd
  exact ⟨SumParts.ne_zero_add? hadd, SumParts.separated_add? hx h.separated hadd, hbounded, hsmall⟩

end Parts

/-! ## Sums of numbers -/

theorem natAbs_units_le {x : Float} (hx : x.isFinite = true) :
    OnGrid (units x) ∧ (units x).natAbs ≤ largestUnits := by
  obtain ⟨l, hl, hhalf⟩ := exists_halfStep_eq
  rw [OnGrid, natAbs_units]
  rcases unpack_finite hx with ⟨hzero, -⟩ | ⟨m, e, -, -, hc, he, hmag⟩
  · rw [hzero]
    exact ⟨⟨0, 0, Nat.zero_le _, rfl⟩, Nat.zero_le _⟩
  · refine ⟨⟨m, _, hc.lt.le, hmag⟩, ?_⟩
    have hm := hc.lt
    rw [hmag, largestUnits, hhalf]
    calc m * 2 ^ (e + 1074).toNat ≤ (2 ^ 53 - 1) * 2 ^ (l + 1) :=
          Nat.mul_le_mul (by omega) (Nat.pow_le_pow_right (by decide) (by omega))
      _ = (2 ^ 54 - 2) * 2 ^ l := by rw [Nat.pow_succ]; ring

section

variable {terms : List Float} (hterms : ∀ x ∈ terms, x.isFinite = true)

include hterms

/-- What adding some terms keeps. -/
theorem Parts.addAll? {parts parts' : List Int} (h : Parts parts)
    (hadd : SumParts.addAll? terms parts = some parts') :
    Parts parts' ∧ parts'.sum = parts.sum + (terms.map units).sum := by
  induction terms generalizing parts with
  | nil =>
    obtain rfl : parts = parts' := Option.some.inj hadd
    rw [List.map_nil, List.sum_nil]
    exact ⟨h, (add_zero _).symm⟩
  | cons x rest ih =>
    rw [List.forall_mem_cons] at hterms
    obtain ⟨next, hnext, hrest⟩ := Option.bind_eq_some_iff.mp hadd
    obtain ⟨hgrid, hle⟩ := natAbs_units_le hterms.1
    obtain ⟨hparts, hsum⟩ := ih hterms.2 (h.add? hgrid hle hnext) hrest
    refine ⟨hparts, ?_⟩
    rw [hsum, SumParts.sum_add? hnext, List.map_cons, List.sum_cons]
    ring

/-- Terms can be added as long as the sizes of all of them leave some room below the largest number. -/
theorem Parts.addAll?_isSome {parts : List Int} (h : Parts parts)
    (hsum : parts.sum.natAbs + (terms.map fun x => (units x).natAbs).sum ≤ (2 ^ 54 - 5) * halfStep) :
    ∃ parts', SumParts.addAll? terms parts = some parts' := by
  induction terms generalizing parts with
  | nil => exact ⟨parts, rfl⟩
  | cons x rest ih =>
    rw [List.forall_mem_cons] at hterms
    rw [List.map_cons, List.sum_cons] at hsum
    have hlower := h.lower_lt
    have hpos := halfStep_pos
    have htotal := Int.natAbs_add_le (units x) parts.sum
    obtain ⟨hgrid, hle⟩ := natAbs_units_le hterms.1
    obtain ⟨next, hnext⟩ : ∃ next, SumParts.add? (units x) parts = some next :=
      SumParts.add?_isSome hgrid (by omega) (by omega)
    obtain ⟨parts', hrest⟩ := ih hterms.2 (h.add? hgrid hle hnext) (by
      rw [SumParts.sum_add? hnext]
      omega)
    exact ⟨parts', Option.bind_eq_some_iff.mpr ⟨next, hnext, hrest⟩⟩

omit hterms in
theorem Parts.nil : Parts [] :=
  ⟨fun _ hp => absurd hp List.not_mem_nil, .nil, fun _ hp => absurd hp List.not_mem_nil,
    fun _ hp => absurd hp List.not_mem_nil⟩

/-- A sum that does not overflow is the exact sum, rounded. -/
theorem eq_ofUnits_of_exactSum? {z : Float} (h : exactSum? terms = some z) :
    z = ofUnits (terms.map units).sum ∧ (terms.map units).sum.natAbs < (2 ^ 54 - 1) * halfStep := by
  obtain ⟨parts, hadd, rfl⟩ := Option.map_eq_some_iff.mp h
  obtain ⟨hparts, hsum⟩ := Parts.nil.addAll? hterms hadd
  rw [List.sum_nil, zero_add] at hsum
  have hlt := hparts.natAbs_sum_lt
  rw [hsum] at hlt
  exact ⟨by rw [← List.sum_eq_foldl, hsum], hlt⟩

/-- A sum that does not overflow is finite. -/
theorem rounds_exactSum? {z : Float} (h : exactSum? terms = some z) :
    z.isFinite = true ∧ Rounds ((terms.map units).sum : Int) z := by
  obtain ⟨rfl, hlt⟩ := eq_ofUnits_of_exactSum? hterms h
  have hrounds := rounds_ofUnits (terms.map units).sum
  refine ⟨hrounds.isFinite_of_lt ?_, hrounds⟩
  rw [← Int.cast_abs, ← Nat.cast_natAbs]
  exact_mod_cast hlt

/-- Sums of the same numbers in another order are equal if both or neither overflow. -/
theorem exactSum?_perm {terms' : List Float} (hperm : terms.Perm terms')
    (h : (exactSum? terms).isSome = (exactSum? terms').isSome) : exactSum? terms = exactSum? terms' := by
  have hterms' : ∀ x ∈ terms', x.isFinite = true := fun x hx => hterms x (hperm.mem_iff.mpr hx)
  cases hsum : exactSum? terms with
  | none =>
    rw [hsum] at h
    exact (Option.isSome_eq_false_iff.mp h.symm |> Option.isNone_iff_eq_none.mp).symm
  | some z =>
    rw [hsum] at h
    obtain ⟨z', hsum'⟩ := Option.isSome_iff_exists.mp h.symm
    rw [hsum', (eq_ofUnits_of_exactSum? hterms hsum).1, (eq_ofUnits_of_exactSum? hterms' hsum').1,
      (hperm.map units).sum_eq]

/-- Numbers whose sizes add up to something below the largest numbers have a sum. -/
theorem exactSum?_isSome
    (hsum : (terms.map fun x => (units x).natAbs).sum ≤ (2 ^ 54 - 5) * halfStep) :
    ∃ z, exactSum? terms = some z := by
  obtain ⟨parts, hadd⟩ := Parts.nil.addAll?_isSome hterms (by simpa using hsum)
  exact ⟨_, by rw [exactSum?, hadd]; rfl⟩

end

end RangeCalc.Binary64
