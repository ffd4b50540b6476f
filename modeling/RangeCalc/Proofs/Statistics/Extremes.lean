import RangeCalc.Proofs.Number.Order
import RangeCalc.Scalar.Binary64

/-!
# Least and greatest numbers

The least and the greatest of some finite numbers are among them, and no number is beyond them.

* `foldl_beaten`: the choice between two numbers at a time, for any comparison by an integer;
* `isLeast_least`, `isGreatest_greatest`: the two choices.
-/

namespace RangeCalc

/-- The element that remains when one after another takes its place if it beats it. -/
theorem foldl_beaten {α : Type} (beats : α → α → Prop) [DecidableRel beats] (rank : α → Int)
    (first : α) {rest : List α}
    (h : ∀ x ∈ first :: rest, ∀ y ∈ first :: rest, beats y x ↔ rank x < rank y) :
    rest.foldl (fun a b => if beats b a then b else a) first ∈ first :: rest ∧
      ∀ x ∈ first :: rest, rank x ≤ rank (rest.foldl (fun a b => if beats b a then b else a) first) := by
  induction rest generalizing first with
  | nil => exact ⟨List.mem_singleton_self first, fun x hx => by rw [List.mem_singleton.mp hx]; rfl⟩
  | cons y rest ih =>
    have hy : y ∈ first :: y :: rest := List.mem_cons_of_mem first List.mem_cons_self
    -- the winner of the first two stands for both
    obtain ⟨winner, hwinner⟩ : ∃ w, (if beats y first then y else first) = w := ⟨_, rfl⟩
    have hmem : winner = first ∨ winner = y := by
      rw [← hwinner]
      split
      · exact .inr rfl
      · exact .inl rfl
    have hbest : rank first ≤ rank winner ∧ rank y ≤ rank winner := by
      have hbeats := h first List.mem_cons_self y hy
      rw [← hwinner]
      split
      next hyes => exact ⟨(hbeats.mp hyes).le, le_refl _⟩
      next hno => exact ⟨le_refl _, not_lt.mp (mt hbeats.mpr hno)⟩
    have hsub : ∀ x ∈ winner :: rest, x ∈ first :: y :: rest := by
      rintro x (_ | ⟨_, hx⟩)
      · rcases hmem with rfl | rfl
        · exact List.mem_cons_self
        · exact hy
      · exact List.mem_cons_of_mem first (List.mem_cons_of_mem y hx)
    obtain ⟨hin, hall⟩ := ih winner fun x hx z hz => h x (hsub x hx) z (hsub z hz)
    rw [List.foldl_cons, hwinner]
    refine ⟨hsub _ hin, ?_⟩
    have htop := hall winner List.mem_cons_self
    rintro x (_ | ⟨_, _ | ⟨_, hx⟩⟩)
    · exact hbest.1.trans htop
    · exact hbest.2.trans htop
    · exact hall x (List.mem_cons_of_mem winner hx)

section

open Binary64

variable [MathLibrary] {first : Float} {rest : List Float}
  (h : ∀ x ∈ first :: rest, x.isFinite = true)

include h

/-- The least of some finite numbers is one of them, and no number is below it. -/
theorem isLeast_least :
    Scalar.least first rest ∈ first :: rest ∧ ∀ x ∈ first :: rest, Scalar.least first rest ≤ x := by
  obtain ⟨hin, hall⟩ := foldl_beaten (fun y x : Float => y < x) (fun x => -units x) first
    fun x hx y hy => by rw [lt_iff_units (h y hy) (h x hx), neg_lt_neg_iff]
  refine ⟨hin, fun x hx => (le_iff_units (h _ hin) (h x hx)).mpr ?_⟩
  exact neg_le_neg_iff.mp (hall x hx)

/-- The greatest of some finite numbers is one of them, and no number is above it. -/
theorem isGreatest_greatest :
    Scalar.greatest first rest ∈ first :: rest ∧
      ∀ x ∈ first :: rest, x ≤ Scalar.greatest first rest := by
  obtain ⟨hin, hall⟩ := foldl_beaten (fun y x : Float => x < y) units first
    fun x hx y hy => lt_iff_units (h x hx) (h y hy)
  exact ⟨hin, fun x hx => (le_iff_units (h x hx) (h _ hin)).mpr (hall x hx)⟩

end

end RangeCalc
