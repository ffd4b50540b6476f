import Mathlib.Logic.Function.Basic
import Mathlib.Tactic.Linarith
import Mathlib.Tactic.LinearCombination
import RangeCalc.Proofs.Bounds.Tally
import RangeCalc.Proofs.Formula.Substitute
import RangeCalc.Proofs.Range.Corner
import RangeCalc.Proofs.Scalar.Exact

/-!
# Bounds of polynomials

A formula built from numbers and variables with signs, sums, differences and products is affine in each
variable that it mentions once (`exists_affine`). On a box such a function is greatest at a corner: one
coordinate after the other can be moved to one of its bounds without making the value less
(`exists_corner_ge`). So the bounds that are found at the corners enclose the value at every point of the
box, and what a simulation draws is the value at a point of the box (`exists_eval_substitute`).
-/

namespace RangeCalc

open Formula

/-- Formulas built from rational numbers and variables with signs, sums, differences and products. -/
inductive IsPolynomial : Formula Exact → Prop
  | number (q : ℚ) : IsPolynomial (.number (.rational q))
  | var (name : String) : IsPolynomial (.var name)
  | signed (sign : Sign) {f : Formula Exact} : IsPolynomial f → IsPolynomial (.signed sign f)
  | binary {op : BinaryOp} (hop : op ∈ [BinaryOp.add, .sub, .mul]) {f g : Formula Exact} :
      IsPolynomial f → IsPolynomial g → IsPolynomial (.binary op f g)

/-- The value of a polynomial at a point. -/
def polynomialValue (x : String → ℚ) : Formula Exact → ℚ
  | .number (.rational q) => q
  | .var name => x name
  | .signed .minus f => -polynomialValue x f
  | .signed .plus f => polynomialValue x f
  | .binary .add f g => polynomialValue x f + polynomialValue x g
  | .binary .sub f g => polynomialValue x f - polynomialValue x g
  | .binary .mul f g => polynomialValue x f * polynomialValue x g
  | _ => 0

namespace IsPolynomial

variable {f : Formula Exact} {x y : String → ℚ}

theorem value_congr (hf : IsPolynomial f) (h : ∀ v ∈ f.vars, x v = y v) :
    polynomialValue x f = polynomialValue y f := by
  induction hf with
  | number q => rfl
  | var name => exact h name (by simp [vars])
  | signed sign _ ih => cases sign <;> simp only [polynomialValue, ih h]
  | binary hop _ _ ihf ihg =>
    rw [vars] at h
    have hf := ihf fun v hv => h v (List.mem_append_left _ hv)
    have hg := ihg fun v hv => h v (List.mem_append_right _ hv)
    simp only [List.mem_cons, List.not_mem_nil, or_false] at hop
    rcases hop with rfl | rfl | rfl <;> simp only [polynomialValue, hf, hg]

theorem value_update (hf : IsPolynomial f) {v : String} (h : v ∉ f.vars) (t : ℚ) :
    polynomialValue (Function.update x v t) f = polynomialValue x f :=
  hf.value_congr fun w hw => Function.update_of_ne (fun e : w = v => h (e ▸ hw)) ..

/-- A polynomial that mentions each variable once is affine in each of them. -/
theorem exists_affine (hf : IsPolynomial f) (hn : f.vars.Nodup) (x : String → ℚ) (v : String) :
    ∃ a b : ℚ, ∀ t, polynomialValue (Function.update x v t) f = a * t + b := by
  induction hf with
  | number q => exact ⟨0, q, fun t => by simp [polynomialValue]⟩
  | var name =>
    by_cases h : name = v
    · exact ⟨1, 0, fun t => by simp [polynomialValue, h]⟩
    · exact ⟨0, x name, fun t => by simp [polynomialValue, h]⟩
  | signed sign _ ih =>
    obtain ⟨a, b, h⟩ := ih hn
    cases sign with
    | minus => exact ⟨-a, -b, fun t => by rw [polynomialValue, h]; ring⟩
    | plus => exact ⟨a, b, h⟩
  | @binary op hop f g hf hg ihf ihg =>
    rw [vars, List.nodup_append] at hn
    obtain ⟨a, b, h⟩ := ihf hn.1
    obtain ⟨c, d, k⟩ := ihg hn.2.1
    simp only [List.mem_cons, List.not_mem_nil, or_false] at hop
    rcases hop with rfl | rfl | rfl
    · exact ⟨a + c, b + d, fun t => by rw [polynomialValue, h, k]; ring⟩
    · exact ⟨a - c, b - d, fun t => by rw [polynomialValue, h, k]; ring⟩
    · -- one of the two factors does not mention the variable
      by_cases hv : v ∈ f.vars
      · have hg' : v ∉ g.vars := fun hw => hn.2.2 _ hv _ hw rfl
        refine ⟨a * polynomialValue x g, b * polynomialValue x g, fun t => ?_⟩
        rw [polynomialValue, h, hg.value_update hg']
        ring
      · refine ⟨polynomialValue x f * c, polynomialValue x f * d, fun t => ?_⟩
        rw [polynomialValue, hf.value_update hv, k]
        ring

theorem eval_eq {σ : Type} {source : Source Exact σ} {env : String → Option Exact} (hf : IsPolynomial f)
    (h : ∀ v ∈ f.vars, env v = some (.rational (x v))) (s : σ) :
    f.eval source env s = (.ok (.number (.rational (polynomialValue x f))), s) := by
  induction hf with
  | number q => rfl
  | var name => exact eval_var (h name (by simp [vars]))
  | signed sign _ ih =>
    rw [eval_signed sign (ih h)]
    cases sign <;> rfl
  | binary hop _ _ ihf ihg =>
    rw [vars] at h
    rw [eval_binary _ (ihf fun v hv => h v (List.mem_append_left _ hv))
      (ihg fun v hv => h v (List.mem_append_right _ hv))]
    simp only [List.mem_cons, List.not_mem_nil, or_false] at hop
    rcases hop with rfl | rfl | rfl <;> rfl

end IsPolynomial

/-! ## The box -/

/-- A range with rational bounds. -/
def RangeVar.exact (r : RangeVar ℚ) : RangeVar Exact :=
  ⟨r.name, ⟨.rational r.interval.min, .rational r.interval.max⟩⟩

/-- Whether a point is inside the box that ranges span. -/
def Inside (box : List (RangeVar ℚ)) (x : String → ℚ) : Prop :=
  ∀ r ∈ box, r.interval.min ≤ x r.name ∧ x r.name ≤ r.interval.max

/-- Whether a point has a bound in each coordinate. -/
def AtCorner (box : List (RangeVar ℚ)) (x : String → ℚ) : Prop :=
  ∀ r ∈ box, x r.name = r.interval.min ∨ x r.name = r.interval.max

/-- An affine function on an interval is nowhere greater than at one of the ends. -/
theorem exists_end_ge {a b lo hi t : ℚ} (hlo : lo ≤ t) (hhi : t ≤ hi) :
    ∃ e, (e = lo ∨ e = hi) ∧ a * t + b ≤ a * e + b := by
  rcases le_total 0 a with ha | ha
  · exact ⟨hi, .inr rfl, by nlinarith⟩
  · exact ⟨lo, .inl rfl, by nlinarith⟩

/-- A function that is affine in each variable is nowhere greater than at some corner. -/
theorem exists_corner_ge {F : (String → ℚ) → ℚ}
    (hF : ∀ x v, ∃ a b : ℚ, ∀ t, F (Function.update x v t) = a * t + b) {box : List (RangeVar ℚ)}
    (hn : (box.map (·.name)).Nodup) {x : String → ℚ} (hx : Inside box x) :
    ∃ y, AtCorner box y ∧ F x ≤ F y := by
  have hstep : ∀ y, Inside box y ∧ F x ≤ F y → ∀ r ∈ box,
      ∃ e, (e = r.interval.min ∨ e = r.interval.max) ∧
        Inside box (Function.update y r.name e) ∧ F x ≤ F (Function.update y r.name e) := by
    rintro y ⟨hy, hle⟩ r hr
    obtain ⟨a, b, hab⟩ := hF y r.name
    obtain ⟨e, he, hge⟩ := exists_end_ge (a := a) (b := b) (hy r hr).1 (hy r hr).2
    have hrange := (hy r hr).1.trans (hy r hr).2
    have hends : r.interval.min ≤ e ∧ e ≤ r.interval.max := by
      rcases he with rfl | rfl
      · exact ⟨le_refl _, hrange⟩
      · exact ⟨hrange, le_refl _⟩
    refine ⟨e, he, InBox.update hn hy hr hends, ?_⟩
    calc F x ≤ F y := hle
      _ = F (Function.update y r.name (y r.name)) := by rw [Function.update_eq_self]
      _ = a * y r.name + b := hab _
      _ ≤ a * e + b := hge
      _ = F (Function.update y r.name e) := (hab e).symm
  obtain ⟨y, ⟨-, hle⟩, hcorner⟩ := exists_corner_of_invariant hn hstep ⟨hx, le_refl _⟩
  exact ⟨y, hcorner, hle⟩

/-! ## Corners as points -/

/-- The rational coordinates of an assignment. -/
def coordinates (a : Assignment Exact) (name : String) : ℚ :=
  match a.value? name with
  | some (.rational q) => q
  | _ => 0

theorem map_name_exact (box : List (RangeVar ℚ)) :
    (box.map RangeVar.exact).map (·.name) = box.map (·.name) := by
  simp [RangeVar.exact, Function.comp_def]

section

variable {box : List (RangeVar ℚ)} (hn : (box.map (·.name)).Nodup)
include hn

theorem value?_corner {a : Assignment Exact} (ha : a ∈ corners (box.map RangeVar.exact))
    {r : RangeVar ℚ} (hr : r ∈ box) : a.value? r.name = some (.rational (coordinates a r.name)) := by
  obtain ⟨choose, rfl⟩ := mem_corners_iff.mp ha
  obtain ⟨j, hj, rfl⟩ := List.mem_iff_getElem.mp hr
  have hnames : ((box.map RangeVar.exact).map (·.name)).Nodup := by rwa [map_name_exact]
  have hlength : j < (box.map RangeVar.exact).length := by simpa using hj
  have hv := value?_boundsAt choose hnames hlength
  simp only [List.getElem_map, RangeVar.exact] at hv
  cases hc : choose j <;> simp [coordinates, hv, hc]

/-- Every point with a bound in each coordinate is a corner. -/
theorem exists_corner_coordinates {y : String → ℚ} (hy : AtCorner box y) :
    ∃ a ∈ corners (box.map RangeVar.exact), ∀ r ∈ box, coordinates a r.name = y r.name := by
  let choose (j : Nat) : Bool := (box[j]?).any fun r => y r.name == r.interval.max
  refine ⟨boundsAt choose (box.map RangeVar.exact), mem_corners_iff.mpr ⟨choose, rfl⟩, fun r hr => ?_⟩
  obtain ⟨j, hj, rfl⟩ := List.mem_iff_getElem.mp hr
  have hnames : ((box.map RangeVar.exact).map (·.name)).Nodup := by rwa [map_name_exact]
  have hlength : j < (box.map RangeVar.exact).length := by simpa using hj
  have hv := value?_boundsAt choose hnames hlength
  simp only [List.getElem_map, RangeVar.exact] at hv
  by_cases hmax : y box[j].name = box[j].interval.max
  · simp [coordinates, hv, choose, hj, hmax]
  · have hmin := (hy _ hr).resolve_right hmax
    have hne : box[j].interval.min ≠ box[j].interval.max := hmin ▸ hmax
    simp [coordinates, hv, choose, hj, hmin, hne]

/-- A corner has no undefined coordinate. -/
theorem any_isUndefined_corner {a : Assignment Exact} (ha : a ∈ corners (box.map RangeVar.exact)) :
    (a.any fun (_, y) => Scalar.isUndefined y) = false := by
  obtain ⟨choose, rfl⟩ := mem_corners_iff.mp ha
  rw [boundsAt_eq_mapIdx choose (by rwa [map_name_exact])]
  refine List.any_eq_false.mpr fun p hp => ?_
  obtain ⟨j, hj, rfl⟩ := List.mem_mapIdx.mp hp
  cases hc : choose j <;> simp [RangeVar.exact]

end

theorem rangeNotes_exact (box : List (RangeVar ℚ)) : Bounds.rangeNotes (box.map RangeVar.exact) = [] := by
  refine List.filterMap_eq_nil_iff.mpr fun p hp => ?_
  obtain ⟨j, hj, rfl⟩ := List.mem_mapIdx.mp hp
  simp [RangeVar.exact, Interval.isValid]

/-! ## Draws -/

/-- Whether a source draws between two rational numbers a rational number between them. -/
def Source.DrawsWithin {σ : Type} (source : Source Exact σ) : Prop :=
  ∀ (a b : ℚ) (s : σ), a < b →
    ∃ q, (source.draw (.rational a) (.rational b) s).1 = .rational q ∧ a ≤ q ∧ q ≤ b

/-- The source that draws at a fixed fraction of the way from one bound to the other. -/
def Source.atFraction (u : ℚ) : Source Exact Unit where
  draw low high state := (low + (high - low) * .rational u, state)

theorem Source.drawsWithin_atFraction {u : ℚ} (h0 : 0 ≤ u) (h1 : u ≤ 1) :
    (Source.atFraction u).DrawsWithin := by
  intro a b s hab
  refine ⟨a + (b - a) * u, rfl, ?_, ?_⟩
  · nlinarith
  · nlinarith

/-- A bound as it is written in a formula that draws: a negative one is a literal with a sign. -/
def Exact.literal : Exact → Formula Exact
  | .rational q => if q < 0 then .signed .minus (.number (.rational (-q))) else .number (.rational q)
  | .undefined => .constant .undefined

section

variable {σ : Type} {source : Source Exact σ} {box : List (RangeVar ℚ)}

theorem eval_literal (env : String → Option Exact) (q : ℚ) (s : σ) :
    (Exact.rational q).literal.eval source env s = (.ok (.number (.rational q)), s) := by
  rw [Exact.literal]
  split
  · have h : (Formula.number (.rational (-q))).eval source env s =
        (.ok (.number (.rational (-q))), s) := rfl
    rw [eval_signed .minus h]
    simp [Sign.apply]
  · rfl

theorem eval_draw (hs : source.DrawsWithin) {r : RangeVar ℚ} (hr : r.interval.min ≤ r.interval.max)
    (env : String → Option Exact) (s : σ) :
    ∃ q t, r.interval.min ≤ q ∧ q ≤ r.interval.max ∧
      (r.exact.interval.draw Exact.literal).eval source env s = (.ok (.number (.rational q)), t) := by
  have hmin : (Exact.rational r.interval.min).literal.eval source env s = _ :=
    eval_literal env r.interval.min s
  have h := eval_sample (eval_uniform hmin (eval_literal env r.interval.max s))
  rcases hr.lt_or_eq with hlt | heq
  · obtain ⟨q, hq, hlo, hhi⟩ := hs _ _ s hlt
    refine ⟨q, (source.draw (.rational r.interval.min) (.rational r.interval.max) s).2, hlo, hhi,
      h.trans ?_⟩
    rw [if_pos (Exact.rational_lt_rational.mpr hlt), hq]
  · refine ⟨r.interval.min, s, le_refl _, hr, h.trans ?_⟩
    rw [if_neg (by simp [heq]), if_pos (by simp [heq])]

/-- With draws for its variables a polynomial has the value at a point of the box. -/
theorem exists_eval_substitute (hs : source.DrawsWithin) (hn : (box.map (·.name)).Nodup)
    (hle : ∀ r ∈ box, r.interval.min ≤ r.interval.max) {f : Formula Exact} (hf : IsPolynomial f)
    (hfn : f.vars.Nodup) (hv : ∀ v ∈ f.vars, v ∈ box.map (·.name))
    (env : String → Option Exact) (s : σ) :
    ∃ x t, (∀ r ∈ box, r.name ∈ f.vars → r.interval.min ≤ x r.name ∧
    x r.name ≤ r.interval.max) ∧
      (f.substitute (drawFor Exact.literal (box.map RangeVar.exact))).eval source env s =
        (.ok (.number (.rational (polynomialValue x f))), t) := by
  induction hf generalizing s with
  | number q => exact ⟨fun _ => 0, s, by simp [vars], rfl⟩
  | var name =>
    obtain ⟨r, hr, rfl⟩ := List.mem_map.mp (hv name (by simp [vars]))
    obtain ⟨q, t, hlo, hhi, he⟩ := eval_draw hs (hle r hr) env s
    refine ⟨fun _ => q, t, fun r' hr' hname => ?_, ?_⟩
    · rw [vars, List.mem_singleton] at hname
      rw [List.inj_on_of_nodup_map hn hr' hr hname]
      exact ⟨hlo, hhi⟩
    · have hd := drawFor_name Exact.literal (by rwa [map_name_exact])
        (List.mem_map_of_mem (f := RangeVar.exact) hr)
      rw [substitute, show r.name = r.exact.name from rfl, hd]
      exact he
  | signed sign _ ih =>
    obtain ⟨x, t, hx, he⟩ := ih hfn hv s
    refine ⟨x, t, hx, (eval_signed sign he).trans ?_⟩
    cases sign <;> rfl
  | @binary op hop f g hf hg ihf ihg =>
    rw [vars, List.nodup_append] at hfn
    simp only [vars, List.mem_append] at hv
    obtain ⟨x, t, hx, hef⟩ := ihf hfn.1 (fun v h => hv v (.inl h)) s
    obtain ⟨y, u, hy, heg⟩ := ihg hfn.2.1 (fun v h => hv v (.inr h)) t
    -- the operands share no variable, so both points are parts of one
    let z (v : String) : ℚ := if v ∈ f.vars then x v else y v
    have hzf : polynomialValue z f = polynomialValue x f := hf.value_congr fun v h => if_pos h
    have hzg : polynomialValue z g = polynomialValue y g :=
      hg.value_congr fun v h => if_neg fun h' => hfn.2.2 v h' v h rfl
    refine ⟨z, u, fun r hr hname => ?_, (eval_binary op hef heg).trans ?_⟩
    · by_cases h : r.name ∈ f.vars
      · simpa only [z, if_pos h] using hx r hr h
      · simp only [vars, List.mem_append] at hname
        simpa only [z, if_neg h] using hy r hr (hname.resolve_left h)
    · simp only [List.mem_cons, List.not_mem_nil, or_false] at hop
      rcases hop with rfl | rfl | rfl <;> simp only [polynomialValue, hzf, hzg] <;> rfl

end

/-! ## The bounds -/

theorem IsPolynomial.eval_corner {f : Formula Exact} (hf : IsPolynomial f) {box : List (RangeVar ℚ)}
    (hn : (box.map (·.name)).Nodup) (hv : f.vars ⊆ box.map (·.name)) {a : Assignment Exact}
    (ha : a ∈ corners (box.map RangeVar.exact)) {σ : Type} (source : Source Exact σ) (s : σ) :
    f.eval source a.value? s = (.ok (.number (.rational (polynomialValue (coordinates a) f))), s) := by
  refine hf.eval_eq (fun v hm => ?_) s
  obtain ⟨r, hr, rfl⟩ := List.mem_map.mp (hv hm)
  exact value?_corner hn ha hr

/-- The bounds that are found are the least and the greatest value at the corners. -/
theorem IsPolynomial.exists_bounds {f : Formula Exact} (hf : IsPolynomial f) {box : List (RangeVar ℚ)}
    (hne : box ≠ []) (hn : (box.map (·.name)).Nodup) (hv : f.vars ⊆ box.map (·.name)) {maxExact : Int}
    (hmax : box.length ≤ maxExact) (text : String) :
    ∃ lo hi : ℚ,
      (∀ (σ : Type) (source : Source Exact σ) (s : σ),
        Bounds.ofFormula source text (.ok f) (box.map RangeVar.exact) maxExact s =
          (⟨.rational lo, .rational hi, [], false, 0⟩, s)) ∧
      (∃ a ∈ corners (box.map RangeVar.exact), polynomialValue (coordinates a) f = lo) ∧
      (∃ a ∈ corners (box.map RangeVar.exact), polynomialValue (coordinates a) f = hi) ∧
      ∀ a ∈ corners (box.map RangeVar.exact), lo ≤ polynomialValue (coordinates a) f ∧
        polynomialValue (coordinates a) f ≤ hi := by
  let value (a : Assignment Exact) : ℚ := polynomialValue (coordinates a) f
  obtain ⟨c, cs, hcs⟩ := List.exists_cons_of_ne_nil (corners_ne_nil (box.map RangeVar.exact))
  have hlo := List.min?_eq_some_iff.mp (show (value c :: cs.map value).min? = _ from List.min?_cons')
  have hhi := List.max?_eq_some_iff.mp (show (value c :: cs.map value).max? = _ from List.max?_cons')
  rw [← List.map_cons, ← hcs] at hlo hhi
  obtain ⟨a, ha, hla⟩ := List.mem_map.mp hlo.1
  obtain ⟨b, hb, hgb⟩ := List.mem_map.mp hhi.1
  refine ⟨_, _, fun σ source s => ?_, ⟨a, ha, hla⟩, ⟨b, hb, hgb⟩,
    fun p hp => ⟨hlo.2 _ (List.mem_map_of_mem hp), hhi.2 _ (List.mem_map_of_mem hp)⟩⟩
  have htally : Tally.ofPoints source f (corners (box.map RangeVar.exact)) s =
      (⟨(Exact.rational (value c) :: (cs.map value).map .rational).reverse, 0⟩, s) := by
    rw [Tally.ofPoints_eq (fun p => some (.rational (value p))) fun p hp _ =>
      Tally.add_of_eval (any_isUndefined_corner hn hp) (hf.eval_corner hn hv hp source s) rfl]
    simp [hcs, Function.comp_def]
  rw [Bounds.ofFormula_of_tally (by simpa using hne) (by simpa using hmax) htally,
    Exact.least_rational, Exact.greatest_rational, rangeNotes_exact]

/-- A polynomial that mentions each placeholder once has bounds: they are exact, they enclose its value at
every point of the box and are its values at two corners, and they enclose every value of a simulation
whose source draws between the bounds it is given. -/
theorem bounds_enclose_polynomial {f : Formula Exact} (hf : IsPolynomial f) {box : List (RangeVar ℚ)}
    (hne : box ≠ []) (hn : (box.map (·.name)).Nodup) (hv : f.vars.Perm (box.map (·.name)))
    (hle : ∀ r ∈ box, r.interval.min ≤ r.interval.max) {maxExact : Int} (hmax : box.length ≤ maxExact)
    (text : String) :
    ∃ lo hi : ℚ,
      (∀ (σ : Type) (source : Source Exact σ) (s : σ),
        Bounds.ofFormula source text (.ok f) (box.map RangeVar.exact) maxExact s =
          (⟨.rational lo, .rational hi, [], false, 0⟩, s)) ∧
      (∀ (σ : Type) (source : Source Exact σ) (s : σ) (x : String → ℚ), Inside box x →
        ∃ v, f.toNumber source (fun name => some (.rational (x name))) s = (.ok (.rational v), s) ∧
          lo ≤ v ∧ v ≤ hi) ∧
      (∀ e ∈ [lo, hi], ∃ a ∈ corners (box.map RangeVar.exact),
        ∀ (σ : Type) (source : Source Exact σ) (s : σ),
          f.toNumber source a.value? s = (.ok (.rational e), s)) ∧
      (∀ (σ : Type) (source : Source Exact σ) (s : σ), source.DrawsWithin →
        ∃ v t, (f.substitute (drawFor Exact.literal (box.map RangeVar.exact))).toNumber source
            (fun _ => none) s = (.ok (.rational v), t) ∧
          lo ≤ v ∧ v ≤ hi) := by
  have hfn : f.vars.Nodup := hv.nodup_iff.mpr hn
  obtain ⟨lo, hi, hbounds, ⟨a, ha, hla⟩, ⟨b, hb, hgb⟩, hcorners⟩ :=
    hf.exists_bounds hne hn hv.subset hmax text
  -- every value inside the box lies between two values at corners
  have hinside : ∀ x, Inside box x → lo ≤ polynomialValue x f ∧ polynomialValue x f ≤ hi := by
    intro x hx
    have hcorner : ∀ y, AtCorner box y → lo ≤ polynomialValue y f ∧ polynomialValue y f ≤ hi := by
      intro y hy
      obtain ⟨p, hp, hsame⟩ := exists_corner_coordinates hn hy
      have hvalue : polynomialValue (coordinates p) f = polynomialValue y f :=
        hf.value_congr fun v hm => by
          obtain ⟨r, hr, rfl⟩ := List.mem_map.mp (hv.subset hm)
          exact hsame r hr
      exact hvalue ▸ hcorners p hp
    constructor
    · obtain ⟨y, hy, hge⟩ := exists_corner_ge (F := fun x => -polynomialValue x f)
        (fun x v => by
          obtain ⟨a, b, h⟩ := hf.exists_affine hfn x v
          exact ⟨-a, -b, fun t => by rw [h]; ring⟩) hn hx
      linarith [(hcorner y hy).1]
    · obtain ⟨y, hy, hge⟩ := exists_corner_ge (F := fun x => polynomialValue x f)
        (hf.exists_affine hfn) hn hx
      exact hge.trans (hcorner y hy).2
  refine ⟨lo, hi, hbounds, fun σ source s x hx => ?_, fun e he => ?_, fun σ source s hs => ?_⟩
  · exact ⟨_, toNumber_of_eval (hf.eval_eq (fun _ _ => rfl) s), hinside x hx⟩
  · simp only [List.mem_cons, List.not_mem_nil, or_false] at he
    rcases he with rfl | rfl
    · exact ⟨a, ha, fun σ source s =>
      hla ▸ toNumber_of_eval (hf.eval_corner hn hv.subset ha source s)⟩
    · exact ⟨b, hb, fun σ source s =>
      hgb ▸ toNumber_of_eval (hf.eval_corner hn hv.subset hb source s)⟩
  · obtain ⟨x, t, hx, he⟩ := exists_eval_substitute hs hn hle hf hfn hv.subset (fun _ => none) s
    refine ⟨_, t, toNumber_of_eval he, hinside x fun r hr => hx r hr ?_⟩
    exact hv.mem_iff.mpr (List.mem_map_of_mem hr)

/-- Two factors that change their signs inside the box `[-1, 2] × [-5, 4]`, with draws at a quarter of
each interval. -/
theorem bounds_enclose_product :
    let f : Formula Exact :=
      .binary .mul (.binary .sub (.var "a") (.number (.rational (1 / 2)))) (.signed .minus (.var "b"))
    let box : List (RangeVar ℚ) := [⟨"b", ⟨-5, 4⟩⟩, ⟨"a", ⟨-1, 2⟩⟩]
    IsPolynomial f ∧ box ≠ [] ∧ (box.map (·.name)).Nodup ∧ f.vars.Perm (box.map (·.name)) ∧
      (∀ r ∈ box, r.interval.min ≤ r.interval.max) ∧ (box.length : Int) ≤ 8 ∧
      (Source.atFraction (1 / 4)).DrawsWithin ∧
      ∃ lo hi : ℚ,
        Bounds.ofFormula (Source.atFraction (1 / 4)) "(a - 0.5) * -b" (.ok f)
            (box.map RangeVar.exact) 8 () = (⟨.rational lo, .rational hi, [], false, 0⟩, ()) ∧
        ∃ v t, (f.substitute (drawFor Exact.literal (box.map RangeVar.exact))).toNumber
            (Source.atFraction (1 / 4)) (fun _ => none) () = (.ok (.rational v), t) ∧
          lo ≤ v ∧ v ≤ hi := by
  intro f box
  have hf : IsPolynomial f :=
    .binary (by decide) (.binary (by decide) (.var "a") (.number (1 / 2))) (.signed .minus (.var "b"))
  have hne : box ≠ [] := by simp [box]
  have hn : (box.map (·.name)).Nodup := by decide
  have hv : f.vars.Perm (box.map (·.name)) := by decide
  have hle : ∀ r ∈ box, r.interval.min ≤ r.interval.max := by simp [box]; norm_num
  have hmax : (box.length : Int) ≤ 8 := by decide
  have hs : (Source.atFraction (1 / 4)).DrawsWithin :=
    Source.drawsWithin_atFraction (by norm_num) (by norm_num)
  obtain ⟨lo, hi, hbounds, -, -, hdraws⟩ :=
    bounds_enclose_polynomial hf hne hn hv hle hmax "(a - 0.5) * -b"
  exact ⟨hf, hne, hn, hv, hle, hmax, hs, lo, hi, hbounds _ _ _, hdraws _ _ () hs⟩

end RangeCalc
