import RangeCalc.Proofs.Number.Alike
import RangeCalc.Proofs.Number.Units

/-!
# Signs of numbers

A finite number is known by its sign and its size (`eq_of_sign`), zeros included. The opposite and the
absolute value differ in the sign only, and `withSignOf` takes the size from one number and the sign from
another one.
-/

namespace RangeCalc.Binary64

open Float.Model Float.Model.UnpackedFloat

variable {x y : Float}

theorem unpack_pack_zero (s : UnpackedFloat.Sign) : (Float.Model.pack (.zero s)).unpack = .zero s := by
  cases s <;> rfl

/-- A finite number is known by its sign and its size. -/
theorem eq_of_sign (hx : x.isFinite = true) (hy : y.isFinite = true) (hsign : signOf x = signOf y)
    (hsize : magnitude x = magnitude y) : x = y := by
  refine eq_of_unpack ?_
  rcases unpack_finite hx with ⟨hx0, hu⟩ | ⟨m, e, hm, hu, hc, -, hmag⟩ <;>
    rcases unpack_finite hy with ⟨hy0, hv⟩ | ⟨n, f, hn, hv, hd, -, hmag'⟩
  · rw [hu, hv, hsign]
  · have := Nat.mul_pos hn (Nat.two_pow_pos (f + 1074).toNat)
    omega
  · have := Nat.mul_pos hm (Nat.two_pow_pos (e + 1074).toNat)
    omega
  · obtain ⟨rfl, rfl⟩ := hc.eq_of_units hd (by rw [← hmag, ← hmag', hsize])
    rw [hu, hv, hsign]

/-- A change of the sign of an unpacked number is not lost by packing it. -/
theorem unpack_pack_signed (hx : x.isFinite = true) (sign : UnpackedFloat.Sign → UnpackedFloat.Sign)
    {f : UnpackedFloat → UnpackedFloat} (hzero : ∀ s, f (.zero s) = .zero (sign s))
    (hfinite : ∀ s m e hm, f (.finite s m e hm) = .finite (sign s) m e hm) :
    (Float.ofModel (.pack (f x.toModel.unpack))).toModel.unpack = f x.toModel.unpack := by
  rcases unpack_finite hx with ⟨-, hu⟩ | ⟨m, e, hm, hu, hc, he, -⟩
  · rw [hu, hzero]
    exact unpack_pack_zero _
  · rw [hu, hfinite]
    exact unpack_pack hm hc he

theorem ofModel_pack_unpack (hx : x.isFinite = true) : Float.ofModel (.pack x.toModel.unpack) = x :=
  eq_of_unpack (unpack_pack_signed (f := fun u => u) hx id (fun _ => rfl) fun _ _ _ _ => rfl)

/-- The sign of a finite number is that of what it unpacks to. -/
theorem signOf_of_unpack {s : UnpackedFloat.Sign} (hx : x.isFinite = true)
    (h : x.toModel.unpack = .zero s ∨ ∃ m e hm, x.toModel.unpack = .finite s m e hm) : signOf x = s := by
  rcases unpack_finite hx with ⟨-, hu⟩ | ⟨m, e, hm, hu, -⟩ <;> rw [hu] at h
  · rcases h with h | ⟨m, e, hm, h⟩ <;> cases h
    rfl
  · rcases h with h | ⟨m, e, hm, h⟩ <;> cases h
    rfl

theorem signOf_neg (hx : x.isFinite = true) : signOf (-x) = -signOf x := by
  have hu : (-x).toModel.unpack = x.toModel.unpack.neg :=
    unpack_pack_signed hx Neg.neg (fun _ => rfl) fun _ _ _ _ => rfl
  refine signOf_of_unpack (units_neg hx).1 ?_
  rcases unpack_finite hx with ⟨-, h⟩ | ⟨m, e, hm, h, -⟩
  · exact .inl (by rw [hu, h]; rfl)
  · exact .inr ⟨m, e, hm, by rw [hu, h]; rfl⟩

theorem signOf_abs (hx : x.isFinite = true) : signOf x.abs = .positive := by
  have hu : x.abs.toModel.unpack = x.toModel.unpack.abs :=
    unpack_pack_signed hx (fun _ => .positive) (fun _ => rfl) fun _ _ _ _ => rfl
  refine signOf_of_unpack (units_abs hx).1 ?_
  rcases unpack_finite hx with ⟨-, h⟩ | ⟨m, e, hm, h, -⟩
  · exact .inl (by rw [hu, h]; rfl)
  · exact .inr ⟨m, e, hm, by rw [hu, h]; rfl⟩

theorem magnitude_neg (hx : x.isFinite = true) : magnitude (-x) = magnitude x := by
  rw [← natAbs_units, (units_neg hx).2, Int.natAbs_neg, natAbs_units]

theorem magnitude_abs (hx : x.isFinite = true) : magnitude x.abs = magnitude x := by
  rw [← natAbs_units, (units_abs hx).2, Int.natAbs_natCast, natAbs_units]

/-- Numbers of one sign are as far apart as their sizes. -/
theorem abs_units_sub (hsign : signOf x = signOf y) :
    |units x - units y| = |(magnitude x : Int) - magnitude y| := by
  rw [units_eq_apply x, units_eq_apply y, hsign]
  cases signOf y
  · rw [← abs_neg ((magnitude x : Int) - magnitude y), neg_sub']
    rfl
  · rfl

/-! ## Numbers made of a sign and bits -/

theorem fields_ofSignBits (negative : Bool) {bits : Nat} (h : bits < infinityBits) :
    (ofSignBits negative bits).isFinite = true ∧
      signOf (ofSignBits negative bits) = (if negative then .negative else .positive) ∧
      magnitude (ofSignBits negative bits) = unitsOfBits bits := by
  obtain ⟨x, hx, hbits⟩ := exists_ofSignBits negative h
  have hfields := fields_of_bits h hbits
  rwa [hx.trans (ofModel_pack_unpack hfields.1)]

theorem magnitudeBits_lt (hx : x.isFinite = true) : magnitudeBits x < infinityBits := by
  have hinf : infinityBits = 2047 * 2 ^ 52 := by decide
  have htop : exponentField x ≠ 2047 := fun htop => by
    rw [isFinite_unpack] at hx
    rcases unpack_top htop with hu | hu <;> rw [hu] at hx <;> cases hx
  have hlt := bitsOf_lt x
  rw [exponentField] at htop
  rw [magnitudeBits_eq]
  omega

/-- The size of one finite number with the sign of another number. -/
theorem fields_withSignOf (hx : x.isFinite = true) (y : Float) :
    (withSignOf x y).isFinite = true ∧ signOf (withSignOf x y) = signOf y ∧
      magnitude (withSignOf x y) = magnitude x :=
  fields_ofSignBits (isNegative y) (magnitudeBits_lt hx)

end RangeCalc.Binary64
