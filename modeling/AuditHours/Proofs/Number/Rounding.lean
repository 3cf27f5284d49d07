import AuditHours.Proofs.Number.Packing

/-!
Rounded sums and products. Rounding keeps the sign, so sums and products of numbers of at least zero
are at least zero again; only an infinite number times zero is none. What is one or more before it
is rounded stays one or more, so no whole number above zero becomes zero as a real one.
-/
namespace AuditHours.Number

open Float.Model (Format UnpackedFloat totalExponent)
open Float.Model.UnpackedFloat

variable {u v : UnpackedFloat} {sign : Sign} {m : Nat} {e top : Int}

/-! ### Signs -/

theorem hasSign_roundWithAccuracy (spec : Format) (sign : Sign) (m : Nat) (e : Int)
    (accuracy : Accuracy) : HasSign sign (roundWithAccuracy spec sign m e accuracy) := by
  unfold roundWithAccuracy
  simp only []
  split
  · exact HasSign.zero
  · exact HasSign.finite _ _ _

theorem hasSign_normalize (spec : Format) {m : Int} (hm : 0 ≤ m) (e : Int) :
    HasSign .positive (normalize spec m e .positive) := by
  unfold UnpackedFloat.normalize
  split
  · next hlt =>
    rw [Int.compare_eq_lt] at hlt
    omega
  · exact HasSign.zero
  · exact hasSign_roundWithAccuracy _ _ _ _ _

/-- A number of at least zero; a negative zero is one. -/
inductive IsNonneg : UnpackedFloat → Prop
  | positive {u : UnpackedFloat} (h : HasSign .positive u) : IsNonneg u
  | negativeZero : IsNonneg (.zero .negative)

theorem isAtLeastZero_ofUnpacked : (Parts.ofUnpacked u).isAtLeastZero = true ↔ IsNonneg u := by
  constructor
  · intro h
    cases u with
    | notANumber => simp [Parts.ofUnpacked, Parts.isAtLeastZero] at h
    | infinity sign =>
      cases sign with
      | negative => simp [Parts.ofUnpacked, Parts.isAtLeastZero, isNegative] at h
      | positive => exact IsNonneg.positive HasSign.infinity
    | zero sign =>
      cases sign with
      | negative => exact IsNonneg.negativeZero
      | positive => exact IsNonneg.positive HasSign.zero
    | finite sign m e hm =>
      cases sign with
      | negative =>
        simp [Parts.ofUnpacked, Parts.isAtLeastZero, isNegative] at h
        omega
      | positive => exact IsNonneg.positive (HasSign.finite m e hm)
  · rintro (h | _)
    · cases h <;> rfl
    · rfl

theorem IsNonneg.repacked (h : IsNonneg u) : IsNonneg (repacked u) := by
  cases h with
  | positive h => exact IsNonneg.positive h.repacked
  | negativeZero =>
    rw [repacked_zero]
    exact IsNonneg.negativeZero

theorem HasSign.add (hu : HasSign .positive u) (hv : HasSign .positive v) :
    HasSign .positive (add Format.binary64 u v) := by
  cases hu with
  | infinity =>
    cases hv with
    | infinity | zero | finite => exact HasSign.infinity
  | zero =>
    cases hv with
    | infinity => exact HasSign.infinity
    | zero => exact HasSign.zero
    | finite m e hm => exact HasSign.finite m e hm
  | finite m e hm =>
    cases hv with
    | infinity => exact HasSign.infinity
    | zero => exact HasSign.finite m e hm
    | finite m' e' hm' =>
      apply hasSign_normalize
      exact Int.add_nonneg (Int.natCast_nonneg _) (Int.natCast_nonneg _)

/-- The sum of numbers of at least zero is at least zero. -/
theorem IsNonneg.add (hu : IsNonneg u) (hv : IsNonneg v) : IsNonneg (add Format.binary64 u v) := by
  cases hu with
  | positive hu =>
    cases hv with
    | positive hv => exact IsNonneg.positive (hu.add hv)
    | negativeZero =>
      cases hu with
      | infinity => exact IsNonneg.positive HasSign.infinity
      | zero => exact IsNonneg.positive HasSign.zero
      | finite m e hm => exact IsNonneg.positive (HasSign.finite m e hm)
  | negativeZero =>
    cases hv with
    | negativeZero => exact IsNonneg.negativeZero
    | positive hv =>
      cases hv with
      | infinity => exact IsNonneg.positive HasSign.infinity
      | zero => exact IsNonneg.positive HasSign.zero
      | finite m e hm => exact IsNonneg.positive (HasSign.finite m e hm)

theorem add_notANumber (u : UnpackedFloat) : add Format.binary64 u .notANumber = .notANumber := by
  cases u <;> rfl

theorem notANumber_add (u : UnpackedFloat) : add Format.binary64 .notANumber u = .notANumber := by
  cases u <;> rfl

theorem notANumber_mul (u : UnpackedFloat) : mul Format.binary64 .notANumber u = .notANumber := by
  cases u <;> rfl

/-- A number of at least zero times a finite one of at least one is at least zero. -/
theorem IsNonneg.mul_finite (hu : IsNonneg u) (e : Int) (hm : 0 < m) :
    IsNonneg (mul Format.binary64 u (.finite .positive m e hm)) := by
  cases hu with
  | positive hu =>
    cases hu with
    | infinity => exact IsNonneg.positive HasSign.infinity
    | zero => exact IsNonneg.positive HasSign.zero
    | finite m' e' hm' => exact IsNonneg.positive (hasSign_roundWithAccuracy _ _ _ _ _)
  | negativeZero => exact IsNonneg.negativeZero

/-- A number of at least zero times zero is zero, unless the number is infinite. -/
theorem IsNonneg.mul_zero (hu : IsNonneg u) (hfinite : u ≠ .infinity .positive) :
    IsNonneg (mul Format.binary64 u (.zero .positive)) := by
  cases hu with
  | positive hu =>
    cases hu with
    | infinity => exact absurd rfl hfinite
    | zero | finite => exact IsNonneg.positive HasSign.zero
  | negativeZero => exact IsNonneg.negativeZero

/-! ### Whole numbers -/

theorem mantissa_shiftRight (em : ExtendedMantissa) (k : Nat) :
    (em >>> k).mantissa = em.mantissa / 2 ^ k := by
  induction k with
  | zero => simp [HShiftRight.hShiftRight, Nat.repeat]
  | succ k ih =>
    change (em >>> k).mantissa / 2 = _
    rw [ih, Nat.div_div_eq_div_mul, Nat.pow_succ]

theorem roundedMantissa_bounds (em : ExtendedMantissa) :
    em.mantissa ≤ em.roundedMantissa ∧ em.roundedMantissa ≤ em.mantissa + 1 := by
  obtain ⟨m, roundBit, stickyBit⟩ := em
  cases roundBit <;> cases stickyBit <;>
    simp only [ExtendedMantissa.roundedMantissa, ExtendedMantissa.accuracy,
      Accuracy.roundToNearestEven] <;> omega

/-- A mantissa with enough bits, shifted right until it is a full one. -/
theorem shiftRight_bounds (hm : 52 ≤ m.log2) :
    2 ^ 52 ≤ m / 2 ^ (m.log2 - 52) ∧ m / 2 ^ (m.log2 - 52) < 2 ^ (52 + 1) := by
  have hpos : m ≠ 0 := by
    rintro rfl
    simp at hm
  constructor
  · rw [Nat.le_div_iff_mul_le (Nat.two_pow_pos _), ← Nat.pow_add, Nat.add_sub_cancel' hm]
    exact Nat.log2_self_le hpos
  · rw [Nat.div_lt_iff_lt_mul (Nat.two_pow_pos _), ← Nat.pow_add]
    rw [show 52 + 1 + (m.log2 - 52) = m.log2 + 1 by omega]
    exact Nat.lt_log2_self

/-- The exponent that a number of at least one is rounded to. -/
theorem targetExponent_eq (h : 0 ≤ (m.log2 : Int) + e) :
    Format.binary64.targetExponent (totalExponent m e) = m.log2 + e - 52 := by
  have hbits : (Format.binary64.mantissaBits : Int) = 53 := rfl
  have hleast : Format.binary64.minExponent = -1074 := rfl
  rw [Format.targetExponent, totalExponent, hbits, hleast]
  omega

/-- A mantissa with enough bits is shifted right until it has the bits of a full one. -/
theorem shiftToTargetExponent_eq (hm : 52 ≤ m.log2) (h : 0 ≤ (m.log2 : Int) + e) :
    ∃ em, shiftToTargetExponent Format.binary64 m e .exact = (em, m.log2 + e - 52) ∧
      2 ^ 52 ≤ em.mantissa ∧ em.mantissa < 2 ^ (52 + 1) := by
  have hshift : ((m.log2 : Int) + e - 52 - e).toNat = m.log2 - 52 := by omega
  refine ⟨ExtendedMantissa.ofMantissaAndAccuracy m .exact >>> (m.log2 - 52), ?_, ?_⟩
  · rw [shiftToTargetExponent, targetExponent_eq h, shiftToExponent, hshift]
    congr 1
    omega
  · rw [mantissa_shiftRight]
    exact shiftRight_bounds hm

/-- A number of at least one stays so when it is rounded. -/
theorem large_roundWithAccuracy (hm : 52 ≤ m.log2) (h : 0 ≤ (m.log2 : Int) + e)
    (htop : m.log2 + e - 51 ≤ top) :
    Large top (roundWithAccuracy Format.binary64 .positive m e .exact) := by
  obtain ⟨em, hfirst, hlow, hhigh⟩ := shiftToTargetExponent_eq hm h
  obtain ⟨hrounded, hrounded'⟩ := roundedMantissa_bounds em
  -- rounding may carry into another bit, which the second shift drops
  have hbits : 52 ≤ em.roundedMantissa.log2 := (Nat.le_log2 (by omega)).mpr (hlow.trans hrounded)
  have hbits' : em.roundedMantissa.log2 < 54 := (Nat.log2_lt (by omega)).mpr (by omega)
  obtain ⟨em', hsecond, hlow', hhigh'⟩ := shiftToTargetExponent_eq (e := m.log2 + e - 52) hbits
    (by omega)
  have hpos : em'.mantissa ≠ 0 := by omega
  unfold roundWithAccuracy
  simp only [hfirst, hsecond]
  rw [dif_neg hpos]
  exact Large.finite _ _ _ ((Nat.log2_eq_iff hpos).mpr ⟨hlow', hhigh'⟩) (by omega) (by omega)

/-- The product of numbers of at least one is at least one. -/
theorem Large.mul {top' : Int} (hu : Large top u) (hv : Large top' v) :
    Large (top + top' + 54) (mul Format.binary64 u v) := by
  cases hu with
  | infinity htop =>
    cases hv with
    | infinity htop' => exact Large.infinity (by omega)
    | finite m e hm hfull hlow hhigh => exact Large.infinity (by omega)
  | finite m e hm hfull hlow hhigh =>
    cases hv with
    | infinity htop' => exact Large.infinity (by omega)
    | finite m' e' hm' hfull' hlow' hhigh' =>
      obtain ⟨hleast, hmost⟩ := (Nat.log2_eq_iff hm.ne').mp hfull
      obtain ⟨hleast', hmost'⟩ := (Nat.log2_eq_iff hm'.ne').mp hfull'
      have hproduct := (Nat.mul_pos hm hm').ne'
      have hlog : 104 ≤ (m * m').log2 := by
        refine (Nat.le_log2 hproduct).mpr ?_
        calc 2 ^ 104 = 2 ^ 52 * 2 ^ 52 := by norm_num
          _ ≤ m * m' := Nat.mul_le_mul hleast hleast'
      have hlog' : (m * m').log2 < 106 := by
        refine (Nat.log2_lt hproduct).mpr ?_
        calc m * m' < 2 ^ (52 + 1) * 2 ^ (52 + 1) := Nat.mul_lt_mul'' hmost hmost'
          _ = 2 ^ 106 := by norm_num
      exact large_roundWithAccuracy (by omega) (by omega) (by omega)

theorem log2_shiftLeft {n : Nat} (hn : 0 < n) (k : Nat) : (n <<< k).log2 = n.log2 + k := by
  induction k with
  | zero => rfl
  | succ k ih =>
    have hpos : n <<< k ≠ 0 := by
      rw [Nat.shiftLeft_eq]
      exact (Nat.mul_pos hn (Nat.two_pow_pos k)).ne'
    rw [Nat.shiftLeft_succ, Nat.log2_two_mul hpos, ih]
    rfl

/-- A whole number above zero is rounded to a number of at least one. -/
theorem large_round {n : Nat} (hn : 0 < n) :
    Large (n.log2 - 51) (round Format.binary64 .positive n 0) := by
  have htarget := targetExponent_eq (m := n) (e := 0) (by omega)
  unfold UnpackedFloat.round decreaseExponent
  simp only [htarget]
  by_cases hsmall : n.log2 < 52
  · have hshift : ((0 : Int) - (n.log2 + 0 - 52)).toNat = 52 - n.log2 := by omega
    rw [hshift]
    have hlog := log2_shiftLeft hn (52 - n.log2)
    apply large_roundWithAccuracy <;> omega
  · have hshift : ((0 : Int) - (n.log2 + 0 - 52)).toNat = 0 := by omega
    rw [hshift, Nat.shiftLeft_zero]
    apply large_roundWithAccuracy <;> omega

/-! ### Real numbers -/

theorem unpack_add (x y : Float) : (x + y).toModel.unpack =
    repacked (add Format.binary64 x.toModel.unpack y.toModel.unpack) := rfl

theorem unpack_mul (x y : Float) : (x * y).toModel.unpack =
    repacked (mul Format.binary64 x.toModel.unpack y.toModel.unpack) := rfl

theorem unpack_ofNat_zero : (Float.ofNat 0).toModel.unpack = .zero .positive := rfl

theorem large_toFloat {n : UInt64} (hn : 0 < n.toNat) :
    Large (n.toNat.log2 - 51) n.toFloat.toModel.unpack := by
  have hcompare : compare (n.toNat : Int) 0 = .gt := by
    rw [Int.compare_eq_gt]
    omega
  have hnormalize : Large (n.toNat.log2 - 51)
      (UnpackedFloat.normalize Format.binary64 n.toNat 0 .positive) := by
    unfold UnpackedFloat.normalize
    rw [hcompare]
    exact large_round hn
  exact hnormalize.repacked

/-- A whole number above zero is at least one when it is taken through its decimal form. -/
theorem large_ofScientific {n : Nat} (hn : 0 < n) :
    Large (n.log2 - 51) (ofScientific Format.binary64 n 0) := by
  have hrange : (2 : Int) ^ Format.binary64.exponentBits = 2048 := rfl
  have hbits : Format.binary64.mantissaBits = 53 := rfl
  have hlog := log2_shiftLeft hn 53
  unfold ofScientific
  rw [dif_neg hn.ne', hrange, if_neg (by decide), if_neg (by omega), if_pos (le_refl _)]
  simp only [mul, hbits, Int.toNat_zero, Nat.pow_zero, Nat.mul_one]
  apply large_roundWithAccuracy <;> omega

theorem Large.mono {top' : Int} (h : Large top u) (htop : top ≤ top') : Large top' u := by
  cases h with
  | infinity hbeyond => exact Large.infinity (by omega)
  | finite m e hm hfull hlow hhigh => exact Large.finite m e hm hfull hlow (by omega)

/-- A whole number above zero is at least one as a real number, and infinite only if it is very
large. -/
theorem large_ofNat {n : Nat} (hn : 0 < n) :
    Large (n.log2 - 48) (Float.ofNat n).toModel.unpack := by
  change Large _ (Float.ofScientific n false 0).toModel.unpack
  unfold Float.ofScientific
  split
  · next hsmall =>
    have hone : Float.exactlyRepresentablePowersOfTen[0] = UInt64.toFloat 1 := by decide +kernel
    have hword : n.toUInt64.toNat = n := Nat.mod_eq_of_lt (by omega)
    have hfactor := large_toFloat (n := n.toUInt64) (by omega)
    have hpower := large_toFloat (n := 1) (by decide)
    rw [hword] at hfactor
    rw [← hone] at hpower
    refine (hfactor.mul hpower).repacked.mono ?_
    have hlog : (1 : UInt64).toNat.log2 = 0 := by decide
    omega
  · exact (large_ofScientific hn).repacked.mono (by omega)

end AuditHours.Number
