import AuditHours.Number.Binary64
import Mathlib

/-!
Packed numbers and their values. The value that is read off the bit fields of a number is the one
that the number unpacks to. Packing keeps the sign, and whether a number is one; a finite number may
become infinite or zero, but one that is at least one does not become zero.
-/
namespace AuditHours.Number

open Float.Model (Format UnpackedFloat)
open Float.Model.UnpackedFloat

def isNegative : Sign → Bool
  | .negative => true
  | .positive => false

def Parts.ofUnpacked : UnpackedFloat → Parts
  | .notANumber => .nan
  | .infinity sign => .infinite (isNegative sign)
  | .zero sign => .finite (isNegative sign) 0 (-1074)
  | .finite sign mantissa exponent _ => .finite (isNegative sign) mantissa exponent

section

variable (b : BitVec Format.binary64.numBits)

theorem toNat_unpackMantissa : (unpackMantissa b).toNat = b.toNat % 2 ^ 52 := by
  simp [unpackMantissa, BitVec.extractLsb_toNat]

theorem toNat_unpackExponent : (unpackExponent b).toNat = b.toNat / 2 ^ 52 % 2 ^ 11 := by
  simp [unpackExponent, BitVec.extractLsb_toNat, Nat.shiftRight_eq_div_pow]

theorem isNegative_unpackSign :
    isNegative (.ofBitVec (unpackSign b)) = (b.toNat / 2 ^ 63 == 1) := by
  have hbound : b.toNat < 2 ^ 64 := b.isLt
  have hsign : (unpackSign b).toNat = b.toNat / 2 ^ 63 % 2 ^ 1 := by
    simp [unpackSign, BitVec.extractLsb_toNat, Nat.shiftRight_eq_div_pow]
  have hsmall : b.toNat / 2 ^ 63 < 2 := by omega
  rw [Nat.mod_eq_of_lt (by omega)] at hsign
  unfold Sign.ofBitVec
  by_cases hpositive : unpackSign b = 0#1
  · rw [if_pos hpositive]
    have hzero : b.toNat / 2 ^ 63 = 0 := by
      rw [← hsign, hpositive]
      rfl
    rw [hzero]
    rfl
  · rw [if_neg hpositive]
    have hone : b.toNat / 2 ^ 63 ≠ 0 := by
      intro hzero
      exact hpositive (BitVec.eq_of_toNat_eq (hsign.trans hzero))
    have heq : b.toNat / 2 ^ 63 = 1 := by omega
    rw [heq]
    rfl

@[simp]
theorem toNat_implicit (m : BitVec 52) : (1#1 ++ m).toNat = 2 ^ 52 + m.toNat := by
  rw [BitVec.toNat_append, ← Nat.shiftLeft_add_eq_or_of_lt m.isLt]
  rfl

/-- The fields of a number are those of what it unpacks to. -/
theorem ofFields_unpack :
    Parts.ofFields (isNegative (.ofBitVec (unpackSign b))) (unpackExponent b).toNat
      (unpackMantissa b).toNat = .ofUnpacked (unpack Format.binary64 b) := by
  unfold unpack Parts.ofFields
  by_cases hlast : unpackExponent b = -1#_
  · have hexponent : (unpackExponent b).toNat = 2047 := by
      rw [hlast]
      rfl
    rw [if_pos hexponent, if_pos hlast]
    by_cases hmantissa : unpackMantissa b = 0#_
    · rw [if_pos hmantissa, if_pos (by simp [hmantissa])]
      rfl
    · have hnone : (unpackMantissa b).toNat ≠ 0 :=
        fun hzero => hmantissa (BitVec.eq_of_toNat_eq hzero)
      rw [if_neg hmantissa, if_neg hnone]
      rfl
  · have hexponent : (unpackExponent b).toNat ≠ 2047 :=
      fun htop => hlast (BitVec.eq_of_toNat_eq htop)
    rw [if_neg hexponent, if_neg hlast]
    by_cases hfirst : unpackExponent b = 0#_
    · rw [if_pos hfirst, if_pos (by simp [hfirst])]
      by_cases hmantissa : unpackMantissa b = 0#_
      · rw [dif_pos hmantissa, hmantissa]
        rfl
      · rw [dif_neg hmantissa, hfirst]
        rfl
    · have hnone : (unpackExponent b).toNat ≠ 0 :=
        fun hzero => hfirst (BitVec.eq_of_toNat_eq hzero)
      rw [if_neg hfirst, if_neg hnone]
      simp only [Parts.ofUnpacked, toNat_implicit]
      rfl

end

/-- The value that is read off the fields of a number is the one that it unpacks to. -/
theorem parts_eq_ofUnpacked (x : Float) : parts x = .ofUnpacked x.toModel.unpack := by
  rw [Float.Model.unpack, ← ofFields_unpack, isNegative_unpackSign, toNat_unpackExponent,
    toNat_unpackMantissa]
  rfl

/-! ### Packing -/

section

variable {sign : Sign} {u : UnpackedFloat} {exponent : BitVec 11} {mantissa : BitVec 52} {top : Int}

inductive HasSign (sign : Sign) : UnpackedFloat → Prop
  | infinity : HasSign sign (.infinity sign)
  | zero : HasSign sign (.zero sign)
  | finite (m : Nat) (e : Int) (hm : 0 < m) : HasSign sign (.finite sign m e hm)

/-- A number of at least one, with a full mantissa and an exponent of at most `top`. It is infinite
only if `top` is beyond the exponents of finite numbers. -/
inductive Large (top : Int) : UnpackedFloat → Prop
  | infinity (htop : 971 < top) : Large top (.infinity .positive)
  | finite (m : Nat) (e : Int) (hm : 0 < m) (hfull : m.log2 = 52) (hlow : -52 ≤ e)
      (hhigh : e ≤ top) : Large top (.finite .positive m e hm)

/-- What is packed with another exponent than the last one is a number of its sign. -/
theorem hasSign_unpack (h : exponent ≠ -1#_) :
    HasSign sign (unpack Format.binary64 (packComponents _ sign exponent mantissa)) := by
  unfold unpack
  simp only [unpackMantissa_packComponents, unpackExponent_packComponents,
    unpackSign_packComponents, Sign.ofBitVec_toBitVec]
  rw [if_neg h]
  split
  · split
    · exact HasSign.zero
    · exact HasSign.finite _ _ _
  · exact HasSign.finite _ _ _

theorem unpack_packedInfinity (sign : Sign) :
    unpack Format.binary64 (packedInfinity _ sign) = .infinity sign := by
  cases sign <;> rfl

def repacked (u : UnpackedFloat) : UnpackedFloat := (Float.Model.pack u).unpack

theorem repacked_notANumber : repacked .notANumber = .notANumber := rfl

theorem repacked_infinity (sign : Sign) : repacked (.infinity sign) = .infinity sign :=
  unpack_packedInfinity sign

theorem repacked_zero (sign : Sign) : repacked (.zero sign) = .zero sign := by
  cases sign <;> rfl

/-- Packing keeps the sign of a number. -/
theorem HasSign.repacked (h : HasSign sign u) : HasSign sign (repacked u) := by
  cases h with
  | infinity =>
    rw [repacked_infinity]
    exact HasSign.infinity
  | zero =>
    rw [repacked_zero]
    exact HasSign.zero
  | finite m e hm =>
    change HasSign sign (unpack Format.binary64 (pack Format.binary64 (.finite sign m e hm)))
    unfold pack
    simp only []
    split
    · rw [unpack_packedInfinity]
      exact HasSign.infinity
    · next hbound =>
      split
      · refine hasSign_unpack fun hlast => ?_
        have htop := congrArg BitVec.toNat hlast
        rw [BitVec.toNat_ofNat, Nat.mod_eq_of_lt (by omega)] at htop
        change _ = 2047 at htop
        change ¬ 2048 ≤ _ at hbound
        omega
      · exact hasSign_unpack (by decide)

theorem log2_implicit (m : BitVec 52) : (1#1 ++ m).toNat.log2 = 52 := by
  rw [toNat_implicit, Nat.log2_eq_iff (by omega)]
  have hbound := m.isLt
  omega

/-- What is packed with the biased exponent of a number of at least one is such a number. -/
theorem large_unpack (hlast : exponent.toNat < 2047) (hlow : 1023 ≤ exponent.toNat)
    (hhigh : (exponent.toNat : Int) - 1075 ≤ top) :
    Large top (unpack Format.binary64 (packComponents _ .positive exponent mantissa)) := by
  have hnotLast : exponent ≠ -1#_ := by
    rintro rfl
    exact absurd hlast (by decide)
  have hnotFirst : exponent ≠ 0#_ := by
    rintro rfl
    exact absurd hlow (by decide)
  unfold unpack
  simp only [unpackMantissa_packComponents, unpackExponent_packComponents,
    unpackSign_packComponents, Sign.ofBitVec_toBitVec]
  rw [if_neg hnotLast, if_neg hnotFirst]
  have hexponent : (exponent.toNat : Int) - (Format.binary64.exponentBias + (52 : Nat)) =
      exponent.toNat - 1075 := rfl
  refine Large.finite _ _ _ (log2_implicit mantissa) ?_ ?_
  · rw [hexponent]
    omega
  · rw [hexponent]
    exact hhigh

/-- A number of at least one stays so when it is packed. -/
theorem Large.repacked (h : Large top u) : Large top (repacked u) := by
  cases h with
  | infinity htop =>
    rw [repacked_infinity]
    exact Large.infinity htop
  | finite m e hm hfull hlow hhigh =>
    change Large top (unpack Format.binary64 (pack Format.binary64 (.finite .positive m e hm)))
    have hbias : (Format.binary64.exponentBias : Int) = 1023 := rfl
    unfold pack
    simp only [hbias]
    split
    · next hbound =>
      rw [unpack_packedInfinity]
      change 2048 ≤ (e + 1023 + (52 : Nat)).toNat + 1 at hbound
      exact Large.infinity (by omega)
    · next hbound =>
      rw [if_pos (by rw [hfull]; rfl)]
      change ¬ 2048 ≤ (e + 1023 + (52 : Nat)).toNat + 1 at hbound
      have hexponent : (BitVec.ofNat 11 (e + 1023 + (52 : Nat)).toNat).toNat =
          (e + 1023 + (52 : Nat)).toNat := by
        rw [BitVec.toNat_ofNat]
        exact Nat.mod_eq_of_lt (by omega)
      apply large_unpack <;> rw [hexponent] <;> omega

end

end AuditHours.Number
