import AuditHours.Number.Amount
import AuditHours.Proofs.Number.Rounding
import AuditHours.Proofs.Weights.LeafByLeaf

/-!
Sums and products of amounts. A sum of amounts of at least zero is at least zero. So is such an
amount times a count, unless the amount is infinite and the count zero; then the product is no
number, and neither is any sum or product with it.
-/
namespace AuditHours.Number

open Float.Model (Format UnpackedFloat)

variable {p q : Prop} {x y : Float} {n : Nat}

theorem parts_eq_nan : parts x = .nan ↔ x.toModel.unpack = .notANumber := by
  rw [parts_eq_ofUnpacked]
  cases x.toModel.unpack <;> simp [Parts.ofUnpacked]

theorem parts_eq_infinite : parts x = .infinite false ↔
    x.toModel.unpack = .infinity .positive := by
  rw [parts_eq_ofUnpacked]
  cases x.toModel.unpack with
  | infinity sign => cases sign <;> simp [Parts.ofUnpacked, isNegative]
  | notANumber | zero | finite => simp [Parts.ofUnpacked]

theorem isAtLeastZero_parts : (parts x).isAtLeastZero = true ↔ IsNonneg x.toModel.unpack := by
  rw [parts_eq_ofUnpacked]
  exact isAtLeastZero_ofUnpacked

def HasReal (n : Nat) : Prop := (ofInt? n).isSome = true

instance (n : Nat) : Decidable (HasReal n) :=
  inferInstanceAs (Decidable ((ofInt? n).isSome = true))

/-- A count has a nearest real number if it is not rounded to an infinite one. -/
theorem hasReal_iff : HasReal n ↔ (Float.ofNat n).toModel.unpack.isFinite = true := by
  change (if (Float.ofNat n).toModel.unpack.isFinite = true then some _ else none).isSome = _ ↔ _
  split <;> simp [*]

theorem ofNat_cases (n : Nat) : (Float.ofNat n).toModel.unpack = .zero .positive ∨
    Large (n.log2 - 48) (Float.ofNat n).toModel.unpack := by
  rcases Nat.eq_zero_or_pos n with rfl | hn
  · exact Or.inl unpack_ofNat_zero
  · exact Or.inr (large_ofNat hn)

theorem Large.isNonneg {u : UnpackedFloat} {top : Int} (h : Large top u) : IsNonneg u := by
  cases h with
  | infinity => exact IsNonneg.positive HasSign.infinity
  | finite m e hm => exact IsNonneg.positive (HasSign.finite m e hm)

/-- Every count of at most 1020 bits has a nearest real number. -/
theorem hasReal_of_log2_lt (h : n.log2 < 1020) : HasReal n := by
  rw [hasReal_iff]
  rcases ofNat_cases n with hzero | hlarge
  · rw [hzero]
    rfl
  · generalize (Float.ofNat n).toModel.unpack = u at hlarge
    cases hlarge with
    | infinity hbeyond => omega
    | finite => rfl

/-- A count above zero that has a nearest real number is a finite positive one. -/
theorem HasReal.finite (h : HasReal n) (hn : 0 < n) :
    ∃ m e hm, (Float.ofNat n).toModel.unpack = .finite .positive m e hm := by
  have hfinite := hasReal_iff.mp h
  have hlarge := large_ofNat hn
  generalize (Float.ofNat n).toModel.unpack = u at hfinite hlarge
  cases hlarge with
  | infinity => simp [UnpackedFloat.isFinite] at hfinite
  | finite m e hm => exact ⟨m, e, hm, rfl⟩

namespace Amount

variable {a b : Amount}

def IsNaN : Amount → Prop
  | .whole _ => False
  | .real x => parts x = .nan

instance (a : Amount) : Decidable a.IsNaN :=
  match a with
  | .whole _ => isFalse id
  | .real x => inferInstanceAs (Decidable (parts x = .nan))

def IsInfinite : Amount → Prop
  | .whole _ => False
  | .real x => parts x = .infinite false

/-- An amount is at least zero, except that it is no number under a condition. -/
structure NumberUnless (p : Prop) (a : Amount) : Prop where
  number : ¬ p → a.AtLeastZero
  none : p → a.IsNaN

theorem AtLeastZero.toReal (h : a.AtLeastZero) : IsNonneg a.toReal.toModel.unpack := by
  cases a with
  | real x => exact isAtLeastZero_parts.mp h
  | whole n =>
    obtain ⟨k, rfl⟩ := Int.eq_ofNat_of_zero_le h
    change IsNonneg (Float.ofNat k).toModel.unpack
    rcases ofNat_cases k with hzero | hlarge
    · rw [hzero]
      exact IsNonneg.positive HasSign.zero
    · exact hlarge.isNonneg

theorem IsNaN.toReal (h : a.IsNaN) : a.toReal.toModel.unpack = .notANumber := by
  cases a with
  | whole n => exact absurd h id
  | real x => exact parts_eq_nan.mp h

/-- Amounts are added exactly or as real numbers. -/
theorem add_cases (a b : Amount) : (∃ n m, a = .whole n ∧ b = .whole m ∧ a + b = .whole (n + m)) ∨
    a + b = .real (a.toReal + b.toReal) := by
  cases a <;> cases b
  · exact Or.inl ⟨_, _, rfl, rfl, rfl⟩
  · exact Or.inr rfl
  · exact Or.inr rfl
  · exact Or.inr rfl

theorem AtLeastZero.add (ha : a.AtLeastZero) (hb : b.AtLeastZero) : (a + b).AtLeastZero := by
  rcases add_cases a b with ⟨n, m, rfl, rfl, hsum⟩ | hsum
  · rw [hsum]
    exact Int.add_nonneg ha hb
  · rw [hsum]
    refine isAtLeastZero_parts.mpr ?_
    rw [unpack_add]
    exact (ha.toReal.add hb.toReal).repacked

theorem IsNaN.add_right (ha : a.IsNaN) (b : Amount) : (a + b).IsNaN := by
  rcases add_cases a b with ⟨n, m, rfl, rfl, hsum⟩ | hsum
  · exact absurd ha id
  · rw [hsum]
    refine parts_eq_nan.mpr ?_
    rw [unpack_add, ha.toReal, notANumber_add, repacked_notANumber]

theorem IsNaN.add_left (hb : b.IsNaN) (a : Amount) : (a + b).IsNaN := by
  rcases add_cases a b with ⟨n, m, rfl, rfl, hsum⟩ | hsum
  · exact absurd hb id
  · rw [hsum]
    refine parts_eq_nan.mpr ?_
    rw [unpack_add, hb.toReal, add_notANumber, repacked_notANumber]

/-- A sum is no number exactly if one of its parts is none. -/
theorem NumberUnless.add (ha : NumberUnless p a) (hb : NumberUnless q b) :
    NumberUnless (p ∨ q) (a + b) where
  number := by
    intro h
    rw [not_or] at h
    exact (ha.number h.1).add (hb.number h.2)
  none := by
    rintro (hp | hq)
    · exact (ha.none hp).add_right b
    · exact (hb.none hq).add_left a

theorem AtLeastZero.numberUnless (h : a.AtLeastZero) : NumberUnless False a :=
  ⟨fun _ => h, False.elim⟩

/-- An infinite amount times zero is no number. -/
theorem IsInfinite.mul_zero (ha : a.IsInfinite) : (a * ((0 : Nat) : Amount)).IsNaN := by
  cases a with
  | whole m => exact absurd ha id
  | real x =>
    change parts (x * Float.ofNat 0) = .nan
    rw [parts_eq_nan, unpack_mul, parts_eq_infinite.mp ha, unpack_ofNat_zero]
    rfl

theorem AtLeastZero.mul_zero (ha : a.AtLeastZero) (hfinite : ¬ a.IsInfinite) :
    (a * ((0 : Nat) : Amount)).AtLeastZero := by
  cases a with
  | whole m =>
    change 0 ≤ m * 0
    omega
  | real x =>
    change (parts (x * Float.ofNat 0)).isAtLeastZero = true
    rw [isAtLeastZero_parts, unpack_mul, unpack_ofNat_zero]
    exact ((isAtLeastZero_parts.mp ha).mul_zero fun h => hfinite (parts_eq_infinite.mpr h)).repacked

theorem AtLeastZero.mul_pos (ha : a.AtLeastZero) (hn : HasReal n) (hpos : 0 < n) :
    (a * (n : Amount)).AtLeastZero := by
  cases a with
  | whole m => exact Int.mul_nonneg ha (Int.natCast_nonneg n)
  | real x =>
    obtain ⟨m, e, hm, hcount⟩ := hn.finite hpos
    change (parts (x * Float.ofNat n)).isAtLeastZero = true
    rw [isAtLeastZero_parts, unpack_mul, hcount]
    exact ((isAtLeastZero_parts.mp ha).mul_finite e hm).repacked

theorem IsNaN.mul_right (ha : a.IsNaN) (n : Nat) : (a * (n : Amount)).IsNaN := by
  cases a with
  | whole m => exact absurd ha id
  | real x =>
    change parts (x * Float.ofNat n) = .nan
    rw [parts_eq_nan, unpack_mul, parts_eq_nan.mp ha, notANumber_mul, repacked_notANumber]

/-- An amount times a count is no number exactly if the amount is infinite and the count zero. -/
theorem AtLeastZero.mul_count (ha : a.AtLeastZero) (hn : HasReal n) :
    NumberUnless (a.IsInfinite ∧ n = 0) (a * (n : Amount)) where
  number := by
    intro h
    rcases Nat.eq_zero_or_pos n with rfl | hpos
    · exact ha.mul_zero fun hinfinite => h ⟨hinfinite, rfl⟩
    · exact ha.mul_pos hn hpos
  none := by
    rintro ⟨hinfinite, rfl⟩
    exact hinfinite.mul_zero

/-- Multiplying by a count above zero changes nothing about it. -/
theorem NumberUnless.mul_pos (ha : NumberUnless p a) (hn : HasReal n) (hpos : 0 < n) :
    NumberUnless p (a * (n : Amount)) :=
  ⟨fun h => (ha.number h).mul_pos hn hpos, fun h => (ha.none h).mul_right n⟩

theorem NumberUnless.congr (ha : NumberUnless p a) (h : p ↔ q) : NumberUnless q a :=
  ⟨fun hq => ha.number (mt h.mp hq), fun hq => ha.none (h.mpr hq)⟩

end Amount

end AuditHours.Number
