import AuditHours.Text.Utf8

/-!
Decoding encoded text. The first byte of an encoded character announces how many bytes follow it and
what the next one may be, and the bytes together hold the code point, so reading the bytes of a text
gives the text back.
-/
namespace AuditHours.Text

section

variable {n m : Nat}

theorem toNat_byte (h : m < 256) : (UInt8.ofNat m).toNat = m := by
  simp [Nat.mod_eq_of_lt h]

theorem toNat_continuation (n shift : Nat) :
    (continuation n shift).toNat = 0x80 + n / Nat.pow 2 shift % 64 :=
  toNat_byte (by omega)

theorem toNat_continuation_zero (n : Nat) : (continuation n 0).toNat = 0x80 + n % 64 := by
  rw [toNat_continuation, show Nat.pow 2 0 = 1 from rfl, Nat.div_one]

theorem toNat_continuation_six (n : Nat) : (continuation n 6).toNat = 0x80 + n / 64 % 64 := by
  rw [toNat_continuation, show Nat.pow 2 6 = 64 from rfl]

theorem toNat_continuation_twelve (n : Nat) :
    (continuation n 12).toNat = 0x80 + n / 4096 % 64 := by
  rw [toNat_continuation, show Nat.pow 2 12 = 4096 from rfl]

theorem ofByte?_ofNat (h : m < 256) : Lead.ofByte? (UInt8.ofNat m) =
    if m < 0xC2 then none
    else if m < 0xE0 then some ⟨1, 0x80, 0xBF, m - 0xC0⟩
    else if m = 0xE0 then some ⟨2, 0xA0, 0xBF, 0⟩
    else if m = 0xED then some ⟨2, 0x80, 0x9F, 0xD⟩
    else if m < 0xF0 then some ⟨2, 0x80, 0xBF, m - 0xE0⟩
    else if m = 0xF0 then some ⟨3, 0x90, 0xBF, 0⟩
    else if m < 0xF4 then some ⟨3, 0x80, 0xBF, m - 0xF0⟩
    else if m = 0xF4 then some ⟨3, 0x80, 0x8F, 4⟩
    else none := by
  simp [Lead.ofByte?, UInt8.lt_iff_toNat_lt, ← UInt8.toNat_inj, Nat.mod_eq_of_lt h]

/-- A first byte that announces a number of bytes and holds the given bits; the next byte is the
given one. -/
structure Announces (b : UInt8) (following bits next : Nat) (lead : Lead) : Prop where
  lead_eq : Lead.ofByte? b = some lead
  following_eq : lead.following = following
  bits_eq : lead.bits = bits
  low_le : lead.low.toNat ≤ next
  le_high : next ≤ lead.high.toNat

theorem announces_two (hlow : 0x80 ≤ n) (hhigh : n < 0x800) :
    ∃ lead, Announces (UInt8.ofNat (0xC0 + n / 64)) 1 (n / 64) (0x80 + n % 64) lead := by
  refine ⟨⟨1, 0x80, 0xBF, n / 64⟩, ?_, rfl, rfl, ?_, ?_⟩
  · rw [ofByte?_ofNat (by omega), if_neg (by omega), if_pos (by omega)]
    simp
  · simp
  · simp
    omega

theorem announces_three (hlow : 0x800 ≤ n) (hhigh : n < 0x10000) (hn : n < 0xD800 ∨ 0xDFFF < n) :
    ∃ lead, Announces (UInt8.ofNat (0xE0 + n / 4096)) 2 (n / 4096) (0x80 + n / 64 % 64) lead := by
  have hbyte := ofByte?_ofNat (m := 0xE0 + n / 4096) (by omega)
  rw [if_neg (by omega), if_neg (by omega)] at hbyte
  by_cases hfirst : n / 4096 = 0
  · rw [if_pos (by omega)] at hbyte
    exact ⟨_, hbyte, rfl, hfirst.symm, by simp; omega, by simp; omega⟩
  · rw [if_neg (by omega)] at hbyte
    by_cases hlast : n / 4096 = 13
    · rw [if_pos (by omega)] at hbyte
      exact ⟨_, hbyte, rfl, hlast.symm, by simp, by simp; omega⟩
    · rw [if_neg (by omega), if_pos (by omega)] at hbyte
      exact ⟨_, hbyte, rfl, by simp, by simp, by simp; omega⟩

theorem announces_four (hlow : 0x10000 ≤ n) (hhigh : n < 0x110000) :
    ∃ lead, Announces (UInt8.ofNat (0xF0 + n / 262144)) 3 (n / 262144) (0x80 + n / 4096 % 64)
      lead := by
  have hbyte := ofByte?_ofNat (m := 0xF0 + n / 262144) (by omega)
  rw [if_neg (by omega), if_neg (by omega), if_neg (by omega), if_neg (by omega),
    if_neg (by omega)] at hbyte
  by_cases hfirst : n / 262144 = 0
  · rw [if_pos (by omega)] at hbyte
    exact ⟨_, hbyte, rfl, hfirst.symm, by simp; omega, by simp; omega⟩
  · rw [if_neg (by omega)] at hbyte
    by_cases hlast : n / 262144 = 4
    · rw [if_neg (by omega), if_pos (by omega)] at hbyte
      exact ⟨_, hbyte, rfl, hlast.symm, by simp, by simp; omega⟩
    · rw [if_pos (by omega)] at hbyte
      exact ⟨_, hbyte, rfl, by simp, by simp, by simp; omega⟩

variable {position bits : Nat} {b c d e : UInt8} {rest : List UInt8} {lead : Lead}

/-- A byte that announces others is no character of its own. -/
theorem Announces.not_plain {following next : Nat} (h : Announces b following bits next lead) :
    ¬ b < 0x80 := by
  intro hplain
  have hlow : b < 0xC2 := by
    rw [UInt8.lt_iff_toNat_lt] at hplain ⊢
    exact Nat.lt_of_lt_of_le hplain (by decide)
  have hnone := h.lead_eq
  rw [Lead.ofByte?, if_pos hlow] at hnone
  simp at hnone

/-- The byte after the first one stands within the bounds that were announced. -/
theorem Announces.in_bounds {following : Nat} (h : Announces b following bits c.toNat lead) :
    (decide (c < lead.low) || decide (lead.high < c)) = false := by
  simp only [UInt8.lt_iff_toNat_lt, Bool.or_eq_false_iff, decide_eq_false_iff_not]
  exact ⟨Nat.not_lt.mpr h.low_le, Nat.not_lt.mpr h.le_high⟩

def Continues (b : UInt8) : Prop := (decide (b < 0x80) || decide (0xBF < b)) = false

theorem continues_continuation (n shift : Nat) : Continues (continuation n shift) := by
  have hbyte := toNat_continuation n shift
  simp only [Continues, UInt8.lt_iff_toNat_lt, hbyte, Bool.or_eq_false_iff,
    decide_eq_false_iff_not]
  exact ⟨by simp, by simp; omega⟩

theorem decodeFrom_two (h : Announces b 1 bits c.toNat lead) :
    decodeFrom position (b :: c :: rest) =
      (decodeFrom (position + 2) rest).map (Char.ofNat (appendBits bits c) :: ·) := by
  simp [decodeFrom, h.not_plain, h.lead_eq, h.in_bounds, h.following_eq, h.bits_eq]

theorem decodeFrom_three (h : Announces b 2 bits c.toNat lead) (hd : Continues d) :
    decodeFrom position (b :: c :: d :: rest) = (decodeFrom (position + 3) rest).map
      (Char.ofNat (appendBits (appendBits bits c) d) :: ·) := by
  rw [Continues] at hd
  simp [decodeFrom, h.not_plain, h.lead_eq, h.in_bounds, h.following_eq, h.bits_eq, hd]

theorem decodeFrom_four (h : Announces b 3 bits c.toNat lead) (hd : Continues d)
    (he : Continues e) :
    decodeFrom position (b :: c :: d :: e :: rest) = (decodeFrom (position + 4) rest).map
      (Char.ofNat (appendBits (appendBits (appendBits bits c) d) e) :: ·) := by
  rw [Continues] at hd he
  simp [decodeFrom, h.not_plain, h.lead_eq, h.in_bounds, h.following_eq, h.bits_eq, hd, he]

end

/-- An encoded character is decoded as that character. -/
theorem decodeFrom_encodeChar (c : Char) (position : Nat) (rest : List UInt8) :
    ∃ after, decodeFrom position (encodeChar c ++ rest) = (decodeFrom after rest).map (c :: ·) := by
  have hvalid : c.toNat < 0xD800 ∨ 0xDFFF < c.toNat ∧ c.toNat < 0x110000 := c.valid
  unfold encodeChar
  simp only []
  split
  · next hn =>
    refine ⟨position + 1, ?_⟩
    have hbyte : UInt8.ofNat c.toNat < 0x80 := by
      rw [UInt8.lt_iff_toNat_lt, toNat_byte (by omega)]
      exact hn
    rw [List.cons_append, decodeFrom.eq_def]
    simp only []
    rw [if_pos hbyte, toNat_byte (by omega), Char.ofNat_toNat]
    rfl
  · next hplain =>
    split
    · next hn =>
      obtain ⟨lead, hlead⟩ := announces_two (Nat.le_of_not_lt hplain) hn
      rw [← toNat_continuation_zero] at hlead
      refine ⟨position + 2, ?_⟩
      have hcode : appendBits (c.toNat / 64) (continuation c.toNat 0) = c.toNat := by
        unfold appendBits
        rw [toNat_continuation_zero]
        omega
      rw [List.cons_append, List.cons_append, List.nil_append, decodeFrom_two hlead, hcode,
        Char.ofNat_toNat]
    · next hshort =>
      split
      · next hn =>
        obtain ⟨lead, hlead⟩ := announces_three (Nat.le_of_not_lt hshort) hn (by omega)
        rw [← toNat_continuation_six] at hlead
        refine ⟨position + 3, ?_⟩
        have hcode : appendBits (appendBits (c.toNat / 4096) (continuation c.toNat 6))
            (continuation c.toNat 0) = c.toNat := by
          unfold appendBits
          rw [toNat_continuation_zero, toNat_continuation_six]
          omega
        rw [List.cons_append, List.cons_append, List.cons_append, List.nil_append,
          decodeFrom_three hlead (continues_continuation _ _), hcode, Char.ofNat_toNat]
      · next hlong =>
        obtain ⟨lead, hlead⟩ := announces_four (Nat.le_of_not_lt hlong) (by omega)
        rw [← toNat_continuation_twelve] at hlead
        refine ⟨position + 4, ?_⟩
        have hcode : appendBits (appendBits (appendBits (c.toNat / 262144)
            (continuation c.toNat 12)) (continuation c.toNat 6)) (continuation c.toNat 0) =
              c.toNat := by
          unfold appendBits
          rw [toNat_continuation_zero, toNat_continuation_six, toNat_continuation_twelve]
          omega
        rw [List.cons_append, List.cons_append, List.cons_append, List.cons_append,
          List.nil_append, decodeFrom_four hlead (continues_continuation _ _)
          (continues_continuation _ _), hcode, Char.ofNat_toNat]

/-- The bytes of characters are decoded as the characters. -/
theorem decodeFrom_flatMap (cs : List Char) (position : Nat) :
    decodeFrom position (cs.flatMap encodeChar) = .ok cs := by
  induction cs generalizing position with
  | nil => rfl
  | cons c cs ih =>
    obtain ⟨after, hc⟩ := decodeFrom_encodeChar c position (cs.flatMap encodeChar)
    rw [List.flatMap_cons, hc, ih after]
    rfl

end AuditHours.Text
