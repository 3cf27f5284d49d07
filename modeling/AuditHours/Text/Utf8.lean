/-!
Text as bytes, at most four for a character. Reading stops at the first byte that cannot continue a
character and names the span read so far, which is the longest valid beginning of a character.
Surrogates, values above U+10FFFF and forms that are longer than needed are never valid.
-/
namespace AuditHours.Text

inductive DecodeReason where
  | invalidStart
  | invalidContinuation
  | truncated
  deriving DecidableEq, Repr

/-- The bytes of a broken character, their position and what is wrong with them. -/
structure DecodeError where
  span : List UInt8
  position : Nat
  reason : DecodeReason
  deriving DecidableEq, Repr

/-- What a first byte announces: how many bytes follow, the bounds of the next one, and the bits of
the value that the first byte holds. -/
structure Lead where
  following : Nat
  low : UInt8
  high : UInt8
  bits : Nat

def Lead.ofByte? (b : UInt8) : Option Lead :=
  if b < 0xC2 then none
  else if b < 0xE0 then some ⟨1, 0x80, 0xBF, b.toNat - 0xC0⟩
  else if b = 0xE0 then some ⟨2, 0xA0, 0xBF, 0⟩
  else if b = 0xED then some ⟨2, 0x80, 0x9F, 0xD⟩
  else if b < 0xF0 then some ⟨2, 0x80, 0xBF, b.toNat - 0xE0⟩
  else if b = 0xF0 then some ⟨3, 0x90, 0xBF, 0⟩
  else if b < 0xF4 then some ⟨3, 0x80, 0xBF, b.toNat - 0xF0⟩
  else if b = 0xF4 then some ⟨3, 0x80, 0x8F, 4⟩
  else none

def appendBits (value : Nat) (b : UInt8) : Nat := value * 64 + (b.toNat - 0x80)

def decodeFrom (position : Nat) : List UInt8 → Except DecodeError (List Char)
  | [] => .ok []
  | b :: rest =>
    if b < 0x80 then (decodeFrom (position + 1) rest).map (Char.ofNat b.toNat :: ·)
    else match Lead.ofByte? b with
    | none => .error ⟨[b], position, .invalidStart⟩
    | some lead => match rest with
      | [] => .error ⟨[b], position, .truncated⟩
      | c :: rest =>
        if c < lead.low || lead.high < c then .error ⟨[b], position, .invalidContinuation⟩
        else
          let value := appendBits lead.bits c
          if lead.following = 1 then
            (decodeFrom (position + 2) rest).map (Char.ofNat value :: ·)
          else match rest with
          | [] => .error ⟨[b, c], position, .truncated⟩
          | d :: rest =>
            if d < 0x80 || 0xBF < d then .error ⟨[b, c], position, .invalidContinuation⟩
            else
              let value := appendBits value d
              if lead.following = 2 then
                (decodeFrom (position + 3) rest).map (Char.ofNat value :: ·)
              else match rest with
              | [] => .error ⟨[b, c, d], position, .truncated⟩
              | e :: rest =>
                if e < 0x80 || 0xBF < e then .error ⟨[b, c, d], position, .invalidContinuation⟩
                else (decodeFrom (position + 4) rest).map (Char.ofNat (appendBits value e) :: ·)

def decode (bytes : List UInt8) : Except DecodeError String :=
  (decodeFrom 0 bytes).map String.ofList

/-- A continuation byte: the six bits of a value above the given number of bits. -/
def continuation (value shift : Nat) : UInt8 :=
  UInt8.ofNat (0x80 + value / Nat.pow 2 shift % 64)

def encodeChar (c : Char) : List UInt8 :=
  let n := c.toNat
  if n < 0x80 then [UInt8.ofNat n]
  else if n < 0x800 then [UInt8.ofNat (0xC0 + n / 64), continuation n 0]
  else if n < 0x10000 then
    [UInt8.ofNat (0xE0 + n / 4096), continuation n 6, continuation n 0]
  else
    [UInt8.ofNat (0xF0 + n / 262144), continuation n 12, continuation n 6, continuation n 0]

def encode (s : String) : List UInt8 := s.toList.flatMap encodeChar

@[simp]
theorem encodeChar_ne_nil (c : Char) : encodeChar c ≠ [] := by
  unfold encodeChar
  simp only
  split
  · simp
  · split
    · simp
    · split <;> simp

end AuditHours.Text
