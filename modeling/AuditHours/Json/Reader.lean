import AuditHours.Json.Value
import AuditHours.Number.Literal

/-!
Reading JSON text. The reader takes one value with blanks around it and reports the first fault
with its position, counted in characters. Besides the standard it accepts the names of the special
real numbers; a number without fraction and exponent is whole and may have any size up to a fixed
number of digits. Escaped surrogates combine in pairs.
-/
namespace AuditHours.Json

open Number

inductive Fault where
  | expectedValue
  | expectedName
  | expectedColon
  | expectedComma
  | unterminatedString
  | controlCharacter
  | unknownEscape
  | badCodeEscape
  | extraData
  | byteOrderMark
  deriving DecidableEq, Repr

/-- Why a text holds no value: a fault at a position, or a whole number with too many digits. -/
inductive Stop where
  | fault (fault : Fault) (position : Nat)
  | tooManyDigits (count : Nat)
  deriving DecidableEq, Repr

/-- What a reader takes from a text: a result, the position after it and the rest. -/
abbrev Taken (α : Type) := Except Stop (α × Nat × List Char)

def isGap (c : Char) : Bool := c == ' ' || c == '\t' || c == '\n' || c == '\r'

def skipGap (position : Nat) : List Char → Nat × List Char
  | [] => (position, [])
  | c :: rest => if isGap c then skipGap (position + 1) rest else (position, c :: rest)

def hexValue? (c : Char) : Option Nat :=
  let n := c.toNat
  if 0x30 ≤ n && n ≤ 0x39 then some (n - 0x30)
  else if 0x41 ≤ n && n ≤ 0x46 then some (n - 0x37)
  else if 0x61 ≤ n && n ≤ 0x66 then some (n - 0x57)
  else none

def hexQuad? (a b c d : Char) : Option Nat := do
  return (((← hexValue? a) * 16 + (← hexValue? b)) * 16 + (← hexValue? c)) * 16 + (← hexValue? d)

def namedEscape? (c : Char) : Option Char :=
  match c with
  | '"' => some '"'
  | '\\' => some '\\'
  | '/' => some '/'
  | 'b' => some '\x08'
  | 'f' => some '\x0c'
  | 'n' => some '\n'
  | 'r' => some '\r'
  | 't' => some '\t'
  | _ => none

def Taken.push (n : Nat) (t : Taken (List Nat)) : Taken (List Nat) :=
  t.map fun (codes, position, rest) => (n :: codes, position, rest)

/-- Reads the rest of a string whose opening quote stood at `start`, as code points. A code escape
is complete only if more text follows it. -/
def takeString (start position : Nat) : List Char → Taken (List Nat)
  | [] => .error (.fault .unterminatedString start)
  | '"' :: rest => .ok ([], position + 1, rest)
  | ['\\'] => .error (.fault .unterminatedString start)
  | '\\' :: 'u' :: a :: b :: c :: d :: e :: rest =>
    match hexQuad? a b c d with
    | some n => (takeString start (position + 6) (e :: rest)).push n
    | none => .error (.fault .badCodeEscape (position + 1))
  | '\\' :: c :: rest =>
    if c = 'u' then .error (.fault .badCodeEscape (position + 1))
    else match namedEscape? c with
      | some named => (takeString start (position + 2) rest).push named.toNat
      | none => .error (.fault .unknownEscape position)
  | c :: rest =>
    if c.toNat < 0x20 then .error (.fault .controlCharacter position)
    else (takeString start (position + 1) rest).push c.toNat

def isHighHalf (n : Nat) : Bool := 0xD800 ≤ n && n ≤ 0xDBFF

def isLowHalf (n : Nat) : Bool := 0xDC00 ≤ n && n ≤ 0xDFFF

/-- The character of a code point; a surrogate that stands alone is replaced. -/
def codeChar (n : Nat) : Char :=
  if isHighHalf n || isLowHalf n then Char.ofNat 0xFFFD else Char.ofNat n

def joinHalves : List Nat → List Char
  | [] => []
  | high :: low :: rest =>
    if isHighHalf high && isLowHalf low then
      Char.ofNat (0x10000 + (high - 0xD800) * 0x400 + (low - 0xDC00)) :: joinHalves rest
    else codeChar high :: joinHalves (low :: rest)
  | [n] => [codeChar n]

def stringOfCodes (codes : List Nat) : String := String.ofList (joinHalves codes)

def takeFraction : List Char → Option (List Nat × List Char)
  | '.' :: rest =>
    let (digits, rest) := spanDigits rest
    if digits.isEmpty then none else some (digits, rest)
  | _ => none

def takeExponent : List Char → Option (Int × List Char)
  | c :: rest =>
    if c = 'e' ∨ c = 'E' then
      let (negative, rest) := spanSign rest
      let (digits, rest) := spanDigits rest
      if digits.isEmpty then none else some (signedValue negative digits, rest)
    else none
  | [] => none

/-- The whole part of a number: a zero alone, or digits that start with none. -/
def takeWhole : List Char → Option (List Nat × List Char)
  | '0' :: rest => some ([0], rest)
  | cs =>
    let (digits, rest) := spanDigits cs
    if digits.isEmpty then none else some (digits, rest)

def takeNumber (position : Nat) (cs : List Char) : Taken Value :=
  let (negative, body) := match cs with
    | '-' :: rest => (true, rest)
    | rest => (false, rest)
  match takeWhole body with
  | none => .error (.fault .expectedValue position)
  | some (whole, rest) =>
    let fraction := takeFraction rest
    let rest := (fraction.map (·.2)).getD rest
    let exponent := takeExponent rest
    let rest := (exponent.map (·.2)).getD rest
    let after := position + (cs.length - rest.length)
    if fraction.isNone && exponent.isNone then
      if whole.length ≤ maxDigits then .ok (.int (signedValue negative whole), after, rest)
      else .error (.tooManyDigits whole.length)
    else
      let places := (fraction.map (·.1)).getD []
      let scale := (exponent.map (·.1)).getD 0
      .ok (.real (DecimalLiteral.toFloat ⟨negative, whole ++ places, scale - places.length⟩),
        after, rest)

def takeScalar (position : Nat) (cs : List Char) : Taken Value :=
  match cs with
  | 'n' :: 'u' :: 'l' :: 'l' :: rest => .ok (.null, position + 4, rest)
  | 't' :: 'r' :: 'u' :: 'e' :: rest => .ok (.bool true, position + 4, rest)
  | 'f' :: 'a' :: 'l' :: 's' :: 'e' :: rest => .ok (.bool false, position + 5, rest)
  | 'N' :: 'a' :: 'N' :: rest => .ok (.real (0.0 / 0.0), position + 3, rest)
  | 'I' :: 'n' :: 'f' :: 'i' :: 'n' :: 'i' :: 't' :: 'y' :: rest =>
    .ok (.real (1.0 / 0.0), position + 8, rest)
  | '-' :: 'I' :: 'n' :: 'f' :: 'i' :: 'n' :: 'i' :: 't' :: 'y' :: rest =>
    .ok (.real (-(1.0 / 0.0)), position + 9, rest)
  | cs => takeNumber position cs

mutual

def takeValue : Nat → Nat → List Char → Taken Value
  | 0, position, _ => .error (.fault .expectedValue position)
  | fuel + 1, position, cs =>
    match cs with
    | '"' :: rest =>
      (takeString position (position + 1) rest).map fun (text, after, rest) =>
        (.str (stringOfCodes text), after, rest)
    | '[' :: rest =>
      match skipGap (position + 1) rest with
      | (position, ']' :: rest) => .ok (.arr [], position + 1, rest)
      | (position, rest) =>
        (takeItems fuel position rest).map fun (items, after, rest) => (.arr items, after, rest)
    | '{' :: rest =>
      match skipGap (position + 1) rest with
      | (position, '}' :: rest) => .ok (.obj [], position + 1, rest)
      | (position, rest) =>
        (takeFields fuel position rest).map fun (fields, after, rest) =>
          (.obj (ofPairs fields), after, rest)
    | cs => takeScalar position cs

def takeItems : Nat → Nat → List Char → Taken (List Value)
  | 0, position, _ => .error (.fault .expectedValue position)
  | fuel + 1, position, cs =>
    match takeValue fuel position cs with
    | .error stop => .error stop
    | .ok (value, position, rest) =>
      match skipGap position rest with
      | (position, ']' :: rest) => .ok ([value], position + 1, rest)
      | (position, ',' :: rest) =>
        let (position, rest) := skipGap (position + 1) rest
        (takeItems fuel position rest).map fun (items, position, rest) =>
          (value :: items, position, rest)
      | (position, _) => .error (.fault .expectedComma position)

def takeFields : Nat → Nat → List Char → Taken (List (String × Value))
  | 0, position, _ => .error (.fault .expectedValue position)
  | fuel + 1, position, cs =>
    match cs with
    | '"' :: rest =>
      match takeString position (position + 1) rest with
      | .error stop => .error stop
      | .ok (name, position, rest) =>
        match skipGap position rest with
        | (position, ':' :: rest) =>
          let (position, rest) := skipGap (position + 1) rest
          match takeValue fuel position rest with
          | .error stop => .error stop
          | .ok (value, position, rest) =>
            let field := (stringOfCodes name, value)
            match skipGap position rest with
            | (position, '}' :: rest) => .ok ([field], position + 1, rest)
            | (position, ',' :: rest) =>
              let (position, rest) := skipGap (position + 1) rest
              (takeFields fuel position rest).map fun (fields, position, rest) =>
                (field :: fields, position, rest)
            | (position, _) => .error (.fault .expectedComma position)
        | (position, _) => .error (.fault .expectedColon position)
    | _ => .error (.fault .expectedName position)

end

/-- Reads a text that consists of one value. Two steps for each character always suffice. -/
def readChars (cs : List Char) : Except Stop Value :=
  if cs.head? = some '\uFEFF' then .error (.fault .byteOrderMark 0)
  else
    let (position, rest) := skipGap 0 cs
    match takeValue (2 * cs.length + 2) position rest with
    | .error stop => .error stop
    | .ok (value, position, rest) =>
      match skipGap position rest with
      | (_, []) => .ok value
      | (position, _) => .error (.fault .extraData position)

/-- A fault with its place in the text: line and column from one, position from zero. -/
structure Place where
  line : Nat
  column : Nat
  position : Nat
  deriving DecidableEq, Repr

def Place.of (cs : List Char) (position : Nat) : Place :=
  let before := cs.take position
  let column := (before.reverse.takeWhile (· != '\n')).length + 1
  ⟨before.count '\n' + 1, column, position⟩

inductive ReadError where
  | malformed (fault : Fault) (place : Place)
  | tooManyDigits (count : Nat)
  deriving DecidableEq, Repr

def ReadError.ofStop (cs : List Char) : Stop → ReadError
  | .fault fault position => .malformed fault (.of cs position)
  | .tooManyDigits count => .tooManyDigits count

def read (text : String) : Except ReadError Value :=
  (readChars text.toList).mapError (.ofStop text.toList)

def Fault.message : Fault → String
  | .expectedValue => "Expecting value"
  | .expectedName => "Expecting property name enclosed in double quotes"
  | .expectedColon => "Expecting ':' delimiter"
  | .expectedComma => "Expecting ',' delimiter"
  | .unterminatedString => "Unterminated string starting at"
  | .controlCharacter => "Invalid control character at"
  | .unknownEscape => "Invalid \\escape"
  | .badCodeEscape => "Invalid \\uXXXX escape"
  | .extraData => "Extra data"
  | .byteOrderMark => "Unexpected UTF-8 BOM (decode using utf-8-sig)"

def ReadError.message : ReadError → String
  | .malformed fault place =>
    s!"{fault.message}: line {place.line} column {place.column} (char {place.position})"
  | .tooManyDigits count =>
    s!"Exceeds the limit ({maxDigits} digits) for integer string conversion: value has {count} " ++
      "digits; use sys.set_int_max_str_digits() to increase the limit"

end AuditHours.Json
