import AuditHours.Text.Character

/-!
Number literals. A decimal literal is a sign, digits with a point among them and an exponent; its
value is the nearest double precision number, so a large one is infinite. A loose reader takes
digits of any script and single underscores between digits, a strict one plain digits only.
-/
namespace AuditHours.Number

open Text

def plainDigit? (c : Char) : Option Nat := if c.isDigit then some (c.toNat - 0x30) else none

def ofDigits (ds : List Nat) : Nat := ds.foldl (fun n d => n * 10 + d) 0

def spanDigits (cs : List Char) : List Nat × List Char :=
  ((cs.takeWhile Char.isDigit).filterMap plainDigit?, cs.dropWhile Char.isDigit)

def spanSign : List Char → Bool × List Char
  | '-' :: rest => (true, rest)
  | '+' :: rest => (false, rest)
  | rest => (false, rest)

/-- A decimal fraction: its sign, all of its digits and the power of ten that scales them. -/
structure DecimalLiteral where
  negative : Bool
  digits : List Nat
  scale : Int
  deriving DecidableEq, Repr

/-- The nearest double precision number. Magnitudes that are certainly infinite or zero are told
by the position of the leading digit, before any power of ten is computed. -/
def DecimalLiteral.toFloat (d : DecimalLiteral) : Float :=
  let digits := d.digits.dropWhile (· == 0)
  let top := (digits.length : Int) + d.scale
  let size : Float :=
    if digits.isEmpty || top < -400 then 0.0
    else if 400 < top then 1.0 / 0.0
    else if d.scale < 0 then Float.ofScientific (ofDigits digits) true d.scale.natAbs
    else Float.ofScientific (ofDigits digits) false d.scale.natAbs
  if d.negative then -size else size

def exponent? : List Char → Option Int
  | [] => some 0
  | c :: rest =>
    if c = 'e' ∨ c = 'E' then
      let (negative, rest) := spanSign rest
      let (digits, rest) := spanDigits rest
      if digits.isEmpty || !rest.isEmpty then none
      else some (if negative then -(ofDigits digits : Int) else ofDigits digits)
    else none

/-- Reads a whole text as a decimal literal with a digit on at least one side of the point. -/
def decimalLiteral? (cs : List Char) : Option DecimalLiteral :=
  let (negative, cs) := spanSign cs
  let (whole, cs) := spanDigits cs
  let (fraction, cs) := match cs with
    | '.' :: rest => spanDigits rest
    | rest => ([], rest)
  if whole.isEmpty && fraction.isEmpty then none
  else (exponent? cs).map fun e => ⟨negative, whole ++ fraction, e - fraction.length⟩

def specialName? (cs : List Char) : Option Float :=
  let (negative, cs) := spanSign cs
  match String.ofList (cs.map Char.toLower) with
  | "inf" | "infinity" => some (if negative then -(1.0 / 0.0) else 1.0 / 0.0)
  | "nan" => some (0.0 / 0.0)
  | _ => none

def real? (cs : List Char) : Option Float :=
  (decimalLiteral? cs).map DecimalLiteral.toFloat <|> specialName? cs

/-- Drops underscores, each of which must stand between two digits. -/
def dropUnderscores? (isDigit : Char → Bool) (cs : List Char) : Option (List Char) :=
  let rec go (afterDigit : Bool) : List Char → Option (List Char)
    | [] => some []
    | '_' :: rest =>
      if afterDigit && (rest.head?.any isDigit) then go false rest else none
    | c :: rest => (go (isDigit c) rest).map (c :: ·)
  go false cs

def plainDigits (cs : List Char) : List Char :=
  cs.map fun c => match decimalDigit? c with
    | some d => Char.ofNat (0x30 + d)
    | none => c

/-- Reads a real number loosely: blanks around it, digits of any script, underscores. -/
def looseReal? (s : String) : Option Float :=
  (dropUnderscores? Char.isDigit (plainDigits (trimBy isSpace s.toList))).bind real?

def signedDigits? (cs : List Char) : Option (Bool × List Nat) :=
  let (negative, cs) := spanSign cs
  let (digits, rest) := spanDigits cs
  if digits.isEmpty || !rest.isEmpty then none else some (negative, digits)

def signedValue (negative : Bool) (digits : List Nat) : Int :=
  if negative then -(ofDigits digits : Int) else ofDigits digits

def maxDigits : Nat := 4300

/-- Reads a whole number loosely: blanks around it, digits of any script, underscores. -/
def looseInt? (s : String) : Option Int :=
  let plain := plainDigits (trimBy isSpace s.toList)
  match (dropUnderscores? Char.isDigit plain).bind signedDigits? with
  | some (negative, digits) =>
    if digits.length ≤ maxDigits then some (signedValue negative digits) else none
  | none => none

end AuditHours.Number
