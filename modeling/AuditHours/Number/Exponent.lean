import AuditHours.Number.Text

/-!
Decimal text with an exponent. A real number is written with a fixed number of digits, which are
rounded from the exact value; the general form writes moderate numbers positionally and may drop
zeros at the end.
-/
namespace AuditHours.Number

/-- The first `count` digits of a positive quotient, rounded, and the exponent of the first one. -/
def leadingDigits (count num den : Nat) : Nat × Int :=
  let exponent := leadingExponent num den
  let step := exponent + 1 - count
  let digits :=
    roundHalfEven (num * Nat.pow 10 (-step).toNat) (den * Nat.pow 10 step.toNat)
  if digits = Nat.pow 10 count then (Nat.pow 10 (count - 1), exponent + 1) else (digits, exponent)

/-- The digits of a magnitude and the exponent of the first one; zero has zeros. -/
def magnitudeDigits (count mantissa : Nat) (exponent : Int) : List Char × Int :=
  if mantissa = 0 then (zeros count, 0)
  else
    let (num, den) := magnitude mantissa exponent
    let (digits, leading) := leadingDigits count num den
    (digitChars digits, leading)

/-- The text of a number whose digits are written by a rule of their own. -/
def textBy (digits : Nat → Int → List Char) (x : Float) : String :=
  match parts x with
  | .nan => "nan"
  | .infinite negative => String.ofList (signChars negative) ++ "inf"
  | .finite negative mantissa exponent =>
    String.ofList (signChars negative ++ digits mantissa exponent)

def scientificText (places : Nat) : Float → String :=
  textBy fun mantissa exponent =>
    let (digits, leading) := magnitudeDigits (places + 1) mantissa exponent
    scientific digits leading

/-- Drops the zeros at the end of digits, the first of them excepted. -/
def dropZeros (digits : List Char) : List Char :=
  match digits with
  | [] => []
  | d :: rest => d :: (rest.reverse.dropWhile (· == '0')).reverse

/-- Digits with the decimal point behind the first `point` of them, and no point at the end. -/
def positionalShort (digits : List Char) (point : Int) : List Char :=
  if digits.length ≤ point then digits ++ zeros (point.toNat - digits.length)
  else positional digits point

/-- The text of a real number with `places` digits in all; the point stays near the digits unless
that would take more of them. Zeros at the end are kept if `keep` holds. -/
def generalText (keep : Bool) (places : Nat) : Float → String :=
  let count := max places 1
  textBy fun mantissa exponent =>
    let (digits, leading) := magnitudeDigits count mantissa exponent
    let digits := if keep then digits else dropZeros digits
    if -4 ≤ leading ∧ leading < count then positionalShort digits (leading + 1)
    else scientific digits leading

/-- Puts a point behind the whole part of a number that has none; a text without digits stays. -/
def markPoint (text : List Char) : List Char :=
  if text.contains '.' || !text.any Char.isDigit then text
  else text.takeWhile (· != 'e') ++ '.' :: text.dropWhile (· != 'e')

end AuditHours.Number
