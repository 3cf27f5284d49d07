import AuditHours.Number.Shortest
import AuditHours.Number.Rounding

/-!
Decimal text of numbers. A real number is written with the fewest digits that read back, in
positional form while its decimal point lies near the digits and with an exponent of at least two
digits otherwise; a whole value keeps one zero after the point. Fixed places are rounded from the
exact value.
-/
namespace AuditHours.Number

/-- The choices of a written form for real numbers: the span of positions of the decimal point,
counted from the first digit, that is written positionally, and the names of the special values. -/
structure RealStyle where
  pointAbove : Int
  pointUpTo : Int
  nanName : String
  infinityName : String
  deriving DecidableEq, Repr

def RealStyle.plain : RealStyle := ⟨-4, 16, "nan", "inf"⟩

def RealStyle.document : RealStyle := ⟨-4, 16, "NaN", "Infinity"⟩

def digitChars (n : Nat) : List Char := Nat.toDigits 10 n

def zeros (n : Nat) : List Char := List.replicate n '0'

/-- Digits with the decimal point behind the first `point` of them. -/
def positional (digits : List Char) (point : Int) : List Char :=
  if point ≤ 0 then '0' :: '.' :: zeros (-point).toNat ++ digits
  else if digits.length ≤ point.toNat then
    digits ++ zeros (point.toNat - digits.length) ++ ['.', '0']
  else digits.take point.toNat ++ '.' :: digits.drop point.toNat

/-- Digits with an exponent that moves the point from behind the first of them. -/
def scientific (digits : List Char) (exponent : Int) : List Char :=
  let mantissa := match digits with
    | d :: rest@(_ :: _) => d :: '.' :: rest
    | short => short
  let size := digitChars exponent.natAbs
  mantissa ++ 'e' :: (if exponent < 0 then '-' else '+') :: (zeros (2 - size.length) ++ size)

def RealStyle.decimal (style : RealStyle) (d : Decimal) : List Char :=
  let digits := digitChars d.digits
  let point := digits.length + d.exponent
  if style.pointAbove < point ∧ point ≤ style.pointUpTo then positional digits point
  else scientific digits (point - 1)

def signChars (negative : Bool) : List Char := if negative then ['-'] else []

def RealStyle.text (style : RealStyle) (x : Float) : String :=
  match parts x with
  | .nan => style.nanName
  | .infinite negative => String.ofList (signChars negative) ++ style.infinityName
  | .finite negative mantissa exponent =>
    let body := if mantissa = 0 then ['0', '.', '0'] else style.decimal (shortest mantissa exponent)
    String.ofList (signChars negative ++ body)

/-- A whole number with its last `places` digits behind a decimal point. -/
def withPoint (scaled places : Nat) : List Char :=
  if places = 0 then digitChars scaled
  else
    let fraction := digitChars (scaled % Nat.pow 10 places)
    digitChars (scaled / Nat.pow 10 places) ++ '.' :: zeros (places - fraction.length) ++ fraction

def fixedText (places : Nat) (x : Float) : String :=
  match parts x with
  | .nan => "nan"
  | .infinite negative => String.ofList (signChars negative) ++ "inf"
  | .finite negative mantissa exponent =>
    let (num, den) := magnitude mantissa exponent
    String.ofList
      (signChars negative ++ withPoint (roundHalfEven (num * Nat.pow 10 places) den) places)

def intText (n : Int) : String :=
  String.ofList (signChars (decide (n < 0)) ++ digitChars n.natAbs)

end AuditHours.Number
