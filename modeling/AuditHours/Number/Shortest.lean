import AuditHours.Number.Binary64

/-!
The shortest decimal text of a number. A decimal reads back as the number when it lies in the
interval of values that round to it; the ends belong to the interval when the mantissa is even.
Grids of one digit, two digits and so on are tried in turn: if a point of a grid lies in the
interval, one of the two neighbours of the value on that grid does, so the first grid with a hit
gives the fewest digits. Of two hits the nearer one is taken, of equally near ones the even one.
-/
namespace AuditHours.Number

/-- A decimal value `digits * 10 ^ exponent`. -/
structure Decimal where
  digits : Nat
  exponent : Int
  deriving DecidableEq, Repr

def digitCount (n : Nat) : Nat := (Nat.toDigits 10 n).length

def leadingExponent (num den : Nat) : Int :=
  if den ≤ num then digitCount (num / den) - 1
  else
    let below := digitCount (den / num) - 1
    if den ≤ num * Nat.pow 10 below then -(below : Int) else -(below + 1 : Int)

/-- The quotients, in units of `2 ^ (exponent - 2)`, between which a decimal reads back. -/
structure Rounds where
  low : Nat
  high : Nat
  closed : Bool

/-- The interval of a positive finite number; below a power of two the gap is half as wide. -/
def Rounds.of (mantissa : Nat) (exponent : Int) : Rounds :=
  let narrow := mantissa = Nat.pow 2 52 ∧ -1074 < exponent
  ⟨if narrow then 4 * mantissa - 1 else 4 * mantissa - 2, 4 * mantissa + 2, mantissa % 2 == 0⟩

/-- The neighbours of the value on one grid that read back, the nearer one first. -/
def gridHit (mantissa : Nat) (exponent step : Int) : Option Nat :=
  let rounds := Rounds.of mantissa exponent
  let unit := exponent - 2
  -- Both sides in units of `2 ^ unit`, cleared of denominators by a common factor.
  let binary := Nat.pow 2 unit.toNat * Nat.pow 10 (-step).toNat
  let decimal := Nat.pow 10 step.toNat * Nat.pow 2 (-unit).toNat
  let value := 4 * mantissa * binary
  let below := value / decimal
  let inside (d : Nat) : Bool :=
    if rounds.closed then rounds.low * binary ≤ d * decimal && d * decimal ≤ rounds.high * binary
    else rounds.low * binary < d * decimal && d * decimal < rounds.high * binary
  let twice := 2 * (value % decimal)
  let preferBelow := twice < decimal || (twice == decimal && below % 2 == 0)
  let (first, second) := if preferBelow then (below, below + 1) else (below + 1, below)
  if inside first then some first else if inside second then some second else none

def Decimal.normalize (fuel : Nat) (d : Decimal) : Decimal :=
  match fuel with
  | 0 => d
  | fuel + 1 =>
    if d.digits ≠ 0 ∧ d.digits % 10 = 0 then normalize fuel ⟨d.digits / 10, d.exponent + 1⟩ else d

/-- Tries the grids from the given number of digits on. -/
def shortestFrom (mantissa : Nat) (exponent leading : Int) : Nat → Nat → Decimal
  | 0, _ => ⟨0, 0⟩
  | fuel + 1, places =>
    let step := leading + 1 - places
    match gridHit mantissa exponent step with
    | some digits => (Decimal.mk digits step).normalize 20
    | none => shortestFrom mantissa exponent leading fuel (places + 1)

/-- The shortest decimal that reads back as a positive finite number. Seventeen digits always
suffice. -/
def shortest (mantissa : Nat) (exponent : Int) : Decimal :=
  let (num, den) := magnitude mantissa exponent
  shortestFrom mantissa exponent (leadingExponent num den) 18 1

end AuditHours.Number
