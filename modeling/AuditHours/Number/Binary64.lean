/-!
Double precision numbers as exact values. A finite number is a sign, a whole mantissa and a power
of two; comparison with whole numbers and the test for a whole value are exact.
-/
namespace AuditHours.Number

/-- The value of a double precision number; a finite one is `± mantissa * 2 ^ exponent`. -/
inductive Parts where
  | nan
  | infinite (negative : Bool)
  | finite (negative : Bool) (mantissa : Nat) (exponent : Int)
  deriving DecidableEq, Repr

def Parts.ofFields (negative : Bool) (exponent fraction : Nat) : Parts :=
  if exponent = 2047 then if fraction = 0 then .infinite negative else .nan
  else if exponent = 0 then .finite negative fraction (-1074)
  else .finite negative (Nat.pow 2 52 + fraction) (exponent - 1075)

def parts (x : Float) : Parts :=
  -- `Nat.pow` by name, since what the operator stands for depends on what is imported.
  let bits := x.toBits.toNat
  .ofFields (bits / Nat.pow 2 63 == 1) (bits / Nat.pow 2 52 % 2048) (bits % Nat.pow 2 52)

def magnitude (mantissa : Nat) (exponent : Int) : Nat × Nat :=
  (mantissa * Nat.pow 2 exponent.toNat, Nat.pow 2 (-exponent).toNat)

def Parts.toInt? : Parts → Option Int
  | .finite negative mantissa exponent =>
    let (num, den) := magnitude mantissa exponent
    if num % den = 0 then some (if negative then -(num / den : Nat) else (num / den : Nat))
    else none
  | _ => none

/-- Whether the exact value is at most a whole number; never for a number that is none. -/
def Parts.leInt (p : Parts) (n : Int) : Bool :=
  match p with
  | .nan => false
  | .infinite negative => negative
  | .finite negative mantissa exponent =>
    let (num, den) := magnitude mantissa exponent
    decide ((if negative then -(num : Int) else num) ≤ n * den)

/-- Whether the exact value is at least zero; a negative zero is. -/
def Parts.isAtLeastZero : Parts → Bool
  | .nan => false
  | .infinite negative => !negative
  | .finite negative mantissa _ => !negative || mantissa == 0

def Parts.isAboveZero : Parts → Bool
  | .nan => false
  | .infinite negative => !negative
  | .finite negative mantissa _ => !negative && mantissa != 0

/-- The nearest number to a whole number, unless it is beyond the finite range. -/
def ofInt? (n : Int) : Option Float :=
  let x := Float.ofInt n
  if x.isFinite then some x else none

end AuditHours.Number
