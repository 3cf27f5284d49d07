import AuditHours.Number.Binary64
import AuditHours.Number.Text

/-!
Amounts of hours. An amount is a whole number of any size or a real number. Whole amounts are
added and multiplied exactly; as soon as a real takes part the other operand is rounded to a real.
-/
namespace AuditHours.Number

inductive Amount where
  | whole (n : Int)
  | real (x : Float)

namespace Amount

def toReal : Amount → Float
  | .whole n => Float.ofInt n
  | .real x => x

/-- Whether a whole amount is too large to be rounded to a real. -/
def beyondReal : Amount → Bool
  | .whole n => (ofInt? n).isNone
  | .real _ => false

/-- Combines two amounts exactly if both are whole, else as reals. -/
def combine (whole : Int → Int → Int) (real : Float → Float → Float) : Amount → Amount → Amount
  | .whole a, .whole b => .whole (whole a b)
  | a, b => .real (real a.toReal b.toReal)

instance : Add Amount := ⟨combine (· + ·) (· + ·)⟩

instance : Mul Amount := ⟨combine (· * ·) (· * ·)⟩

instance : Zero Amount := ⟨.whole 0⟩

instance : NatCast Amount := ⟨fun n => .whole n⟩

/-- The sum, unless a whole amount would have to be rounded beyond the finite reals. -/
def add? (a b : Amount) : Option Amount :=
  match a, b with
  | .whole _, .whole _ => some (a + b)
  | _, _ => if a.beyondReal || b.beyondReal then none else some (a + b)

/-- Whether the amount is at most a whole number, compared exactly. -/
def leInt : Amount → Int → Bool
  | .whole a, n => a ≤ n
  | .real x, n => (parts x).leInt n

def text : Amount → String
  | .whole n => intText n
  | .real x => RealStyle.plain.text x

@[simp]
theorem whole_add (a b : Int) : (Amount.whole a + .whole b) = .whole (a + b) := rfl

@[simp]
theorem whole_mul (a b : Int) : (Amount.whole a * .whole b) = .whole (a * b) := rfl

end Amount

end AuditHours.Number
