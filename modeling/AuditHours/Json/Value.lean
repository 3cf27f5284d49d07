import AuditHours.Number.Text

/-!
JSON values. Whole and real numbers are kept apart, and an object is a list of fields in the order
of their first appearance. `Value.get?` reads a field, `setField` writes one in its place.
-/
namespace AuditHours.Json

inductive Value where
  | null
  | bool (b : Bool)
  | int (n : Int)
  | real (x : Float)
  | str (s : String)
  | arr (items : List Value)
  | obj (fields : List (String × Value))
  deriving Inhabited

abbrev Fields := List (String × Value)

def field? (fields : List (String × α)) (key : String) : Option α :=
  (fields.find? (·.1 == key)).map (·.2)

/-- How a document departs from the shape that its reader relies on: it has no fields, it cannot be
walked through, or it cannot be compared. -/
inductive ShapeFault where
  | noFields
  | wrongType
  deriving DecidableEq, Repr

/-- Replaces the value of a field in its place, or adds the field at the end. -/
def setField (fields : List (String × α)) (key : String) (value : α) : List (String × α) :=
  match fields with
  | [] => [(key, value)]
  | f :: rest => if f.1 = key then (key, value) :: rest else f :: setField rest key value

/-- Fields in order of first appearance, each with the value that was given last. -/
def ofPairs (pairs : List (String × α)) : List (String × α) :=
  pairs.foldl (fun fields p => setField fields p.1 p.2) []

@[simp]
theorem field?_setField_self (fields : List (String × α)) (key : String) (value : α) :
    field? (setField fields key value) key = some value := by
  induction fields with
  | nil => simp [setField, field?]
  | cons f rest ih =>
    unfold setField
    split
    · simp [field?]
    · next h => simpa [field?, List.find?_cons, h] using ih

@[simp]
theorem field?_setField_of_ne (fields : List (String × α)) {key other : String} (value : α)
    (h : other ≠ key) : field? (setField fields key value) other = field? fields other := by
  induction fields with
  | nil => simp [setField, field?, Ne.symm h]
  | cons f rest ih =>
    unfold setField
    split
    · next hf => simp [field?, hf, Ne.symm h]
    · by_cases ho : f.1 = other
      · simp [field?, ho]
      · simpa [field?, List.find?_cons, ho] using ih

namespace Value

def get? (v : Value) (key : String) : Option Value :=
  match v with
  | .obj fields => field? fields key
  | _ => none

/-- Null, false, zero and everything empty count as no value; a number that is none does not. -/
def isEmpty : Value → Bool
  | .null => true
  | .bool b => !b
  | .int n => n == 0
  | .real x => x == 0.0
  | .str s => s.isEmpty
  | .arr items => items.isEmpty
  | .obj fields => fields.isEmpty

/-- The values that one walks through: the items of a list, the characters of a text, the keys of
an object. -/
def elements? : Value → Option (List Value)
  | .arr items => some items
  | .str s => some (s.toList.map fun c => .str c.toString)
  | .obj fields => some (fields.map fun f => .str f.1)
  | _ => none

def isText (v : Value) (text : String) : Bool :=
  match v with
  | .str s => s == text
  | _ => false

end Value

end AuditHours.Json
