import AuditHours.Json.Value

/-!
Checked values. A checked value is a value, or a non-empty list of everything that is wrong with the
document it was read from. Checks that stand side by side are combined so that the violations of
each of them are kept, in order; nothing stops at the first one.

A group of a document is an object with a fixed set of keys, each of which has a document spelling
and a plain one. Where both are given the document spelling counts and the other one is unknown. A
missing key leaves its default; a key that belongs to no field is a violation.
-/
namespace AuditHours.Validation

open Json

inductive Reason where
  | notNumber
  | numberText
  | belowZero
  | notAboveZero
  | notWhole
  | wholeText
  | fraction
  | tooLarge
  | notFinite
  | notTruth
  | truthText
  | notText
  | emptyText
  | notListed (choices : String)
  | notGroup (name : String)
  | unknownKey
  | rule (text : String)
  deriving DecidableEq, Repr

def Reason.kind : Reason → String
  | .notNumber => "float_type"
  | .numberText => "float_parsing"
  | .belowZero => "greater_than_equal"
  | .notAboveZero => "greater_than"
  | .notWhole => "int_type"
  | .wholeText => "int_parsing"
  | .fraction => "int_from_float"
  | .tooLarge => "int_parsing_size"
  | .notFinite => "finite_number"
  | .notTruth => "bool_type"
  | .truthText => "bool_parsing"
  | .notText => "string_type"
  | .emptyText => "string_too_short"
  | .notListed _ => "enum"
  | .notGroup _ => "model_type"
  | .unknownKey => "extra_forbidden"
  | .rule _ => "value_error"

def Reason.message : Reason → String
  | .notNumber => "Input should be a valid number"
  | .numberText => "Input should be a valid number, unable to parse string as a number"
  | .belowZero => "Input should be greater than or equal to 0"
  | .notAboveZero => "Input should be greater than 0"
  | .notWhole => "Input should be a valid integer"
  | .wholeText => "Input should be a valid integer, unable to parse string as an integer"
  | .fraction => "Input should be a valid integer, got a number with a fractional part"
  | .tooLarge => "Unable to parse input string as an integer, exceeded maximum size"
  | .notFinite => "Input should be a finite number"
  | .notTruth => "Input should be a valid boolean"
  | .truthText => "Input should be a valid boolean, unable to interpret input"
  | .notText => "Input should be a valid string"
  | .emptyText => "String should have at least 1 character"
  | .notListed choices => s!"Input should be {choices}"
  | .notGroup name => s!"Input should be a valid dictionary or instance of {name}"
  | .unknownKey => "Extra inputs are not permitted"
  | .rule text => s!"Value error, {text}"

/-- A fault and the keys that lead to the place where it stands. -/
structure Violation where
  location : List String
  reason : Reason
  deriving DecidableEq, Repr

/-- A value, or everything that is wrong. -/
inductive Checked (α : Type) where
  | valid (value : α)
  | invalid (first : Violation) (more : List Violation)

namespace Checked

def violations : Checked α → List Violation
  | valid _ => []
  | invalid first more => first :: more

def value? : Checked α → Option α
  | valid value => some value
  | invalid _ _ => none

def also (c : Checked α) (found : List Violation) : Checked α :=
  match c, found with
  | valid value, [] => valid value
  | valid _, v :: more => invalid v more
  | invalid first more, found => invalid first (more ++ found)

/-- A value that must keep a rule; the rule is not looked at when something is wrong already. -/
def ensure (c : Checked α) (holds : α → Bool) (violation : α → Violation) : Checked α :=
  match c with
  | valid value => if holds value then valid value else invalid (violation value) []
  | invalid first more => invalid first more

def map (f : α → β) : Checked α → Checked β
  | valid value => valid (f value)
  | invalid first more => invalid first more

/-- Combines two checks and keeps the violations of both. -/
def both (f : α → β → γ) (a : Checked α) (b : Checked β) : Checked γ :=
  match a with
  | valid x => b.map (f x)
  | invalid first more => invalid first (more ++ b.violations)

instance : Applicative Checked where
  pure := valid
  map := map
  seq f a := both (fun g x => g x) f (a ())

@[simp]
theorem violations_map (f : α → β) (c : Checked α) : (f <$> c).violations = c.violations := by
  cases c <;> rfl

@[simp]
theorem violations_seq (f : Checked (α → β)) (a : Checked α) :
    (f <*> a).violations = f.violations ++ a.violations := by
  cases f <;> cases a <;> rfl

@[simp]
theorem violations_also (c : Checked α) (found : List Violation) :
    (c.also found).violations = c.violations ++ found := by
  cases c <;> cases found <;> simp [also, violations]

theorem value?_eq_none_iff (c : Checked α) : c.value? = none ↔ c.violations ≠ [] := by
  cases c <;> simp [value?, violations]

end Checked

/-! ### Groups -/

structure Key where
  document : String
  plain : String
  deriving DecidableEq, Repr

/-- The spelling that a document uses for a key, and the value given there. -/
def Key.find? (key : Key) (fields : Fields) : Option (String × Value) :=
  (field? fields key.document).map (key.document, ·) <|>
    (field? fields key.plain).map (key.plain, ·)

def Key.read (key : Key) (fields : Fields) (location : List String) (default : α)
    (reader : List String → Value → Checked α) : Checked α :=
  match key.find? fields with
  | some (spelling, v) => reader (location ++ [spelling]) v
  | none => .valid default

def unknownKeys (keys : List Key) (fields : Fields) : List String :=
  let known := keys.filterMap fun key => (key.find? fields).map (·.1)
  (fields.map (·.1)).filter (! known.contains ·)

/-- Reads a group: its fields, and after them a violation for each unknown key. -/
def group (name : String) (keys : List Key) (read : List String → Fields → Checked α)
    (location : List String) : Value → Checked α
  | .obj fields =>
    (read location fields).also
      ((unknownKeys keys fields).map fun key => ⟨location ++ [key], .unknownKey⟩)
  | _ => .invalid ⟨location, .notGroup name⟩ []

end AuditHours.Validation
