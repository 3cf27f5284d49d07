import AuditHours.Json.Value
import AuditHours.Number.Literal
import AuditHours.Validation.Checked

/-!
Scalars of a document. A number may be given as a number, as a truth value that stands for one or
zero, or as text. Text is read with plain digits, and single underscores may divide its digits.
-/
namespace AuditHours.Validation

open Json Number Text

/-- Removes single underscores inside a text; none if there is nothing to remove or one stands at
an end or beside another. -/
def joinAtUnderscores? (cs : List Char) : Option (List Char) :=
  let rec doubled : List Char → Bool
    | '_' :: '_' :: _ => true
    | _ :: rest => doubled rest
    | [] => false
  if '_' ∈ cs ∧ cs.head? ≠ some '_' ∧ cs.getLast? ≠ some '_' ∧ !doubled cs then
    some (cs.filter (· != '_'))
  else none

def realText? (s : String) : Option Float :=
  real? (trimBy isSpace s.toList) <|> (joinAtUnderscores? s.toList).bind real?

def realNumber : Value → Except Reason Float
  | .bool b => .ok (if b then 1.0 else 0.0)
  | .int n => match ofInt? n with
    | some x => .ok x
    | none => .error .notNumber
  | .real x => .ok x
  | .str s => match realText? s with
    | some x => .ok x
    | none => .error .numberText
  | _ => .error .notNumber

def dropZeroFraction (cs : List Char) : List Char :=
  let fraction := cs.dropWhile (· != '.')
  if 1 < fraction.length ∧ (fraction.drop 1).all (· == '0') then cs.takeWhile (· != '.') else cs

def wholeText (s : String) : Except Reason Int :=
  let cs := trimBy isSpace s.toList
  if maxDigits < cs.length then .error .tooLarge
  else
    match (dropUnderscores? Char.isDigit (dropZeroFraction cs)).bind signedDigits? with
    | some (negative, digits) => .ok (signedValue negative digits)
    | none => .error .wholeText

/-- Reads a real number as a whole one; only what fits a 64-bit word is accepted. -/
def wholeOfReal (x : Float) : Except Reason Int :=
  match parts x with
  | .finite negative mantissa exponent =>
    match (Parts.finite negative mantissa exponent).toInt? with
    | none => .error .fraction
    | some n => if n.natAbs < Nat.pow 2 63 then .ok n else .error .tooLarge
  | _ => .error .notFinite

def wholeNumber : Value → Except Reason Int
  | .bool b => .ok (if b then 1 else 0)
  | .int n => .ok n
  | .real x => wholeOfReal x
  | .str s => wholeText s
  | _ => .error .notWhole

def inRange (holds : α → Bool) (reason : Reason) (value : α) : Except Reason α :=
  if holds value then .ok value else .error reason

def weight (v : Value) : Except Reason Float := do
  inRange (fun x => (parts x).isAtLeastZero) .belowZero (← realNumber v)

def duration (v : Value) : Except Reason Float := do
  inRange (fun x => (parts x).isAboveZero) .notAboveZero (← realNumber v)

def count (v : Value) : Except Reason Int := do
  inRange (fun n => decide (0 ≤ n)) .belowZero (← wholeNumber v)

def bound (v : Value) : Except Reason Int := do
  inRange (fun n => decide (0 < n)) .notAboveZero (← wholeNumber v)

def text : Value → Except Reason String
  | .str s => .ok s
  | _ => .error .notText

def name (v : Value) : Except Reason String := do
  inRange (fun s => !s.isEmpty) .emptyText (← text v)

def truthOfText? (s : String) : Option Bool :=
  let word := String.ofList (s.toList.map Char.toLower)
  if word ∈ ["1", "true", "t", "yes", "y", "on"] then some true
  else if word ∈ ["0", "false", "f", "no", "n", "off"] then some false
  else none

def truthOfWhole (n : Int) : Except Reason Bool :=
  if n = 1 then .ok true else if n = 0 then .ok false
  else if n.natAbs < Nat.pow 2 63 then .error .truthText else .error .notTruth

def truth : Value → Except Reason Bool
  | .bool b => .ok b
  | .int n => truthOfWhole n
  | .real x => match (parts x).toInt? with
    | some n => truthOfWhole n
    | none => .error .notTruth
  | .str s => match truthOfText? s with
    | some b => .ok b
    | none => .error .truthText
  | _ => .error .notTruth

def scalar (read : Value → Except Reason α) (location : List String) (v : Value) : Checked α :=
  match read v with
  | .ok value => .valid value
  | .error reason => .invalid ⟨location, reason⟩ []

end AuditHours.Validation
