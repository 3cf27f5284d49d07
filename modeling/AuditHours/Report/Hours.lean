import AuditHours.Json.Value
import AuditHours.Number.Literal
import AuditHours.Text.Quoted

/-!
Hours in reports. A whole number of hours is written without a decimal point, any other with at most
two places and no zeros at the end; the exact value is rounded, and a half goes to the even digit.
-/
namespace AuditHours.Report

open Json Number

/-- Drops the zeros at the end of a text, and a decimal point that then ends it. -/
def trimZeros (cs : List Char) : List Char :=
  let cs := (cs.reverse.dropWhile (· == '0')).reverse
  (cs.reverse.dropWhile (· == '.')).reverse

def hoursText (x : Float) : String :=
  match (parts x).toInt? with
  | some n => intText n
  | none => String.ofList (trimZeros (fixedText 2 x).toList)

inductive HoursFault where
  | text (s : String)
  | tooLarge
  | wrongType
  deriving DecidableEq, Repr

def HoursFault.message : HoursFault → String
  | .text s => "could not convert string to float: " ++ Text.quoted s
  | .tooLarge => "a whole number beyond the real numbers"
  | .wrongType => "a value of the wrong type"

def hoursOf : Value → Except HoursFault Float
  | .bool b => .ok (if b then 1.0 else 0.0)
  | .int n => match ofInt? n with
    | some x => .ok x
    | none => .error .tooLarge
  | .real x => .ok x
  | .str s => match looseReal? s with
    | some x => .ok x
    | none => .error (.text s)
  | _ => .error .wrongType

def hours (v : Value) : Except HoursFault String := (hoursOf v).map hoursText

end AuditHours.Report
