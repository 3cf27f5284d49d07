import AuditHours.Number.Text

/-!
Points in time. A moment counts milliseconds since the beginning of the year 1970; its text gives
the date in the civil calendar and the time of day, and divides the milliseconds by a comma.
-/
namespace AuditHours.Log

open Number

structure Moment where
  seconds : Nat
  milliseconds : Nat
  deriving DecidableEq, Repr

structure Date where
  year : Nat
  month : Nat
  day : Nat
  deriving DecidableEq, Repr

/-- The date of a day, counted from the beginning of 1970. Years are counted from March, so that a
leap day is the last day of its year; 146097 days make 400 years. -/
def Date.ofDays (days : Nat) : Date :=
  let days := days + 719468
  let era := days / 146097
  let dayOfEra := days % 146097
  let yearOfEra := (dayOfEra - dayOfEra / 1460 + dayOfEra / 36524 - dayOfEra / 146096) / 365
  let dayOfYear := dayOfEra - (365 * yearOfEra + yearOfEra / 4 - yearOfEra / 100)
  let month := (5 * dayOfYear + 2) / 153
  let day := dayOfYear - (153 * month + 2) / 5 + 1
  let year := era * 400 + yearOfEra
  if month < 10 then ⟨year, month + 3, day⟩ else ⟨year + 1, month - 9, day⟩

/-- A number with at least `width` digits. -/
def paddedDigits (width n : Nat) : List Char :=
  zeros (width - (digitChars n).length) ++ digitChars n

namespace Moment

def text (m : Moment) : String :=
  let date := Date.ofDays (m.seconds / 86400)
  let rest := m.seconds % 86400
  String.ofList (paddedDigits 4 date.year ++ '-' :: paddedDigits 2 date.month
    ++ '-' :: paddedDigits 2 date.day ++ ' ' :: paddedDigits 2 (rest / 3600)
    ++ ':' :: paddedDigits 2 (rest / 60 % 60) ++ ':' :: paddedDigits 2 (rest % 60)
    ++ ',' :: paddedDigits 3 m.milliseconds)

def toReal (m : Moment) : Float :=
  Float.ofScientific (m.seconds * 1000 + m.milliseconds) true 3

end Moment

/-- A leap day, the day after it, and the last day of a year. -/
example : Date.ofDays 11016 = ⟨2000, 2, 29⟩ ∧ Date.ofDays 11017 = ⟨2000, 3, 1⟩
    ∧ Date.ofDays 364 = ⟨1970, 12, 31⟩ := by decide

end AuditHours.Log
