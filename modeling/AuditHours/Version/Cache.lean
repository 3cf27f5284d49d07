import AuditHours.Json.Value
import AuditHours.Version.Build

/-!
The memory of resolved version constraints. A constraint is stored with its build, or with nothing
when no release satisfies it. A stored constraint is never stored again.
-/
namespace AuditHours.Version

open Json

/-- What is known of each constraint, in the order of storing. -/
structure Cache where
  entries : List (String × Option Build)
  deriving DecidableEq, Repr

namespace Cache

def empty : Cache := ⟨[]⟩

def find? (cache : Cache) (key : String) : Option (Option Build) := field? cache.entries key

def contains (cache : Cache) (key : String) : Bool := (cache.find? key).isSome

def build? (cache : Cache) (key : String) : Option Build := (cache.find? key).join

def size (cache : Cache) : Nat := cache.entries.length

/-- Stores what was found for a constraint unless it is stored already. -/
def store (cache : Cache) (key : String) (value : Option Build) : Cache :=
  if cache.contains key then cache else ⟨cache.entries ++ [(key, value)]⟩

@[simp]
theorem store_of_contains {cache : Cache} {key : String} (h : cache.contains key = true)
    (value : Option Build) : cache.store key value = cache := by
  simp [store, h]

@[simp]
theorem find?_store_self {cache : Cache} {key : String} (h : cache.contains key = false)
    (value : Option Build) : (cache.store key value).find? key = some value := by
  have hnone : cache.entries.find? (·.1 == key) = none := by
    simpa [contains, find?, field?] using h
  simp [store, h, find?, field?, List.find?_append, hnone]

@[simp]
theorem find?_store_of_ne (cache : Cache) {key other : String} (h : other ≠ key)
    (value : Option Build) : (cache.store key value).find? other = cache.find? other := by
  unfold store
  split
  · rfl
  · have hne : (key == other) = false := by simpa using Ne.symm h
    simp [find?, field?, List.find?_append, hne]

end Cache

end AuditHours.Version
