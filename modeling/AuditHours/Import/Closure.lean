import AuditHours.Import.Resolver
import AuditHours.Source.Imports

/-!
The closure of a contract under its imports. A relative import names a unit by its way from the
importing unit; the name is made canonical by dropping single dots and letting a double dot cancel
the name before it. Any other import path is a unit name already.

A walk starts at the contract's own unit and takes the unit that was found last; each import of it
that is not known yet is read once. What is read joins the sources and is taken in its turn, and
what cannot be read joins the errors.
-/
namespace AuditHours.Import

open Json

def isRelative (path : String) : Bool :=
  ['.', '/'].isPrefixOf path.toList || ['.', '.', '/'].isPrefixOf path.toList

/-- The text of a name up to its last slash. -/
def directoryChars (name : List Char) : List Char :=
  (name.reverse.dropWhile (· != '/')).reverse

def unitName (importer path : String) : String :=
  if isRelative path then
    let joined := String.ofList (directoryChars importer.toList ++ path.toList)
    (Files.Path.ofString joined).collapse.text
  else path

/-- The units found so far with their texts, the units that cannot be read with their markers, the
units whose imports are still to be looked at, the one found last first, and all units that were
read, in order. -/
structure Walk where
  sources : List (String × String)
  errors : List (String × String)
  pending : List (String × String)
  asked : List String
  refused : Bool
  deriving DecidableEq, Repr

namespace Walk

def start (entry text : String) : Walk := ⟨[(entry, text)], [], [(entry, text)], [], false⟩

def knows (w : Walk) (name : String) : Bool :=
  (field? w.sources name).isSome || (field? w.errors name).isSome

/-- Reads a unit unless it is known. A refused name ends the walk. -/
def visit (read : String → Reading) (w : Walk) (name : String) : Walk :=
  if w.refused || w.knows name then w
  else
    let w := { w with asked := w.asked ++ [name] }
    match read name with
    | .text text =>
      { w with sources := w.sources ++ [(name, text)], pending := (name, text) :: w.pending }
    | .unreadable marker => { w with errors := w.errors ++ [(name, marker)] }
    | .refused => { w with refused := true, pending := [] }

def imported (importer text : String) : List String :=
  (Source.findImports text).map (unitName importer)

/-- Takes the unit that was found last and visits what it imports. -/
def step (read : String → Reading) (w : Walk) : Walk :=
  match w.pending with
  | [] => w
  | (importer, text) :: rest =>
    (imported importer text).foldl (visit read) { w with pending := rest }

/-- Takes units until none is left, at most the given number of them. -/
def run (read : String → Reading) : Nat → Walk → Walk
  | 0, w => w
  | limit + 1, w => if w.pending.isEmpty then w else run read limit (w.step read)

end Walk

/-- More units than any file system holds. -/
def unitLimit : Nat := Nat.pow 2 64

structure Closure where
  sources : List (String × String)
  errors : List (String × String)
  deriving DecidableEq, Repr

def Resolver.collect (r : Resolver) (entry source : String) : Run Closure := do
  let tree := (← get).tree
  let walk := (Walk.start entry source).run (r.reading tree) unitLimit
  walk.asked.forM r.note
  let found := walk.sources.length
  let failed := walk.errors.length
  Run.log .debug logger s!"Collected {found} source unit(s), {failed} unreadable import(s)"
  return ⟨walk.sources, walk.errors⟩

end AuditHours.Import
