import AuditHours.Source.Pragma
import AuditHours.World

/-!
Reading imported units. Names that start with the package prefix are read below the vendored
package directory, all others from a root directory or as they stand. A unit that cannot be read
leaves a marker, so one missing unit does not stop the others from being read.
-/
namespace AuditHours.Import

open Files

structure Resolver where
  vendorBase : Files.Path
  packagePrefix : String
  root : Option Files.Path

namespace Resolver

def standardPrefix : String := "@openzeppelin/"

def standardBase : String := "./node_modules/@openzeppelin/"

/-- Reads below a vendored package directory and from the working directory. -/
def ofBase (vendorBase : String) : Resolver := ⟨.ofString vendorBase, standardPrefix, none⟩

def packageRest? (r : Resolver) (name : String) : Option String :=
  (Source.dropPrefix? r.packagePrefix.toList name.toList).map String.ofList

def path (r : Resolver) (name : String) : Files.Path :=
  match r.packageRest? name with
  | some rest => r.vendorBase.join (.ofString rest)
  | none =>
    match r.root with
    | some root => root.join (.ofString name)
    | none => .ofString name

end Resolver

/-- What reading a unit comes to: its text, a marker in place of a text, or no answer at all for a
name that no file system takes. -/
inductive Reading where
  | text (text : String)
  | unreadable (marker : String)
  | refused
  deriving DecidableEq, Repr

def logger : String := Log.loggerName "core.import_resolver"

def marker (path : Files.Path) : String := "Error reading " ++ path.text

namespace Resolver

def reading (r : Resolver) (tree : Files.Tree) (name : String) : Reading :=
  match tree.readText (r.path name) with
  | .ok text => .text text
  | .error (.file .zeroCharacter) => .refused
  | .error _ => .unreadable (marker (r.path name))

def note (r : Resolver) (name : String) : Run Unit := do
  let path := r.path name
  Run.act (.readImport path)
  match (← get).tree.readText path with
  | .ok _ => pure ()
  | .error (.file .zeroCharacter) => Run.fail (.file .zeroCharacter)
  | .error failure => Run.log .error logger (marker path ++ ": " ++ failure.message)

def read (r : Resolver) (name : String) : Run Reading := do
  r.note name
  return r.reading (← get).tree name

end Resolver

end AuditHours.Import
