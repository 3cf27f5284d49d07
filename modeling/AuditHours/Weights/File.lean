import AuditHours.Weights.Overlay
import AuditHours.World

/-!
Weight overlays from files. A file that cannot be read, that is no document, or whose document is no
object is refused under the path that was asked for.
-/
namespace AuditHours.Weights

open Json

def logger : String := Log.loggerName "core.weights"

def kindName : Value → String
  | .null => "NoneType"
  | .bool _ => "bool"
  | .int _ => "int"
  | .real _ => "float"
  | .str _ => "str"
  | .arr _ => "list"
  | .obj _ => "dict"

def documentFailure (path : String) : Files.DocumentFailure → Failure
  | .unreadable (.file .zeroCharacter) => .file .zeroCharacter
  | .malformed (.tooManyDigits count) => .document (.tooManyDigits count)
  | failure => .config path (.document failure)

def loadOverlay (path : String) : Run Value := do
  Run.act (.readOverlay (.ofString path))
  match (← get).tree.readDocument (.ofString path) with
  | .error failure => throw (documentFailure path failure)
  | .ok (.obj fields) =>
    Run.log .debug logger s!"Loaded weight overlay from {path}"
    return .obj fields
  | .ok v => throw (.config path (.notObject (kindName v)))

/-- The failure that a refused overlay ends a run with; an overlay without a name has a stand-in. -/
def overlayFailure (source : String) : OverlayFault → Failure
  | .notObject => .shape .noFields
  | .violations found =>
    .config (if source.isEmpty then "<overlay>" else source) (.violations found)

/-- The table of a run: the built-in one with the overlay of a file, if one is named. -/
def tableFor : Option String → Run Table
  | none => return .standard
  | some path => do
    let overlay ← loadOverlay path
    let table ← Run.ofResult (overlayFailure path) (Table.standard.merge overlay)
    Run.log .info logger s!"Using weight overlay from {path}"
    return table

end AuditHours.Weights
