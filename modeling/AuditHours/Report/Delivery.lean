import AuditHours.Report.Layout
import AuditHours.World

/-!
Where a report goes. A report for which an output is named is written to a file, whose suffix is
that of the format; any other report is handed back. The report is complete before a file is
touched.
-/
namespace AuditHours.Report

open Json

inductive Delivery where
  | handed (text : String)
  | written (path : Files.Path)
  deriving DecidableEq, Repr

def Delivery.text : Delivery → String
  | .handed text => text
  | .written path => path.text

def formatOf (name : String) : Except Failure Format :=
  match Format.ofName? name with
  | some format => .ok format
  | none => .error (.argument s!"Unsupported export format: {name}")

/-- The file of a report: the named output with the suffix of the format. -/
def destination (format : Format) (output : String) : Except Failure Files.Path :=
  let path := Files.Path.ofString output
  match path.withSuffix? format.suffix with
  | some file => .ok file
  | none => .error (.argument ("PosixPath(" ++ Text.quoted path.text ++ ") has an empty name"))

def writeFile (path : Files.Path) (text : String) : Run Unit := do
  let world ← get
  let (result, tree) := world.tree.writeText path text
  set { world with tree }
  Run.ofResult .file result

/-- Renders a report and delivers it; an output without characters is no output. -/
def deliver (format : Format) (data : Value) (output : Option String) : Run Delivery := do
  let text ← Run.ofResult .report (render format data)
  match output.filter (!·.isEmpty) with
  | none => return .handed text
  | some output =>
    let path ← Run.ofResult id (destination format output)
    writeFile path text
    Run.log .debug format.logger s!"Report written to {path.text}"
    return .written path

end AuditHours.Report
