import AuditHours.Compiler.Inventory
import AuditHours.Compiler.Job
import AuditHours.Import.Closure
import AuditHours.Source.Signals

/-!
Compiling a contract. The release of a build is installed unless it is listed, the contract and its
imports go to the compiler in one job, and its output becomes the inventory of the contract. Errors
of the compiler end the run, and so does an import that could not be read, even if the compiler
says nothing of it.
-/
namespace AuditHours.Compiler

open Json

def logger : String := Log.loggerName "core.compiler"

/-- Where imports are read from, the name of the contract's own source unit, and whether installing
shows its progress. -/
structure Bridge where
  resolver : Import.Resolver
  unitName : String
  progress : Bool

/-- Ends the loading of a compiler. A user's interrupt is no failure of the compiler's. -/
def refuse (build : Version.Build) (cause : String → LoadCause) : Setback → Run Unit
  | .fails text => do
    Run.log .error logger s!"Could not install solc {build.release}: {text}"
    Run.fail (.noCompiler build.name (cause text))
  | .interrupted => throw .interrupted

def load (build : Version.Build) (progress : Bool) : Run Unit := do
  let release := build.release
  Run.act .listCompilers
  match (← get).toolchain.list with
  | .error setback => refuse build .listing setback
  | .ok installed =>
    if installed.contains release then pure ()
    else
      Run.log .info logger s!"Installing solc {release}..."
      Run.act (.install release progress)
      match (← get).toolchain.install release with
      | .error setback => refuse build .installing setback
      | .ok toolchain => modify fun w => { w with toolchain }

/-- The output that stands for a crash: the compiler's own diagnostics if there are any, else a
single error that holds the text of the crash. -/
def Crash.output (c : Crash) : Value :=
  let text := Text.trim c.text
  let text := if text.isEmpty then "solc failed without output" else text
  if c.diagnostics.isEmpty then
    .obj [("errors", .arr [.obj [("severity", .str "error"), ("type", .str "CompilerError"),
      ("message", .str text)]])]
  else .obj [("errors", c.diagnostics)]

def compile (build : Version.Build) (job : Value) : Run Value := do
  let release := build.release
  Run.act (.compile release job)
  match (← get).toolchain.result with
  | .output output => return output
  | .crashed crash =>
    if crash.diagnostics.isEmpty then
      Run.log .error logger s!"solc {release} failed: {crash.text}"
    return crash.output
  | .notInstalled text => throw (.noCompiler build.name (.notInstalled text))
  | .broken text => throw (.argument text)
  | .interrupted => throw .interrupted

def section? (output : Value) (key : String) : Except ShapeFault (Option Value) :=
  match output with
  | .obj fields => .ok (field? fields key)
  | _ => .error .noFields

def reported (output : Value) : Except ShapeFault (List Diagnostic) := do
  (← entries (← section? output "errors")).mapM Diagnostic.ofEntry

/-- The imports that could not be read and that no message mentions, as errors. -/
def unreported (found : List Diagnostic) (failed : List (String × String)) : List Diagnostic :=
  let messages := (" ".intercalate (found.map (·.message))).toList
  (failed.filter fun (unit, _) => !Source.mentions unit.toList messages).map fun (unit, marker) =>
    .ofImport unit marker

def judge (output : Value) (failed : List (String × String)) :
    Except ShapeFault (List Diagnostic) :=
  (reported output).map fun found => found ++ unreported found failed

def inventoryOf (output : Value) (unitName : String) : Except ShapeFault Inventory := do
  match Diagnostic.filled? (← section? output "contracts") with
  | none => Inventory.ofOutput none
  | some (.obj units) => Inventory.ofOutput (field? units unitName)
  | some _ => .error .noFields

def warn (d : Diagnostic) : Run Unit :=
  Run.log .warning logger ("Compiler " ++ plain d.severity ++ ": " ++ d.message)

def Bridge.compile (bridge : Bridge) (source : String) (build : Version.Build) (runs : Value) :
    Run Inventory := do
  if !isRunCount runs then
    Run.fail (.argument ("optimizer_runs must be a non-negative integer, got " ++ shown runs))
  load build bridge.progress
  let closure ← bridge.resolver.collect bridge.unitName source
  let job ← Run.ofResult .shape (Job.ofSources closure.sources runs)
  Run.log .info logger s!"Compiling {bridge.unitName} with solc {build.name}"
  let output ← Compiler.compile build job.document
  let found ← Run.ofResult .shape (judge output closure.errors)
  (found.filter (! ·.isError)).forM warn
  let errors := found.filter (·.isError)
  if !errors.isEmpty then Run.fail (.compileErrors errors)
  let inventory ← Run.ofResult .shape (inventoryOf output bridge.unitName)
  let names := ", ".intercalate inventory.names
  Run.log .debug logger s!"Compiled {inventory.length} contract unit(s): {names}"
  return inventory

end AuditHours.Compiler
