import AuditHours.CommandLine.Arguments
import AuditHours.Estimate.Pipeline
import AuditHours.Log.Setup
import AuditHours.Report.Delivery
import AuditHours.Settings.Reading

/-!
A run from the command line. The report goes to the standard output or to a file, the log to the
standard error. The failures of an estimate become exit codes; any other failure escapes.
-/
namespace AuditHours.CommandLine

open Json

def logger : String := Log.loggerName "cli.main"

def exitDone : Nat := 0

def exitFailed : Nat := 1

def exitUsage : Nat := 2

def exitInterrupted : Nat := 130

def produce (settings : Settings) (request : Request) : Run Report.Delivery := do
  let catalogUrl := request.catalogUrl.getD settings.catalogUrl
  let mode := if request.aggregateOnce then .aggregateOnce else settings.mode
  let estimator ← Run.ofResult (fun fault => .argument fault.message)
    (Estimate.Estimator.ofSettings { settings with catalogUrl })
  let estimate ← estimator.estimateFile request.contract request.config
    ⟨.int request.runs, request.countImports, .str mode.name⟩
  Report.deliver request.format (.obj estimate.document) request.output

/-- How a run ends: its exit code, its output, and what it adds to the log. -/
structure Closing where
  code : Nat
  output : String := ""
  complaint : String := ""
  deriving DecidableEq, Repr

def complaintText (errors : List Compiler.Diagnostic) : String :=
  String.join ("Compilation errors found:\n" :: errors.map (·.message ++ "\n"))

def detailsOf (failure : Failure) : String := Log.detailsHeading ++ "\n" ++ failure.message

def closeFailed (verbose : Bool) (failure : Failure) : Run Closing :=
  match failure with
  | .compileErrors errors => return { code := exitFailed, complaint := complaintText errors }
  | .interrupted => do
    Run.log .info logger "Operation cancelled by user"
    return { code := exitInterrupted }
  | failure =>
    if failure.isExpected then do
      let text := failure.message
      Run.log .error logger s!"Error: {text}"
      if verbose then
        Run.note { level := .error, logger, message := "Detailed error:"
                   details := some (detailsOf failure) }
      return { code := exitFailed }
    else throw failure

def closeDone : Report.Delivery → Run Closing
  | .handed text => return { code := exitDone, output := text ++ "\n" }
  | .written path => do
    Run.log .info logger s!"Report generated: {path.text}"
    return { code := exitDone }

def answer (settings : Settings) (request : Request) : Run Closing := do
  match ← Run.attempt (produce settings request) with
  | .ok delivery => closeDone delivery
  | .error failure => closeFailed request.verbose failure

def loggersFor (settings : Settings) (verbose : Bool) : Except Failure Log.Registry := do
  let layout ←
    if settings.jsonLogs then pure .document
    else match Log.Layout.ofPattern? settings.logFormat with
      | some layout => pure layout
      | none => throw (.argument (Log.SetupFault.pattern settings.logFormat).message)
  let level := if verbose then .debug else settings.logLevel
  return Log.Registry.fresh.setUp ⟨Log.rootName, level, layout, none⟩

/-- What is left of a run: its exit code or the failure that escaped it, its output and its log. -/
structure Outcome where
  ending : Except Failure Nat
  output : String := ""
  log : String := ""

def answerIn (settings : Settings) (request : Request) (moment : Log.Moment) (world : World) :
    Outcome × World :=
  match loggersFor settings request.verbose with
  | .error failure => ({ ending := .error failure }, world)
  | .ok registry =>
    let (result, after) := (answer settings request).inWorld { world with records := [] }
    let log := (registry.writeAll moment after.records).console
    let world := { after with records := world.records ++ after.records }
    match result with
    | .ok closing =>
      ({ ending := .ok closing.code, output := closing.output, log := log ++ closing.complaint },
        world)
    | .error failure => ({ ending := .error failure, log }, world)

/-- The settings of a run and the environment that its settings file leaves behind. -/
def settingsIn (tree : Files.Tree) (environment : Settings.Environment) :
    Except Failure (Settings × Settings.Environment) := do
  let extended ← (Settings.environmentIn tree environment).mapError .settingsFile
  match ← (Settings.ofEnvironment tree environment).mapError Failure.settingsFile with
  | .valid settings => return (settings, extended)
  | .invalid first more => throw (.settings (first :: more))

/-- Runs the program. Returns the environment as the run leaves it. -/
def execute (arguments : List String) (environment : Settings.Environment) (moment : Log.Moment)
    (world : World) : Outcome × Settings.Environment × World :=
  match settingsIn world.tree environment with
  | .error failure => ({ ending := .error failure }, environment, world)
  | .ok (settings, environment) =>
    match readArguments arguments with
    | .error .help => ({ ending := .ok exitDone, output := helpText }, environment, world)
    | .error (.fault fault) =>
      ({ ending := .ok exitUsage, log := faultText fault }, environment, world)
    | .ok request =>
      let (outcome, world) := answerIn settings request moment world
      (outcome, environment, world)

end AuditHours.CommandLine
