import AuditHours.Estimate.Score
import AuditHours.Import.Resolver
import AuditHours.Log.Record
import AuditHours.Settings.Dotenv
import AuditHours.Text.LowerCase
import AuditHours.Validation.Scalar
import AuditHours.World

/-!
The settings of a run: where the release catalog and the vendored packages are, how the contract is
named for the compiler, how signals are counted, and how the run is logged. A setting is taken from
the options of the caller, else from the environment, else from the settings file in the working
directory. Names are compared without regard to case, and of several spellings in one place the last
one counts. A run that takes its settings from the environment first adds the bindings of the file
that the environment lacks.
-/
namespace AuditHours

structure Settings where
  catalogUrl : String
  timeout : Float
  vendorBase : String
  unitName : String
  mode : Estimate.Mode
  logLevel : Log.Level
  logFormat : String
  jsonLogs : Bool

def Settings.standard : Settings where
  catalogUrl := "https://solc-bin.ethereum.org/bin/list.json"
  timeout := 10.0
  vendorBase := Import.Resolver.standardBase
  unitName := "contract.sol"
  mode := .perUnit
  logLevel := .info
  logFormat := "%(asctime)s - %(name)s - %(levelname)s - %(message)s"
  jsonLogs := false

namespace Settings

open Json Validation Text

def variablePrefix : String := "auditscope_"

def lastNamed? (fields : List (String × α)) (name : String) : Option α :=
  (fields.reverse.find? fun f => toLower f.1 == name).map (·.2)

structure Sources where
  options : Fields
  environment : Environment
  file : List Binding

/-- The value of a setting in the place that comes first. -/
def Sources.find? (sources : Sources) (name : String) : Option Value :=
  let name := toLower name
  let file := sources.file.filterMap fun (n, v) => v.map (n, ·)
  lastNamed? sources.options name
    <|> (lastNamed? sources.environment (variablePrefix ++ name)).map .str
    <|> (lastNamed? file (variablePrefix ++ name)).map .str

def Sources.read (sources : Sources) (name : String) (default : α)
    (reader : Value → Except Reason α) : Checked α :=
  match sources.find? name with
  | some v => scalar reader [name] v
  | none => .valid default

/-- A scoring mode, in any case and with blanks around it. -/
def modeSetting (v : Value) : Except Reason Estimate.Mode := do
  let name := toLower (trim (← text v))
  let unknown := s!"Invalid scoring mode '{name}'. Must be one of: per_unit, aggregate_once"
  match Estimate.Mode.ofName? name with
  | some mode => return mode
  | none => throw (.rule unknown)

def logLevels : List (String × Log.Level) :=
  [("DEBUG", .debug), ("INFO", .info), ("WARNING", .warning), ("ERROR", .error),
    ("CRITICAL", .critical)]

def levelSetting (v : Value) : Except Reason Log.Level :=
  let known := match v with
    | .str name => field? logLevels name
    | _ => none
  match known with
  | some level => .ok level
  | none => .error (.notListed "'DEBUG', 'INFO', 'WARNING', 'ERROR' or 'CRITICAL'")

def read (sources : Sources) : Checked Settings :=
  Settings.mk
    <$> sources.read "SOLC_LIST_URL" standard.catalogUrl text
    <*> sources.read "REQUEST_TIMEOUT" standard.timeout duration
    <*> sources.read "VENDOR_BASE_DIR" standard.vendorBase text
    <*> sources.read "SOURCE_UNIT_NAME" standard.unitName name
    <*> sources.read "SCORING_MODE" standard.mode modeSetting
    <*> sources.read "LOG_LEVEL" standard.logLevel levelSetting
    <*> sources.read "LOG_FORMAT" standard.logFormat text
    <*> sources.read "JSON_LOGS" standard.jsonLogs truth

def filePath : Files.Path := .ofString ".env"

/-- The text of the settings file; a missing one is empty. -/
def fileText (tree : Files.Tree) : Except Files.ReadFailure String :=
  match tree.at? filePath with
  | some (.file _) => tree.readText filePath
  | _ => .ok ""

def sourcesIn (tree : Files.Tree) (environment : Environment) (options : Json.Fields) :
    Except Files.ReadFailure Sources := do
  let found := bindings (← fileText tree)
  return ⟨options, environment, expandAll true environment found⟩

def environmentIn (tree : Files.Tree) (environment : Environment) :
    Except Files.ReadFailure Environment :=
  (fileText tree).map fun text => environment.extend (bindings text)

def ofEnvironment (tree : Files.Tree) (environment : Environment) :
    Except Files.ReadFailure (Checked Settings) := do
  let environment ← environmentIn tree environment
  return read (← sourcesIn tree environment [])

def ofOptions (tree : Files.Tree) (environment : Environment) (options : Json.Fields) :
    Except Files.ReadFailure (Checked Settings) :=
  (sourcesIn tree environment options).map read

def document (s : Settings) : Json.Fields :=
  [("SOLC_LIST_URL", .str s.catalogUrl), ("REQUEST_TIMEOUT", .real s.timeout),
    ("VENDOR_BASE_DIR", .str s.vendorBase), ("SOURCE_UNIT_NAME", .str s.unitName),
    ("SCORING_MODE", .str s.mode.name), ("LOG_LEVEL", .str s.logLevel.name),
    ("LOG_FORMAT", .str s.logFormat), ("JSON_LOGS", .bool s.jsonLogs)]

end Settings

end AuditHours
