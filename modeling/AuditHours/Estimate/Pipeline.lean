import AuditHours.Compiler.Bridge
import AuditHours.Estimate.Score
import AuditHours.Settings.Reading
import AuditHours.Version.Resolver
import AuditHours.Weights.File

/-!
The estimate of a contract. The contract is read, the weight table is built, the declared version is
resolved to a compiler build, the contract is compiled, and its inventory is scored. A stage that
fails ends the run, and no later stage begins.
-/
namespace AuditHours.Estimate

open Json Number Weights

def estimatorLogger : String := Log.loggerName "estimator"

/-- How versions are resolved and contracts are compiled, and the mode that is used when none is
asked for. -/
structure Estimator where
  resolver : Version.Resolver
  bridge : Compiler.Bridge
  mode : Mode

/-- What an estimate is asked for with; a mode that is empty leaves the choice to the estimator. -/
structure Options where
  runs : Value
  countImports : Bool
  mode : Value

structure Result where
  breakdown : Breakdown Amount
  constraint : String
  build : String
  lineCount : Nat
  units : List String
  contractPath : Option String

namespace Result

def document (e : Result) : Fields :=
  [("contract_path", (e.contractPath.map Value.str).getD .null), ("constraint", .str e.constraint),
    ("solc_version", .str e.build), ("line_count", .int e.lineCount),
    ("contract_units", .arr (e.units.map .str)), ("estimate", .obj e.breakdown.document)]

end Result

def readContract (path : String) : Run String := do
  let place := Files.Path.ofString path
  Run.act (.readContract place)
  match (← get).tree.readText place with
  | .ok text => return text
  | .error (.file .zeroCharacter) => throw (.file .zeroCharacter)
  | .error failure => throw (.source place.text failure)

def declaredConstraint (source : String) : Run String :=
  match Source.constraint? source with
  | some constraint => return constraint
  | none => throw .noDeclaration

def functionCounts (inventory : Compiler.Inventory) : Run (List Nat) :=
  Run.ofResult .shape (inventory.mapM (·.functionCount))

namespace Estimator

def ofSettings (s : Settings) : Except Http.ClientFault Estimator :=
  (Version.Resolver.withTimeout s.catalogUrl (.real s.timeout)).map fun resolver =>
    { resolver
      bridge := ⟨.ofBase s.vendorBase, s.unitName, false⟩
      mode := s.mode }

def chosenMode (e : Estimator) (mode : Value) : Except String Mode :=
  if mode.isEmpty then .ok e.mode else modeOf mode

def estimateSource (e : Estimator) (source : String) (table : Table) (options : Options) :
    Run Result := do
  let mode ← Run.ofResult .argument (e.chosenMode options.mode)
  let signals := Source.signals source
  let constraint ← declaredConstraint source
  let build ← e.resolver.resolve constraint
  let inventory ← e.bridge.compile source build options.runs
  let counts ← functionCounts inventory
  let breakdown ← rate table.weights signals counts options.countImports mode
  let hours := fixedText 2 breakdown.total.toReal
  Run.log .info estimatorLogger s!"Estimated {hours} hours in total"
  return { breakdown, constraint, build := build.name, lineCount := signals.lineCount
           units := inventory.names, contractPath := none }

/-- Estimates the contract in a file, with the overlay of another file if one is named. -/
def estimateFile (e : Estimator) (path : String) (config : Option String) (options : Options) :
    Run Result := do
  Run.log .info estimatorLogger s!"Estimating audit time for {path}"
  let source ← readContract path
  let table ← tableFor config
  let estimate ← e.estimateSource source table options
  return { estimate with contractPath := some path }

end Estimator

end AuditHours.Estimate
