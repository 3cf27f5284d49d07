import AuditHours.Json.Plain
import AuditHours.Source.Signals
import AuditHours.Weights.Table
import AuditHours.World

/-!
The score of a contract. Base time depends on the line count alone. Complexity time charges the
functions of each contract unit beyond the free ones, and the signals of the whole document, once
for each unit or once in all; a contract without units is not complex. Upgradeability time is added
in full or not at all. Amounts are summed from left to right in the order given here.
-/
namespace AuditHours.Estimate

open Json Number Source

/-- How the signals of a document are counted against its contract units. -/
inductive Mode where
  | perUnit
  | aggregateOnce
  deriving DecidableEq, Repr

def Mode.name : Mode → String
  | .perUnit => "per_unit"
  | .aggregateOnce => "aggregate_once"

def Mode.ofName? (name : String) : Option Mode :=
  [Mode.perUnit, Mode.aggregateOnce].find? (·.name == name)

@[simp]
theorem Mode.ofName?_name (mode : Mode) : Mode.ofName? mode.name = some mode := by
  cases mode <;> decide

def logger : String := Log.loggerName "analyzers.audit_time"

def modeOf (v : Value) : Except String Mode :=
  match v with
  | .str name => match Mode.ofName? name with
    | some mode => .ok mode
    | none => .error (shown v ++ " is not a valid ScoringMode")
  | _ => .error (shown v ++ " is not a valid ScoringMode")

structure Breakdown (α : Type) where
  base : α
  complexity : α
  upgradeability : α

variable {α : Type} [Add α] [Mul α] [Zero α] [NatCast α]

def Breakdown.total (b : Breakdown α) : α := b.base + b.complexity + b.upgradeability

/-- The base hours of the bucket whose bound is the first that fits. -/
def bucketTime (fits : Int → Bool) (w : Weights α) : α :=
  if fits w.sizeThresholds.small then w.baseTimes.small
  else if fits w.sizeThresholds.medium then w.baseTimes.medium
  else w.baseTimes.large

def baseTime (w : Weights α) (lines : Nat) : α := bucketTime (fun bound => (lines : Int) ≤ bound) w

/-- The functions beyond the free ones. -/
def surplus (w : Weights α) (functions : Nat) : Nat :=
  ((functions : Int) - w.complexityFactors.baseFunctionCount).toNat

def functionTime (w : Weights α) (functions : Nat) : α :=
  w.complexityFactors.functionTime * (surplus w functions : α)

def importTime (w : Weights α) (signals : Signals) (countImports : Bool) : α :=
  if countImports then w.complexityFactors.importTimePerImport * (signals.imports : α)
  else w.complexityFactors.importTimeFlatRate

def signalTime (w : Weights α) (signals : Signals) (countImports : Bool) : α :=
  let calls := w.complexityFactors.externalCallTime * (signals.externalCalls : α)
  let hours := calls + importTime w signals countImports
  if signals.hasAssembly then hours + w.complexityFactors.assemblyTime else hours

def unitsTime (w : Weights α) (functions : List Nat) : α :=
  (functions.map (functionTime w)).foldl (· + ·) 0

def complexityTime (w : Weights α) (signals : Signals) (functions : List Nat) (countImports : Bool)
    (mode : Mode) : α :=
  if functions.isEmpty then 0
  else
    let hours := signalTime w signals countImports
    match mode with
    | .perUnit => unitsTime w functions + hours * (functions.length : α)
    | .aggregateOnce => unitsTime w functions + hours

def upgradeTotal (u : Weights.Upgradeability α) : α :=
  u.proxyPattern + u.storageLayout + u.adminRights + u.initialization + u.interContractConsistency

def upgradeabilityTime (w : Weights α) (signals : Signals) : α :=
  if signals.isUpgradeable then upgradeTotal w.complexityFactors.upgradeability else 0

def score (w : Weights α) (signals : Signals) (functions : List Nat) (countImports : Bool)
    (mode : Mode) : Breakdown α where
  base := baseTime w signals.lineCount
  complexity := complexityTime w signals functions countImports mode
  upgradeability := upgradeabilityTime w signals

def Breakdown.document (b : Breakdown Amount) : Fields :=
  [("base_time", Weights.amountValue b.base),
    ("complexity_time", Weights.amountValue b.complexity),
    ("upgradeability_time", Weights.amountValue b.upgradeability),
    ("total", Weights.amountValue b.total)]

/-- The total of three amounts, unless it would be beyond the real numbers. -/
def Breakdown.total? (b : Breakdown Amount) : Option Amount := do
  Amount.add? (← Amount.add? b.base b.complexity) b.upgradeability

def rate (w : Weights Amount) (signals : Source.Signals) (functions : List Nat)
    (countImports : Bool) (mode : Mode) : Run (Breakdown Amount) := do
  let breakdown := score w signals functions countImports mode
  let units := functions.length
  let hours := shown (.obj breakdown.document)
  Run.log .debug logger (s!"Scored {signals.lineCount} line(s), {units} unit(s): " ++ hours)
  return breakdown

end AuditHours.Estimate
