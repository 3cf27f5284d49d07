import AuditHours.Json.Value
import AuditHours.Number.Amount

/-!
The weight table of the estimate. Line counts up to the small threshold fall into the small bucket,
up to the medium one into the medium bucket, and all others into the large bucket. The amounts of a
table are of any type with a sum and a product; a table that is read or printed holds whole and
real amounts.
-/
namespace AuditHours

namespace Weights

/-- Inclusive upper bounds of the small and the medium bucket. -/
structure Thresholds where
  small : Int
  medium : Int
  deriving DecidableEq, Repr

structure BaseTimes (α : Type) where
  small : α
  medium : α
  large : α

structure Upgradeability (α : Type) where
  proxyPattern : α
  storageLayout : α
  adminRights : α
  initialization : α
  interContractConsistency : α

/-- Hours for what makes a contract complex. Functions up to the base count are free. -/
structure Factors (α : Type) where
  functionTime : α
  baseFunctionCount : Int
  externalCallTime : α
  importTimePerImport : α
  importTimeFlatRate : α
  assemblyTime : α
  upgradeability : Upgradeability α

end Weights

structure Weights (α : Type) where
  sizeThresholds : Weights.Thresholds
  baseTimes : Weights.BaseTimes α
  complexityFactors : Weights.Factors α

namespace Weights

open Number Json

/-- The amounts that stand in a table when nothing else is given. -/
def builtIn : Weights Amount where
  sizeThresholds := ⟨200, 1000⟩
  baseTimes := ⟨.whole 5, .whole 20, .whole 50⟩
  complexityFactors :=
    { functionTime := .real 0.5
      baseFunctionCount := 10
      externalCallTime := .whole 2
      importTimePerImport := .whole 3
      importTimeFlatRate := .whole 5
      assemblyTime := .whole 3
      upgradeability := ⟨.whole 3, .whole 5, .whole 2, .whole 2, .whole 4⟩ }

def amountValue : Amount → Value
  | .whole n => .int n
  | .real x => .real x

def Thresholds.document (t : Thresholds) : Fields :=
  [("small", .int t.small), ("medium", .int t.medium)]

def BaseTimes.document (t : BaseTimes Amount) : Fields :=
  [("small", amountValue t.small), ("medium", amountValue t.medium), ("large", amountValue t.large)]

def Upgradeability.document (u : Upgradeability Amount) : Fields :=
  [("proxyPattern", amountValue u.proxyPattern), ("storageLayout", amountValue u.storageLayout),
    ("adminRights", amountValue u.adminRights), ("initialization", amountValue u.initialization),
    ("interContractConsistency", amountValue u.interContractConsistency)]

def Factors.document (f : Factors Amount) : Fields :=
  [("functionTime", amountValue f.functionTime), ("baseFunctionCount", .int f.baseFunctionCount),
    ("externalCallTime", amountValue f.externalCallTime),
    ("importTimePerImport", amountValue f.importTimePerImport),
    ("importTimeFlatRate", amountValue f.importTimeFlatRate),
    ("assemblyTime", amountValue f.assemblyTime),
    ("upgradeability", .obj f.upgradeability.document)]

/-- The table as a document, which is the form of an overlay. -/
def document (w : Weights Amount) : Fields :=
  [("sizeThresholds", .obj w.sizeThresholds.document), ("baseTimes", .obj w.baseTimes.document),
    ("complexityFactors", .obj w.complexityFactors.document)]

end Weights

end AuditHours
