import AuditHours.Validation.Scalar
import AuditHours.Weights.Table

/-!
Reading a weight table. Every group is read in the order of its fields, every weight must be a
number of at least zero, and the small threshold must be lower than the medium one. All violations
of a document are reported together.
-/
namespace AuditHours.Weights

open Number Json Validation

def readWeight : List String → Value → Checked Amount :=
  scalar fun v => (weight v).map .real

namespace Thresholds

def readFields (location : List String) (fields : Fields) : Checked Thresholds :=
  Thresholds.mk
    <$> Key.read ⟨"small", "small"⟩ fields location 200 (scalar bound)
    <*> Key.read ⟨"medium", "medium"⟩ fields location 1000 (scalar bound)

def orderText (t : Thresholds) : String :=
  "sizeThresholds.small (" ++ intText t.small ++ ") must be lower than sizeThresholds.medium ("
    ++ intText t.medium ++ ")"

def read (location : List String) (v : Value) : Checked Thresholds :=
  (group "SizeThresholds" [⟨"small", "small"⟩, ⟨"medium", "medium"⟩] readFields location v).ensure
    (fun t => decide (t.small < t.medium)) fun t => ⟨location, .rule t.orderText⟩

end Thresholds

namespace BaseTimes

def readFields (location : List String) (fields : Fields) : Checked (BaseTimes Amount) :=
  BaseTimes.mk
    <$> Key.read ⟨"small", "small"⟩ fields location builtIn.baseTimes.small readWeight
    <*> Key.read ⟨"medium", "medium"⟩ fields location builtIn.baseTimes.medium readWeight
    <*> Key.read ⟨"large", "large"⟩ fields location builtIn.baseTimes.large readWeight

def read : List String → Value → Checked (BaseTimes Amount) :=
  group "BaseTimes" [⟨"small", "small"⟩, ⟨"medium", "medium"⟩, ⟨"large", "large"⟩] readFields

end BaseTimes

namespace Upgradeability

def keys : List Key :=
  [⟨"proxyPattern", "proxy_pattern"⟩, ⟨"storageLayout", "storage_layout"⟩,
    ⟨"adminRights", "admin_rights"⟩, ⟨"initialization", "initialization"⟩,
    ⟨"interContractConsistency", "inter_contract_consistency"⟩]

def readFields (location : List String) (fields : Fields) : Checked (Upgradeability Amount) :=
  let standard := builtIn.complexityFactors.upgradeability
  Upgradeability.mk
    <$> Key.read ⟨"proxyPattern", "proxy_pattern"⟩ fields location standard.proxyPattern readWeight
    <*> Key.read ⟨"storageLayout", "storage_layout"⟩ fields location standard.storageLayout
      readWeight
    <*> Key.read ⟨"adminRights", "admin_rights"⟩ fields location standard.adminRights readWeight
    <*> Key.read ⟨"initialization", "initialization"⟩ fields location standard.initialization
      readWeight
    <*> Key.read ⟨"interContractConsistency", "inter_contract_consistency"⟩ fields location
      standard.interContractConsistency readWeight

def read : List String → Value → Checked (Upgradeability Amount) :=
  group "UpgradeabilityWeights" keys readFields

end Upgradeability

namespace Factors

def keys : List Key :=
  [⟨"functionTime", "function_time"⟩, ⟨"baseFunctionCount", "base_function_count"⟩,
    ⟨"externalCallTime", "external_call_time"⟩, ⟨"importTimePerImport", "import_time_per_import"⟩,
    ⟨"importTimeFlatRate", "import_time_flat_rate"⟩, ⟨"assemblyTime", "assembly_time"⟩,
    ⟨"upgradeability", "upgradeability"⟩]

def readFields (location : List String) (fields : Fields) : Checked (Factors Amount) :=
  let standard := builtIn.complexityFactors
  Factors.mk
    <$> Key.read ⟨"functionTime", "function_time"⟩ fields location standard.functionTime readWeight
    <*> Key.read ⟨"baseFunctionCount", "base_function_count"⟩ fields location
      standard.baseFunctionCount (scalar count)
    <*> Key.read ⟨"externalCallTime", "external_call_time"⟩ fields location
      standard.externalCallTime readWeight
    <*> Key.read ⟨"importTimePerImport", "import_time_per_import"⟩ fields location
      standard.importTimePerImport readWeight
    <*> Key.read ⟨"importTimeFlatRate", "import_time_flat_rate"⟩ fields location
      standard.importTimeFlatRate readWeight
    <*> Key.read ⟨"assemblyTime", "assembly_time"⟩ fields location standard.assemblyTime readWeight
    <*> Key.read ⟨"upgradeability", "upgradeability"⟩ fields location standard.upgradeability
      Upgradeability.read

def read : List String → Value → Checked (Factors Amount) :=
  group "ComplexityFactors" keys readFields

end Factors

def keys : List Key :=
  [⟨"sizeThresholds", "size_thresholds"⟩, ⟨"baseTimes", "base_times"⟩,
    ⟨"complexityFactors", "complexity_factors"⟩]

def readFields (location : List String) (fields : Fields) : Checked (Weights Amount) :=
  Weights.mk
    <$> Key.read ⟨"sizeThresholds", "size_thresholds"⟩ fields location builtIn.sizeThresholds
      Thresholds.read
    <*> Key.read ⟨"baseTimes", "base_times"⟩ fields location builtIn.baseTimes BaseTimes.read
    <*> Key.read ⟨"complexityFactors", "complexity_factors"⟩ fields location
      builtIn.complexityFactors Factors.read

def read (v : Value) : Checked (Weights Amount) := group "WeightConfig" keys readFields [] v

end AuditHours.Weights
