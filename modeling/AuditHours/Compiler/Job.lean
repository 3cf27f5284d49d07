import AuditHours.Compiler.Diagnostic

/-!
Jobs for the compiler. A job holds all source units with their texts and the number of optimizer
runs; the optimizer is on when there is at least one run. All output of the compiler is asked for.
-/
namespace AuditHours.Compiler

open Json

structure Job where
  sources : List (String × String)
  runs : Value

namespace Job

/-- Whether the optimizer is on, which only numbers tell. -/
def enabled (runs : Value) : Except ShapeFault Bool :=
  match runs with
  | .bool b => .ok b
  | .int n => .ok (0 < n)
  | .real x => .ok (0 < x)
  | _ => .error .wrongType

/-- A job for source units; of units of one name the last text counts. -/
def ofSources (sources : List (String × String)) (runs : Value) : Except ShapeFault Job :=
  (enabled runs).map fun _ => ⟨ofPairs sources, runs⟩

def optimized (job : Job) : Bool :=
  match enabled job.runs with
  | .ok b => b
  | .error _ => false

def sourcesDocument (job : Job) : Fields :=
  job.sources.map fun (name, text) => (name, .obj [("content", .str text)])

def optimizerDocument (job : Job) : Value :=
  .obj [("enabled", .bool job.optimized), ("runs", job.runs)]

def document (job : Job) : Value :=
  .obj [("language", .str "Solidity"), ("sources", .obj job.sourcesDocument),
    ("settings", .obj [("optimizer", job.optimizerDocument),
      ("outputSelection", .obj [("*", .obj [("*", .arr [.str "*"])])])])]

end Job

def isRunCount : Value → Bool
  | .bool _ => true
  | .int n => 0 ≤ n
  | _ => false

end AuditHours.Compiler
