import AuditHours.Compiler.Toolchain
import AuditHours.Failure
import AuditHours.Log.Record
import AuditHours.Version.Cache

/-!
The surroundings of a run: the file tree, the network, the installed compilers, the cache of
resolved versions, and what the run has left behind so far, namely its outside actions and its log
records in order. A stage of a run takes the surroundings and returns them with its result; what
it did before a failure stays done.
-/
namespace AuditHours

open Json

/-- Something that a run does to its surroundings, or asks of them. -/
inductive Action where
  | readContract (path : Files.Path)
  | readOverlay (path : Files.Path)
  | get (request : Http.Request)
  | listCompilers
  | install (release : String) (progress : Bool)
  | readImport (path : Files.Path)
  | compile (release : String) (job : Value)

structure World where
  tree : Files.Tree
  network : Http.Network
  toolchain : Compiler.Toolchain
  cache : Version.Cache
  actions : List Action
  records : List Log.Record

abbrev Run (α : Type) := ExceptT Failure (StateM World) α

namespace Run

def inWorld (stage : Run α) (world : World) : Except Failure α × World := stage.run world

def fail (failure : Failure) : Run α := throw failure

/-- A result that may be a failure. -/
def ofResult (failure : ε → Failure) : Except ε α → Run α
  | .ok value => pure value
  | .error e => throw (failure e)

def note (record : Log.Record) : Run Unit :=
  modify fun w => { w with records := w.records ++ [record] }

def log (level : Log.Level) (logger message : String) : Run Unit := note { level, logger, message }

def act (action : Action) : Run Unit :=
  modify fun w => { w with actions := w.actions ++ [action] }

/-- Runs a stage and returns its failure as a result. -/
def attempt (stage : Run α) : Run (Except Failure α) := tryCatch (stage.map .ok) (pure ∘ .error)

end Run

end AuditHours
