import AuditHours.Compiler.Diagnostic
import AuditHours.Files.TextFile
import AuditHours.Http.Network
import AuditHours.Report.Template
import AuditHours.Validation.Checked

/-!
Failures of an estimate. Each stage of the estimate has its own failure, which holds its cause; the
message of a failure ends with the message of the cause. Besides them stand the failures of callers
and of documents whose shape nothing has checked.
-/
namespace AuditHours

open Json

inductive CatalogCause where
  | fetch (fault : Http.FetchFault)
  | noReleases
  | told (text : Option String)
  deriving DecidableEq

def CatalogCause.message : CatalogCause → String
  | .fetch fault => fault.message
  | .noReleases => "catalog has no 'releases' map"
  | .told text => text.getD "None"

inductive LoadCause where
  | listing (text : String)
  | installing (text : String)
  | notInstalled (text : String)
  deriving DecidableEq, Repr

def LoadCause.message : LoadCause → String
  | .listing text => text
  | .installing text => text
  | .notInstalled text => text

inductive ConfigCause where
  | document (failure : Files.DocumentFailure)
  | notObject (kind : String)
  | violations (found : List Validation.Violation)
  deriving DecidableEq

def violationsText (found : List Validation.Violation) : String :=
  let count := found.length
  s!"{count} validation error" ++ if count = 1 then "" else "s"

def ConfigCause.message : ConfigCause → String
  | .document failure => failure.message
  | .notObject kind => s!"expected a JSON object at top level, got {kind}"
  | .violations found => violationsText found

inductive Failure where
  | noDeclaration
  | noRelease (constraint : String)
  | catalog (url : String) (cause : CatalogCause)
  | noCompiler (build : String) (cause : LoadCause)
  | compileErrors (errors : List Compiler.Diagnostic)
  | config (path : String) (cause : ConfigCause)
  | source (path : String) (cause : Files.ReadFailure)
  | fetch (fault : Http.FetchFault)
  | argument (text : String)
  | document (error : ReadError)
  | file (error : Files.Error)
  | report (fault : Report.Fault)
  | shape (fault : ShapeFault)
  | settings (found : List Validation.Violation)
  | settingsFile (cause : Files.ReadFailure)
  | interrupted

namespace Failure

def declarationText : String := "No 'pragma solidity' version declaration found in source"

def releaseText (constraint : String) : String :=
  s!"No compiler release found for version constraint '{constraint}'"

def catalogText (url cause : String) : String :=
  s!"Could not load compiler version catalog from {url}: {cause}"

def compilerText (build cause : String) : String := s!"Failed to load compiler {build}: {cause}"

def compileText (messages : List String) : String :=
  "\n".intercalate (s!"Compilation failed with {messages.length} error(s):"
    :: messages.map ("- " ++ ·))

def configText (path cause : String) : String := s!"Invalid configuration in {path}: {cause}"

def sourceText (path cause : String) : String := s!"Could not read source file {path}: {cause}"

def message : Failure → String
  | .noDeclaration => declarationText
  | .noRelease constraint => releaseText constraint
  | .catalog url cause => catalogText url cause.message
  | .noCompiler build cause => compilerText build cause.message
  | .compileErrors errors => compileText (errors.map (·.message))
  | .config path cause => configText path cause.message
  | .source path cause => sourceText path cause.message
  | .fetch fault => fault.message
  | .argument text => text
  | .document error => error.message
  | .file error => error.message
  | .report fault => fault.message
  | .shape .noFields => "a value without fields"
  | .shape .wrongType => "a value of the wrong type"
  | .settings found => violationsText found
  | .settingsFile cause => cause.message
  | .interrupted => "interrupted"

/-- Whether a failure is one of the estimate's own, which a run reports and survives. -/
def isExpected : Failure → Bool
  | .noDeclaration | .noRelease _ | .catalog _ _ | .noCompiler _ _ | .compileErrors _
  | .config _ _ | .source _ _ => true
  | _ => false

end Failure

end AuditHours
