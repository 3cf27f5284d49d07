import AuditHours.Http.Client
import AuditHours.Source.Pragma

/-!
Resolving a version constraint. The release catalog maps releases to file names of builds; the
constraint itself is looked up first, and then the constraint without its operator. What was found,
and that nothing was found, is remembered; failures are not.
-/
namespace AuditHours.Version

open Json

def logger : String := Log.loggerName "core.version_resolver"

structure Resolver where
  url : String
  client : Http.Client

namespace Resolver

def withTimeout (url : String) (timeout : Value) : Except Http.ClientFault Resolver :=
  (Http.Client.ofOptions [("timeout", timeout)]).map fun client => ⟨url, client⟩

def standardTimeout : Value := .real 10.0

def releasesOf? (document : Value) : Option Fields :=
  match document.get? "releases" with
  | some (.obj releases) => some releases
  | _ => none

def releases (resolver : Resolver) : Run Fields := do
  Run.log .debug logger s!"Fetching compiler catalog from {resolver.url}"
  match ← resolver.client.fetch resolver.url [] with
  | .error fault => Run.fail (.catalog resolver.url (.fetch fault))
  | .ok document =>
    match releasesOf? document with
    | some releases => return releases
    | none => Run.fail (.catalog resolver.url .noReleases)

/-- The entry of a catalog for a constraint, as it stands or without its operator. -/
def entryFor (releases : Fields) (constraint : String) : Value :=
  match field? releases constraint with
  | none | some .null => (field? releases (Source.stripOperator constraint)).getD .null
  | some v => v

/-- Searches the catalog for a constraint. An entry that is empty counts as none. -/
def search (resolver : Resolver) (constraint : String) : Run (Option Build) := do
  Run.log .info logger s!"Resolving full version for Solidity {constraint}..."
  let found := entryFor (← resolver.releases) constraint
  if found.isEmpty then
    Run.log .warning logger s!"Version {constraint} is not in the compiler catalog"
    return none
  match found with
  | .str fileName =>
    let build := Build.ofFileName fileName
    Run.log .info logger s!"Resolved Solidity {constraint} to {build.name}"
    return some build
  | _ => Run.fail (.shape .noFields)

end Resolver

def buildOf (constraint : String) : Option Build → Run Build
  | some build => return build
  | none => Run.fail (.noRelease constraint)

def hitRecord (constraint : String) : Log.Record :=
  { level := .info, logger, message := s!"Using cached version for Solidity {constraint}..." }

/-- What is known of a constraint, found by a search when nothing is. -/
def findOrSearch (constraint : String) (search : Run (Option Build)) : Run Build := do
  match (← get).cache.find? constraint with
  | some value =>
    Run.note (hitRecord constraint)
    buildOf constraint value
  | none =>
    let value ← search
    modify fun w => { w with cache := w.cache.store constraint value }
    buildOf constraint value

def Resolver.resolve (resolver : Resolver) (constraint : String) : Run Build :=
  findOrSearch constraint (resolver.search constraint)

end AuditHours.Version
