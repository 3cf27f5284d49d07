import AuditHours.Files.TextFile
import AuditHours.Log.Layout

/-!
Loggers. A record climbs from its logger to the loggers above it, and every handler on the way
writes it whose level it reaches; a logger that does not pass records on ends the climb. A logger
without a level of its own has that of the nearest logger above it. Setting a logger up replaces
its handlers and ends the climb there.

The logger above another one is the nearest of those made so far whose name is a beginning of its
name, or else the topmost logger.
-/
namespace AuditHours.Log

open Json

inductive Target where
  | console
  | file (path : Files.Path)
  deriving DecidableEq, Repr

structure Handler where
  target : Target
  level : Level
  layout : Layout
  deriving DecidableEq, Repr

/-- The state of a logger; level zero is no level. -/
structure Logger where
  level : Level := 0
  handlers : List Handler := []
  passesOn : Bool := true
  deriving DecidableEq, Repr

/-- The loggers that have been made, by name. The name of the topmost one is empty. -/
abbrev Registry := List (String × Logger)

/-- The beginnings of a name that end before a dot, the longest first; the name and its beginnings
are given backwards. Of dots in a row every second one divides. -/
def beginnings : List Char → List (List Char)
  | '.' :: c :: rest => (c :: rest) :: beginnings rest
  | _ :: rest => beginnings rest
  | [] => []

theorem length_of_mem_beginnings {name beginning : List Char} (h : beginning ∈ beginnings name) :
    beginning.length < name.length := by
  fun_induction beginnings name with
  | case1 c rest ih =>
    rcases List.mem_cons.1 h with rfl | h
    · simp
    · have := ih h
      simp only [List.length_cons]
      omega
  | case2 c rest _ ih =>
    have := ih h
    simp only [List.length_cons]
    omega
  | case3 => simp at h

def topName : String := "root"

def registryName (name : String) : String := if name = topName then "" else name

def shownName (name : String) : String := if name.isEmpty then topName else name

namespace Registry

def fresh : Registry := [("", { level := .warning })]

def contains (registry : Registry) (name : String) : Bool := (field? registry name).isSome

def make (registry : Registry) (name : String) : Registry :=
  if registry.contains name then registry else registry ++ [(name, ({} : Logger))]

def logger (registry : Registry) (name : String) : Logger := (field? registry name).getD {}

/-- The names of the loggers above one, the topmost one left out; all names are given backwards. -/
def above (registry : Registry) (name : List Char) : List (List Char) :=
  match _h : (beginnings name).find? fun b => registry.contains (String.ofList b.reverse) with
  | some next => next :: registry.above next
  | none => []
  termination_by name.length
  decreasing_by exact length_of_mem_beginnings (List.mem_of_find?_eq_some _h)

/-- The loggers that a record climbs through, its own first and the topmost one last. -/
def climb (registry : Registry) (name : String) : List String :=
  if name.isEmpty then [name]
  else name :: (registry.above name.toList.reverse).map (String.ofList ·.reverse) ++ [""]

def threshold (registry : Registry) (name : String) : Level :=
  (((registry.climb name).map fun n => (registry.logger n).level).find? (· != 0)).getD 0

def handlersAlong (registry : Registry) : List String → List Handler
  | [] => []
  | name :: above =>
    let logger := registry.logger name
    logger.handlers ++ if logger.passesOn then handlersAlong registry above else []

def handlersFor (registry : Registry) (name : String) : List Handler :=
  registry.handlersAlong (registry.climb name)

/-- Whether a logger lets records of a level pass; levels up to zero never do. -/
def accepts (registry : Registry) (name : String) (level : Level) : Bool :=
  0 < level && registry.threshold name ≤ level

structure Plan where
  name : String
  level : Level
  layout : Layout
  file : Option Files.Path

def Plan.handlers (p : Plan) : List Handler :=
  ⟨.console, p.level, p.layout⟩ :: (p.file.map fun path => ⟨.file path, p.level, p.layout⟩).toList

def setUp (registry : Registry) (p : Plan) : Registry :=
  setField registry (registryName p.name) ⟨p.level, p.handlers, false⟩

end Registry

structure Output where
  console : String
  files : List (Files.Path × String)

def Output.empty : Output := ⟨"", []⟩

def Output.append (a b : Output) : Output := ⟨a.console ++ b.console, a.files ++ b.files⟩

def detailsHeading : String := "Traceback (most recent call last):"

/-- The console's text for a record that does not fit its layout. -/
def misfitText : String := s!"--- Logging error ---\n{detailsHeading}\n"

def Handler.write (h : Handler) (moment : Moment) (r : Record) : Output :=
  if r.level < h.level then .empty
  else match h.layout.line? moment r, h.target with
    | none, _ => ⟨misfitText, []⟩
    | some line, .console => ⟨line ++ "\n", []⟩
    | some line, .file path => ⟨"", [(path, line ++ "\n")]⟩

def lastHandler : Handler := ⟨.console, .warning, .pattern messagePattern⟩

def Registry.write (registry : Registry) (moment : Moment) (r : Record) : Output :=
  if registry.accepts r.logger r.level then
    let handlers := registry.handlersFor r.logger
    let handlers := if handlers.isEmpty then [lastHandler] else handlers
    (handlers.map (·.write moment r)).foldl .append .empty
  else .empty

def Registry.writeAll (registry : Registry) (moment : Moment) (records : List Record) : Output :=
  (records.map (registry.write moment)).foldl .append .empty

end AuditHours.Log
