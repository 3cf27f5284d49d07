import AuditHours.Version.Cache

/-!
Callers that share a cache. A caller that finds its constraint stored takes the stored outcome. Else
it joins the flight that is registered for the constraint, or registers one and owns it. An owner
runs the search, stores what the search found or passes its error to the flight, takes the flight
off the register and only then lets it land. A caller that waits on a flight goes on when it has
landed: with the error of the flight, or from the beginning.

Each step of a caller is atomic, and the steps of different callers may come in any order.
-/
namespace AuditHours.Version

open Json

inductive Ending (ε : Type) where
  | build (build : Build)
  | notFound
  | failed (error : ε)
  deriving DecidableEq, Repr

def Ending.ofEntry {ε : Type} : Option Build → Ending ε
  | some found => .build found
  | none => .notFound

/-- A search that several callers may wait for. -/
structure Flight (ε : Type) where
  key : String
  landed : Bool
  error? : Option ε
  deriving DecidableEq, Repr

/-- How far a call has come. Flights are denoted by their numbers. -/
inductive Phase (ε : Type) where
  | arriving
  | waiting (flight : Nat)
  | owning (flight : Nat)
  | searching (flight : Nat)
  | returned (flight : Nat) (value : Option Build)
  | raised (flight : Nat) (error : ε)
  | stored (flight : Nat) (value : Option Build)
  | removed (flight : Nat) (error : ε)
  | finished (ending : Ending ε)
  deriving DecidableEq, Repr

structure Caller (ε : Type) where
  key : String
  phase : Phase ε
  deriving DecidableEq, Repr

/-- A cache, the register of flights, all flights and calls so far, the constraints for which a
search was started and those that were found in the cache, both in order. -/
structure Sharing (ε : Type) where
  cache : Cache
  registered : List (String × Nat)
  flights : List (Flight ε)
  callers : List (Caller ε)
  searches : List String
  hits : List String

/-- What a caller does next; a running search returns or raises, all else proceeds. -/
inductive Move (ε : Type) where
  | proceed
  | returns (value : Option Build)
  | raises (error : ε)

namespace Sharing

variable {ε : Type}

def start (cache : Cache) : Sharing ε := ⟨cache, [], [], [], [], []⟩

def call (s : Sharing ε) (key : String) : Sharing ε :=
  { s with callers := s.callers ++ [{ key, phase := .arriving }] }

def setPhase (s : Sharing ε) (i : Nat) (phase : Phase ε) : Sharing ε :=
  { s with callers := s.callers.modify i fun c => { c with phase } }

def unregister (s : Sharing ε) (key : String) : Sharing ε :=
  { s with registered := s.registered.filter (·.1 != key) }

@[simp]
theorem setPhase_registered (s : Sharing ε) (i : Nat) (phase : Phase ε) :
    (s.setPhase i phase).registered = s.registered := rfl

@[simp]
theorem unregister_cache (s : Sharing ε) (key : String) : (s.unregister key).cache = s.cache := rfl

@[simp]
theorem unregister_registered (s : Sharing ε) (key : String) :
    (s.unregister key).registered = s.registered.filter (·.1 != key) := rfl

def setFlight (s : Sharing ε) (f : Nat) (change : Flight ε → Flight ε) : Sharing ε :=
  { s with flights := s.flights.modify f change }

def enter (s : Sharing ε) (i : Nat) (key : String) : Sharing ε :=
  match s.cache.find? key with
  | some value => { s with hits := s.hits ++ [key] }.setPhase i (.finished (.ofEntry value))
  | none =>
    match field? s.registered key with
    | some f => s.setPhase i (.waiting f)
    | none =>
      let f := s.flights.length
      let opened : Flight ε := ⟨key, false, none⟩
      { s with registered := (key, f) :: s.registered, flights := s.flights ++ [opened] }.setPhase i
        (.owning f)

/-- One step of a call; none if the call cannot take it. -/
def step (s : Sharing ε) (i : Nat) (move : Move ε) : Option (Sharing ε) := do
  let caller ← s.callers[i]?
  match caller.phase, move with
  | .arriving, .proceed => some (s.enter i caller.key)
  | .owning f, .proceed =>
    some ({ s with searches := s.searches ++ [caller.key] }.setPhase i (.searching f))
  | .searching f, .returns value => some (s.setPhase i (.returned f value))
  | .searching f, .raises error =>
    some ((s.setFlight f fun flight => { flight with error? := some error }).setPhase i
      (.raised f error))
  | .returned f value, .proceed =>
    some (({ s with cache := s.cache.store caller.key value }.unregister caller.key).setPhase i
      (.stored f value))
  | .raised f error, .proceed =>
    some ((s.unregister caller.key).setPhase i (.removed f error))
  | .stored f value, .proceed =>
    some ((s.setFlight f fun flight => { flight with landed := true }).setPhase i
      (.finished (.ofEntry value)))
  | .removed f error, .proceed =>
    some ((s.setFlight f fun flight => { flight with landed := true }).setPhase i
      (.finished (.failed error)))
  | .waiting f, .proceed => do
    let flight ← s.flights[f]?
    if flight.landed then
      match flight.error? with
      | some error => some (s.setPhase i (.finished (.failed error)))
      | none => some (s.setPhase i .arriving)
    else none
  | _, _ => none

def proceed (s : Sharing ε) (i : Nat) (move : Move ε) : Sharing ε := (s.step i move).getD s

def ending? (s : Sharing ε) (i : Nat) : Option (Ending ε) :=
  match s.callers[i]? with
  | some ⟨_, .finished ending⟩ => some ending
  | _ => none

def proceedAll (s : Sharing ε) (calls : List Nat) : Sharing ε :=
  calls.foldl (fun s i => s.proceed i .proceed) s

end Sharing

/-- What a search does: it returns, raises, or ends as a call for another constraint does. -/
inductive Search (ε : Type) where
  | returns (value : Option Build)
  | raises (error : ε)
  | asks (key : String) (search : Search ε)
  deriving Inhabited

namespace Sharing

variable {ε : Type}

def isSearching (s : Sharing ε) (i : Nat) : Bool :=
  match s.callers[i]? with
  | some ⟨_, .searching _⟩ => true
  | _ => false

def nextCalls (s : Sharing ε) (count : Nat) : List Nat :=
  (List.range count).map (s.callers.length + ·)

/-- A call arrives and searches if it has to; then others for the same constraint arrive. -/
def gather (s : Sharing ε) (key : String) (waiters : Nat) : Sharing ε :=
  let first := s.callers.length
  let s := ((s.call key).proceed first .proceed).proceed first .proceed
  let others := s.nextCalls waiters
  (others.foldl (fun s _ => s.call key) s).proceedAll others

/-- The search of a call ends and its flight lands; then the calls that waited for it end. -/
def release (s : Sharing ε) (first : Nat) (waiters : Nat) (move : Move ε) : Sharing ε :=
  let others := (List.range waiters).map (first + 1 + ·)
  let s := ((s.proceed first move).proceed first .proceed).proceed first .proceed
  (s.proceedAll others).proceedAll others

/-- Serves one call that searches if it has to, and calls for the same constraint that arrive while
the search runs. The calls get the next numbers, the searching one first. -/
def serve (notFound : String → ε) (s : Sharing ε) (key : String) (waiters : Nat) :
    Search ε → Sharing ε
  | .returns value => (s.gather key waiters).release s.callers.length waiters (.returns value)
  | .raises error => (s.gather key waiters).release s.callers.length waiters (.raises error)
  | .asks other search =>
    let gathered := s.gather key waiters
    if gathered.isSearching s.callers.length then
      let answered := serve notFound gathered other 0 search
      answered.release s.callers.length waiters
        (match answered.ending? gathered.callers.length with
        | some (.build build) => .returns (some build)
        | some .notFound => .raises (notFound other)
        | some (.failed error) => .raises error
        | none => .proceed)
    else gathered

end Sharing

end AuditHours.Version
