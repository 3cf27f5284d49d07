import AuditHours.Http.Address
import AuditHours.Json.Reader

/-!
Requests and what comes back for them. A client asks for documents through a session. How the
session reaches the network is its own affair: it comes back with an answer or with an error of the
transport, be it that it refuses the address, or the user interrupts it.
-/
namespace AuditHours.Http

open Json

/-- What a session says of its client and of the documents it takes, and how often and when it would
send a request again. -/
structure Session where
  agent : String
  accepted : String
  retries : Value
  backoff : Value
  retriedStatuses : List Nat
  retriedMethods : List String

structure Request where
  session : Session
  url : String
  params : Fields
  timeout : Value

structure TransportError where
  kind : String
  text : String
  deriving DecidableEq, Repr

inductive FetchFault where
  | address (fault : AddressFault)
  | transport (error : TransportError)
  | body (error : ReadError)
  deriving DecidableEq

def FetchFault.message : FetchFault → String
  | .address fault => fault.message
  | .transport error => error.text
  | .body error => error.message

/-- An answer and the address that it came from. -/
structure Answer where
  url : String
  status : Int
  reason : String
  body : String
  deriving DecidableEq, Repr

def Answer.statusError? (answer : Answer) : Option TransportError :=
  let status := Number.intText answer.status
  let text := fun side => s!"{status} {side} Error: {answer.reason} for url: {answer.url}"
  if 400 ≤ answer.status ∧ answer.status < 500 then some ⟨"HTTPError", text "Client"⟩
  else if 500 ≤ answer.status ∧ answer.status < 600 then some ⟨"HTTPError", text "Server"⟩
  else none

/-- The document in the body of an answer; a byte order mark in front of it is skipped. -/
def bodyDocument (body : String) : Except ReadError Value :=
  match body.toList with
  | c :: rest => if c.toNat = 0xfeff then read (String.ofList rest) else read body
  | [] => read body

/-- The document that an answer holds, unless its status denotes an error. -/
def Answer.document (answer : Answer) : Except FetchFault Value :=
  match answer.statusError? with
  | some error => .error (.transport error)
  | none => (bodyDocument answer.body).mapError .body

inductive Reply where
  | fails (error : TransportError)
  | interrupted
  | answer (answer : Answer)
  deriving DecidableEq, Repr

/-- The replies to the requests to come, in order; the last one is given from then on. -/
structure Network where
  replies : List Reply

/-- The reply to the next request. A network without replies cannot be reached. -/
def Network.next (network : Network) : Reply × Network :=
  match network.replies with
  | [] => (.fails ⟨"ConnectionError", "unreachable"⟩, network)
  | [reply] => (reply, network)
  | reply :: rest => (reply, ⟨rest⟩)

end AuditHours.Http
