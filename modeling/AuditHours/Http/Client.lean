import AuditHours.World

/-!
The client that fetches documents. Every request carries the client's timeout, which must be a
positive number; a request is sent once, because transport errors are not retried unless asked for.
An address that is not allowed sends no request. What a request comes back with is read as a
document whatever its status says, unless the status denotes an error.
-/
namespace AuditHours.Http

open Json

def logger : String := Log.loggerName "http"

structure Client where
  timeout : Value
  session : Session

inductive ClientFault where
  | timeout
  | retries
  | unknownOption
  deriving DecidableEq, Repr

def ClientFault.message : ClientFault → String
  | .timeout => "timeout must be a positive number of seconds"
  | .retries => "max_retries must be a non-negative integer"
  | .unknownOption => "unexpected option"

/-- Whether a value is a number above zero; a number that is none passes. -/
def isTimeout : Value → Bool
  | .bool b => b
  | .int n => 0 < n
  | .real x => !(x ≤ 0)
  | _ => false

def isRetryCount : Value → Bool
  | .bool _ => true
  | .int n => 0 ≤ n
  | _ => false

def Session.ofRetries (retries backoff : Value) : Session where
  agent := "AuditScope"
  accepted := "application/json"
  retries := retries
  backoff := backoff
  retriedStatuses := [429, 500, 502, 503, 504]
  retriedMethods := ["GET"]

namespace Client

def standard : Client := ⟨.int 10, .ofRetries (.int 0) (.real 0.5)⟩

def ofOptions (options : Fields) : Except ClientFault Client :=
  let names := ["timeout", "max_retries", "backoff_factor"]
  let timeout := (field? options "timeout").getD standard.timeout
  let retries := (field? options "max_retries").getD standard.session.retries
  let backoff := (field? options "backoff_factor").getD standard.session.backoff
  if options.any fun (name, _) => !names.contains name then .error .unknownOption
  else if !isTimeout timeout then .error .timeout
  else if !isRetryCount retries then .error .retries
  else .ok ⟨timeout, .ofRetries retries backoff⟩

end Client

def send (request : Request) : Run (Except FetchFault Value) := do
  Run.act (.get request)
  let (reply, network) := (← get).network.next
  modify fun w => { w with network }
  match reply with
  | .fails error => return .error (.transport error)
  | .interrupted => throw .interrupted
  | .answer answer => return answer.document

def Client.fetch (client : Client) (url : String) (params : Fields) :
    Run (Except FetchFault Value) := do
  match checkAddress url with
  | .error fault => return .error (.address fault)
  | .ok () =>
    Run.log .debug logger s!"Sending GET request to {url}"
    let result ← send ⟨client.session, url, params, client.timeout⟩
    match result with
    | .error (.transport error) => Run.log .error logger s!"Request failed: {error.text}"
    | _ => pure ()
    return result

end AuditHours.Http
