import AuditHours.Proofs.Stage
import AuditHours.Version.Resolver

/-!
What a search of the catalog comes to. A search sends one request if the address of the catalog is
allowed, and none otherwise. Its result is decided by the next reply of the network, and it leaves
the memory of constraints alone.
-/
namespace AuditHours

open Json Run

namespace Http

def Reply.found : Reply → Except Failure (Except FetchFault Value)
  | .fails error => .ok (.error (.transport error))
  | .interrupted => .error .interrupted
  | .answer given => .ok given.document

def fetched (reply : Reply) (url : String) : Except Failure (Except FetchFault Value) :=
  match checkAddress url with
  | .error fault => .ok (.error (.address fault))
  | .ok () => reply.found

def Client.requests (client : Client) (url : String) (params : Fields) : List Request :=
  match checkAddress url with
  | .error _ => []
  | .ok () => [⟨client.session, url, params, client.timeout⟩]

variable {client : Client} {url : String} {params : Fields}

@[simp]
theorem requests_of_allowed (h : checkAddress url = .ok ()) :
    client.requests url params = [⟨client.session, url, params, client.timeout⟩] := by
  simp [Client.requests, h]

theorem length_requests_le : (client.requests url params).length ≤ 1 := by
  unfold Client.requests
  split <;> simp

theorem requests_ne_nil : client.requests url params ≠ [] ↔ checkAddress url = .ok () := by
  unfold Client.requests
  cases checkAddress url <;> simp

/-- Fetching gives a document exactly if the address is allowed and the answer holds it. -/
theorem fetched_eq_document {reply : Reply} {document : Value} :
    fetched reply url = .ok (.ok document) ↔ checkAddress url = .ok () ∧
      ∃ answer, reply = .answer answer ∧ answer.document = .ok document := by
  unfold fetched
  cases checkAddress url with
  | error fault => simp
  | ok => cases reply <;> simp [Reply.found]

/-- Fetching ends the run only if it is interrupted. -/
theorem fetched_eq_error {reply : Reply} {failure : Failure} :
    fetched reply url = .error failure ↔
      checkAddress url = .ok () ∧ reply = .interrupted ∧ failure = .interrupted := by
  unfold fetched
  cases checkAddress url with
  | error fault => simp
  | ok => cases reply <;> simp [Reply.found, eq_comm]

theorem inWorld_send (request : Request) (world : World) :
    (send request).inWorld world = (world.network.next.1.found,
      { world with
        network := world.network.next.2
        actions := world.actions ++ [.get request] }) := by
  unfold send
  rw [inWorld_bind_ok (inWorld_act _ _), inWorld_bind_ok (inWorld_get _)]
  simp only
  rw [inWorld_bind_ok (inWorld_modify _ _)]
  cases world.network.next.1 <;> rfl

/-- Fetching sends its requests and changes nothing else but the network and the log. -/
theorem inWorld_fetch (client : Client) (url : String) (params : Fields) (world : World) :
    ∃ network records, (client.fetch url params).inWorld world =
      (fetched world.network.next.1 url,
        { world with
          network, records
          actions := world.actions ++ (client.requests url params).map .get }) := by
  unfold Client.fetch fetched Client.requests
  cases checkAddress url with
  | error fault =>
    refine ⟨world.network, world.records, ?_⟩
    simp
  | ok =>
    simp only
    rw [inWorld_bind_ok (inWorld_log _ _ _ _)]
    generalize world.records ++ _ = logged
    have hsend := inWorld_send ⟨client.session, url, params, client.timeout⟩
      { world with records := logged }
    cases hfound : world.network.next.1.found with
    | error failure =>
      simp only [hfound] at hsend
      exact ⟨_, _, inWorld_bind_error hsend⟩
    | ok result =>
      simp only [hfound] at hsend
      rw [inWorld_bind_ok hsend]
      cases result with
      | ok document => exact ⟨_, _, rfl⟩
      | error fault =>
        cases fault with
        | transport error => exact ⟨_, _, rfl⟩
        | address fault | body error => exact ⟨_, _, rfl⟩

end Http

namespace Version.Resolver

variable {constraint : String}

def requests (resolver : Resolver) : List Http.Request := resolver.client.requests resolver.url []

def listed (resolver : Resolver) (reply : Http.Reply) : Except Failure Fields :=
  match Http.fetched reply resolver.url with
  | .error failure => .error failure
  | .ok (.error fault) => .error (.catalog resolver.url (.fetch fault))
  | .ok (.ok document) =>
    match releasesOf? document with
    | some releases => .ok releases
    | none => .error (.catalog resolver.url .noReleases)

def chosen (releases : Fields) (constraint : String) : Except Failure (Option Build) :=
  if (entryFor releases constraint).isEmpty then .ok none
  else match entryFor releases constraint with
    | .str fileName => .ok (some (Build.ofFileName fileName))
    | _ => .error (.shape .noFields)

def searched (resolver : Resolver) (reply : Http.Reply) (constraint : String) :
    Except Failure (Option Build) :=
  match resolver.listed reply with
  | .error failure => .error failure
  | .ok releases => chosen releases constraint

theorem inWorld_releases (resolver : Resolver) (world : World) :
    ∃ network records, resolver.releases.inWorld world =
      (resolver.listed world.network.next.1,
        { world with
          network, records
          actions := world.actions ++ resolver.requests.map .get }) := by
  unfold releases listed
  rw [inWorld_bind_ok (inWorld_log _ _ _ _)]
  generalize world.records ++ _ = logged
  obtain ⟨network, records, hfetch⟩ :=
    Http.inWorld_fetch resolver.client resolver.url [] { world with records := logged }
  refine ⟨network, records, ?_⟩
  cases hfetched : Http.fetched world.network.next.1 resolver.url with
  | error failure =>
    simp only [hfetched] at hfetch
    exact inWorld_bind_error hfetch
  | ok result =>
    simp only [hfetched] at hfetch
    rw [inWorld_bind_ok hfetch]
    cases result with
    | error fault => rfl
    | ok document =>
      simp only
      cases releasesOf? document <;> rfl

/-- A search sends its requests and leaves the memory of constraints alone. -/
theorem inWorld_search (resolver : Resolver) (constraint : String) (world : World) :
    ∃ network records, (resolver.search constraint).inWorld world =
      (resolver.searched world.network.next.1 constraint,
        { world with
          network, records
          actions := world.actions ++ resolver.requests.map .get }) := by
  unfold search searched
  rw [inWorld_bind_ok (inWorld_log _ _ _ _)]
  generalize world.records ++ _ = logged
  obtain ⟨network, records, hreleases⟩ :=
    resolver.inWorld_releases { world with records := logged }
  cases hlisted : resolver.listed world.network.next.1 with
  | error failure =>
    simp only [hlisted] at hreleases
    exact ⟨network, records, inWorld_bind_error hreleases⟩
  | ok releases =>
    simp only [hlisted] at hreleases
    rw [inWorld_bind_ok hreleases]
    simp only [chosen]
    split
    · exact ⟨_, _, rfl⟩
    · cases entryFor releases constraint with
      | str fileName => exact ⟨_, _, rfl⟩
      | null | bool | int | real | arr | obj => exact ⟨_, _, rfl⟩

/-- Where no releases are listed the catalog cannot be loaded, or its fetching is interrupted. -/
theorem listed_eq_error {resolver : Resolver} {reply : Http.Reply} {failure : Failure}
    (h : resolver.listed reply = .error failure) :
    (∃ cause, failure = .catalog resolver.url cause) ∨
      Http.checkAddress resolver.url = .ok () ∧ reply = .interrupted ∧ failure = .interrupted := by
  unfold listed at h
  split at h
  · next hfetched =>
    obtain rfl := Except.error.inj h
    exact Or.inr (Http.fetched_eq_error.mp hfetched)
  · exact Or.inl ⟨_, (Except.error.inj h).symm⟩
  · split at h
    · simp at h
    · exact Or.inl ⟨_, (Except.error.inj h).symm⟩

theorem searched_ne_noRelease {resolver : Resolver} {reply : Http.Reply} {other : String} :
    resolver.searched reply constraint ≠ .error (.noRelease other) := by
  unfold searched
  cases hlisted : resolver.listed reply with
  | error failure =>
    obtain ⟨cause, rfl⟩ | ⟨-, -, rfl⟩ := listed_eq_error hlisted <;> simp
  | ok releases =>
    simp only [chosen]
    split
    · simp
    · split <;> simp

end Version.Resolver

end AuditHours
