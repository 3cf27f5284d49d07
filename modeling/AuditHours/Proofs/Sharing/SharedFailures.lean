import AuditHours.Proofs.Sharing.Engagement
import AuditHours.Proofs.Sharing.SingleFlight

/-!
Failures are shared, never stale and never stored. A search that raises leaves the cache alone, and
its flight is off the register before a call that waits on it can go on. Every call that joined the
flight ends with its error and never searches, and a call that comes after the flight has left the
register has to do with a later flight only.
-/
namespace AuditHours.Version.Sharing

open Json

variable {ε : Type} {s t s' : Sharing ε} {key other : String} {phase next : Phase ε} {move : Move ε}
  {events : List (Event ε)} {cache : Cache} {i j f g : Nat} {error : ε}

/-! Where errors come from. -/

/-- In a run the search of a call raises an error while it has the flight of its key. -/
def RaisedIn (first : Sharing ε) (events : List (Event ε)) (j : Nat) (key : String) (f : Nat)
    (error : ε) : Prop :=
  ∃ past future t, events = past ++ .move j (.raises error) :: future ∧
    first.run? past = some t ∧ t.callers[j]? = some ⟨key, .searching f⟩

/-- In a run a call waits on a flight at a moment when the flight is registered for its key. -/
def JoinedIn (first : Sharing ε) (events : List (Event ε)) (i : Nat) (key : String) (f : Nat) :
    Prop :=
  ∃ t, first.Passes events t ∧ t.callers[i]? = some ⟨key, .waiting f⟩ ∧
    field? t.registered key = some f

/-- The errors of flights were raised by searches, calls that wait have joined their flights while
these were registered, and the error of a call is that of its own search or of a flight that it has
joined. -/
structure Sourced (first : Sharing ε) (events : List (Event ε)) (s : Sharing ε) : Prop where
  flight : ∀ f key error, s.Fails key f error → ∃ j, RaisedIn first events j key f error
  waiter : ∀ i key f, s.callers[i]? = some ⟨key, .waiting f⟩ → JoinedIn first events i key f
  caller : ∀ i key phase error, s.callers[i]? = some ⟨key, phase⟩ → phase.error? = some error →
    ∃ j f, RaisedIn first events j key f error ∧ (j = i ∨ JoinedIn first events i key f)

theorem RaisedIn.append {first : Sharing ε} (h : RaisedIn first events j key f error)
    (more : List (Event ε)) : RaisedIn first (events ++ more) j key f error := by
  obtain ⟨past, future, t, rfl, hpast, hc⟩ := h
  exact ⟨past, future ++ more, t, by simp, hpast, hc⟩

theorem JoinedIn.append {first : Sharing ε} (h : JoinedIn first events i key f)
    (more : List (Event ε)) : JoinedIn first (events ++ more) i key f := by
  obtain ⟨t, hpasses, hc, hregistered⟩ := h
  exact ⟨t, hpasses.append more, hc, hregistered⟩

namespace Sourced

variable {first : Sharing ε} {past : List (Event ε)} {c : Caller ε}

theorem start (cache : Cache) : Sourced (start cache : Sharing ε) [] (start cache) := by
  constructor <;> simp [Sharing.start, Fails]

/-- A flight that fails after another one has landed failed before. -/
theorem fails_of_land {landed : Bool}
    (h : (s.setFlight g fun flight => { flight with landed := true }).flights[f]? =
      some ⟨key, landed, some error⟩) : s.Fails key f error := by
  obtain ⟨⟨oldKey, oldLanded, oldError⟩, hold, heq⟩ := flight_of_setFlight h
  split at heq <;> cases heq <;> exact ⟨_, hold⟩

/-- A flight that fails after a turn failed before, or its search has just raised the error. -/
theorem fails_origin (h : Turn s key phase move t next) (hc : s.Agrees key phase)
    (hfails : t.Fails other f error) :
    s.Fails other f error ∨ (other = key ∧ phase = .searching f ∧ move = .raises error) := by
  obtain ⟨landed, hflight⟩ := hfails
  cases h with
  | enroll hstored hregistered =>
    rcases getElem?_concat_cases hflight with hold | ⟨-, hnew⟩
    · exact Or.inl ⟨landed, hold⟩
    · simp at hnew
  | raises g raised =>
    obtain ⟨old, hold, heq⟩ := flight_of_setFlight hflight
    split at heq
    · next hg =>
      subst hg
      rw [hc.2.2] at hold
      cases hold
      cases heq
      exact Or.inr ⟨rfl, rfl, rfl⟩
    · rw [← heq] at hold
      exact Or.inl ⟨landed, hold⟩
  | landStored | landRemoved => exact Or.inl (fails_of_land hflight)
  | _ => exact Or.inl ⟨landed, hflight⟩

/-- A call that waits after its turn has just joined the registered flight of its key. -/
theorem registered_of_waiting (h : Turn s key phase move t (.waiting f)) :
    field? t.registered key = some f := by
  cases h with
  | join _ hstored hregistered => exact hregistered

/-- A call that has met an error after its turn had met it before, has just raised it, or has it
from the flight that it waited on. -/
theorem error_origin (h : Turn s key phase move t next) (hc : s.Agrees key phase)
    (herror : next.error? = some error) :
    phase.error? = some error ∨ (∃ f, phase = .searching f ∧ move = .raises error) ∨
      ∃ f, phase = .waiting f ∧ s.Fails key f error := by
  cases h with
  | hit value _ | landStored _ value =>
    cases value <;> simp [Phase.error?, Ending.ofEntry] at herror
  | raises f raised =>
    cases herror
    exact Or.inr (Or.inl ⟨f, rfl, rfl⟩)
  | remove | landRemoved => exact Or.inl herror
  | wakeFailed f flight raised hflight hlanded hraised =>
    cases herror
    obtain ⟨same, hsame, hkey⟩ := hc
    rw [hflight] at hsame
    cases hsame
    refine Or.inr (Or.inr ⟨f, rfl, flight.landed, ?_⟩)
    rw [hflight, ← hkey, ← hraised]
  | _ => simp [Phase.error?] at herror

theorem call (hs : Sourced first past s) (key : String) :
    Sourced first (past ++ [.call key]) (s.call key) := by
  constructor
  · intro f other error hfails
    obtain ⟨j, hraised⟩ := hs.flight f other error hfails
    exact ⟨j, hraised.append _⟩
  · intro i other f hc
    rcases caller_of_call hc with hnew | hold
    · simp at hnew
    · exact (hs.waiter i other f hold).append _
  · intro i other phase error hc herror
    rcases caller_of_call hc with hnew | hold
    · cases hnew
      simp [Phase.error?] at herror
    · obtain ⟨j, f, hraised, hown⟩ := hs.caller i other phase error hold herror
      exact ⟨j, f, hraised.append _, hown.imp_right fun hjoined => hjoined.append _⟩

theorem turn (hs : Sourced first past s) (hcoherent : Coherent s) (hpast : first.run? past = some s)
    (hc : s.callers[i]? = some ⟨key, phase⟩) (h : Turn s key phase move t next) :
    Sourced first (past ++ [.move i move]) (t.setPhase i next) := by
  have hagrees := hcoherent.agrees i _ hc
  have ht : t.callers[i]? = some ⟨key, phase⟩ := by rw [h.callers_eq, hc]
  have hstep : s.step i move = some (t.setPhase i next) := step_of_turn hc h
  have hhere : ∀ {error f}, phase = .searching f → move = .raises error →
      RaisedIn first (past ++ [.move i move]) i key f error := by
    rintro error f rfl rfl
    exact ⟨past, [], s, rfl, hpast, hc⟩
  constructor
  · intro f other error hfails
    rcases fails_origin h hagrees hfails with hold | ⟨rfl, hphase, hmove⟩
    · obtain ⟨j, hraised⟩ := hs.flight f other error hold
      exact ⟨j, hraised.append _⟩
    · exact ⟨i, hhere hphase hmove⟩
  · intro j other f hd
    rcases caller_of_setPhase ht hd with ⟨rfl, heq⟩ | ⟨-, hold⟩
    · cases heq
      have hregistered : field? t.registered key = some f := registered_of_waiting h
      refine ⟨t.setPhase j (.waiting f), ⟨_, [], (List.append_nil _).symm, ?_⟩, hd, hregistered⟩
      rw [run?_append, hpast]
      simp [run?, after?, hstep]
    · rw [h.callers_eq] at hold
      exact (hs.waiter j other f hold).append _
  · intro j other phase' error hd herror
    rcases caller_of_setPhase ht hd with ⟨rfl, heq⟩ | ⟨-, hold⟩
    · cases heq
      rcases error_origin h hagrees herror with hold | ⟨f, hphase, hmove⟩ | ⟨f, hphase, hfails⟩
      · obtain ⟨k, f, hraised, hown⟩ := hs.caller j key phase error hc hold
        exact ⟨k, f, hraised.append _, hown.imp_right fun hjoined => hjoined.append _⟩
      · exact ⟨j, f, hhere hphase hmove, Or.inl rfl⟩
      · obtain ⟨k, hraised⟩ := hs.flight f key error hfails
        rw [hphase] at hc
        exact ⟨k, f, hraised.append _, Or.inr ((hs.waiter j key f hc).append _)⟩
    · rw [h.callers_eq] at hold
      obtain ⟨k, f, hraised, hown⟩ := hs.caller j other phase' error hold herror
      exact ⟨k, f, hraised.append _, hown.imp_right fun hjoined => hjoined.append _⟩

/-- Errors come from where they may come from in every state that a run leads to. -/
theorem run (hrun : (Sharing.start cache).run? events = some s) :
    Sourced (Sharing.start cache) events s := by
  refine run_induction (Sourced.start cache) ?_ hrun
  intro past event u u' hpast hu h
  cases event with
  | call key =>
    cases h
    exact hu.call key
  | move j move =>
    obtain ⟨c, t, next, hc, hturn, rfl⟩ := turn_of_step h
    exact hu.turn ((Coherent.start cache).run hpast) hpast hc hturn

end Sourced

/-! Later flights for a key. -/

def LastRegistered (s : Sharing ε) : Prop :=
  ∀ (key : String) (f g : Nat) (flight : Flight ε), field? s.registered key = some g →
    s.flights[f]? = some flight → flight.key = key → f ≤ g

/-- A flight after a turn is an old flight for the same key, or the call has just opened it. -/
theorem Turn.flight_origin (h : Turn s key phase move t next) {flight : Flight ε}
    (hflight : t.flights[f]? = some flight) :
    (∃ old, s.flights[f]? = some old ∧ old.key = flight.key) ∨
      (flight.key = key ∧ f = s.flights.length ∧ next = .owning f) := by
  cases h with
  | enroll hstored hregistered =>
    rcases getElem?_concat_cases hflight with hold | ⟨rfl, rfl⟩
    · exact Or.inl ⟨flight, hold, rfl⟩
    · exact Or.inr ⟨rfl, rfl, rfl⟩
  | raises | landStored | landRemoved =>
    obtain ⟨old, hold, rfl⟩ := flight_of_setFlight hflight
    exact Or.inl ⟨old, hold, by split <;> rfl⟩
  | _ => exact Or.inl ⟨flight, hflight, rfl⟩

/-- A registered flight after a turn was registered before or is a new one of a key that had none.
-/
theorem Turn.registered_new (h : Turn s key phase move t next) (hc : s.Agrees key phase)
    (hregistered : field? t.registered other = some g) :
    field? s.registered other = some g ∨
      (g = s.flights.length ∧ field? s.registered other = none) := by
  rcases h.registered_origin hregistered with hold | ⟨rfl, hnext⟩
  · exact Or.inl hold
  · cases h with
    | enroll hstored hnone => exact Or.inr ⟨(Option.some.inj hnext).symm, hnone⟩
    | search | returns => exact Or.inl (hc.registered hnext).1
    | raises f raised =>
      have hphase : (Phase.searching f : Phase ε).registered? = some g := hnext
      exact Or.inl (hc.registered hphase).1
    | _ => simp [Phase.registered?] at hnext

theorem LastRegistered.event (hlast : LastRegistered s) (hs : Coherent s) {event : Event ε}
    (h : s.after? event = some s') : LastRegistered s' := by
  cases event with
  | call other =>
    cases h
    exact hlast
  | move i move =>
    obtain ⟨c, t, next, hc, hturn, rfl⟩ := turn_of_step h
    intro key f g flight hregistered hflight hkey
    rcases hturn.registered_new (hs.agrees i c hc) hregistered with hold | ⟨rfl, hnone⟩
    · rcases hturn.flight_origin hflight with ⟨old, holdFlight, hsame⟩ | ⟨hnew, -, rfl⟩
      · exact hlast key f g old hold holdFlight (hsame.trans hkey)
      · -- Only a call that finds no registered flight opens a new one.
        cases hphase : c.phase <;> rw [hphase] at hturn <;> cases hturn
        next hstored hnone =>
          rw [← hnew, hkey, hold] at hnone
          simp at hnone
    · rcases hturn.flight_origin hflight with ⟨old, holdFlight, -⟩ | ⟨-, rfl, -⟩
      · exact Nat.le_of_lt (List.getElem?_eq_some_iff.mp holdFlight).1
      · exact Nat.le_refl _

theorem LastRegistered.run (hrun : (start cache : Sharing ε).run? events = some s) :
    LastRegistered s := by
  refine (Coherent.start cache).kept_by_run (fun t t' event ht hlast h => hlast.event ht h) ?_ hrun
  intro key f g flight hregistered
  simp [start, field?] at hregistered

/-- What the calls of a run have to do with the errors of searches. -/
structure SharesFailures (cache : Cache) (events : List (Event ε)) (s : Sharing ε) : Prop where
  nothing_stored : ∀ (i : Nat) (c : Caller ε) (move : Move ε) (after : Sharing ε),
    s.callers[i]? = some c → s.step i move = some after →
      ((∃ error, move = .raises error) ∨ ∃ error, c.phase.error? = some error) →
        after.cache = s.cache
  /-- The flight of a search that raised is registered until the next step of its call takes it off
  the register, and it has not landed then. -/
  removed_first : ∀ (i : Nat) (key : String) (f : Nat) (error : ε),
    s.callers[i]? = some ⟨key, .raised f error⟩ → field? s.registered key = some f ∧
      ∃ after, s.step i .proceed = some after ∧ field? after.registered key = none ∧
        after.flights[f]? = some ⟨key, false, some error⟩
  released_later : ∀ (i : Nat) (key : String) (f : Nat) (move : Move ε) (after : Sharing ε),
    s.callers[i]? = some ⟨key, .waiting f⟩ → s.step i move = some after →
      field? s.registered key ≠ some f
  /-- The error of a call was raised by the search of a call that has a flight for the same key;
  this is the call itself, or it has joined the flight while that was registered. -/
  error_source : ∀ (i : Nat) (key : String) (error : ε),
    s.callers[i]? = some ⟨key, .finished (.failed error)⟩ →
      ∃ j f, RaisedIn (start cache) events j key f error ∧
        (j = i ∨ JoinedIn (start cache) events i key f)
  waiter_fails : ∀ (t : Sharing ε) (i : Nat) (key : String) (f : Nat) (error : ε),
    (start cache).Passes events t → t.callers[i]? = some ⟨key, .waiting f⟩ → s.Fails key f error →
      s.callers[i]? = some ⟨key, .waiting f⟩ ∨
        s.callers[i]? = some ⟨key, .finished (.failed error)⟩
  waiter_idle : ∀ (t u : Sharing ε) (i : Nat) (key : String) (f g : Nat),
    (start cache).Passes events t → (start cache).Passes events u →
      t.callers[i]? = some ⟨key, .waiting f⟩ → u.callers[i]? ≠ some ⟨key, .searching g⟩
  waiter_wakes : ∀ (i : Nat) (key : String) (f : Nat) (error : ε),
    s.callers[i]? = some ⟨key, .waiting f⟩ → s.flights[f]? = some ⟨key, true, some error⟩ →
      ∃ after, s.step i .proceed = some after ∧
        after.callers[i]? = some ⟨key, .finished (.failed error)⟩
  /-- A call that looks when a flight for its key has failed and left the register, and the key is
  not stored, joins or opens a later flight; if it ends with an error, it is the error of that. -/
  latecomer_fresh : ∀ (i : Nat) (key : String) (f : Nat) (error : ε),
    s.callers[i]? = some ⟨key, .arriving⟩ → s.cache.find? key = none → s.Fails key f error →
    field? s.registered key ≠ some f →
      ∃ after g, s.step i .proceed = some after ∧ f < g ∧ field? after.registered key = some g ∧
        (after.callers[i]? = some ⟨key, .waiting g⟩ ∨ after.callers[i]? = some ⟨key, .owning g⟩) ∧
        ∀ (more : List (Event ε)) (later : Sharing ε) (error' : ε), after.run? more = some later →
          later.callers[i]? = some ⟨key, .finished (.failed error')⟩ → later.Fails key g error'

namespace Coherent

/-- Neither a search that raises nor a call that has met an error changes an entry. -/
theorem cache_of_failing {c : Caller ε} (hc : s.callers[i]? = some c)
    (h : s.step i move = some s')
    (hfailing : (∃ error, move = .raises error) ∨ ∃ error, c.phase.error? = some error) :
    s'.cache = s.cache := by
  obtain ⟨d, t, next, hd, hturn, rfl⟩ := turn_of_step h
  rw [hc] at hd
  cases hd
  obtain ⟨key, phase⟩ := c
  cases hturn with
  | store f value => simp [Phase.error?] at hfailing
  | _ => rfl

/-- A flight that has landed is not registered. -/
theorem unregistered_of_landed (hs : Coherent s) {flight : Flight ε}
    (hflight : s.flights[f]? = some flight) (hlanded : flight.landed = true) :
    field? s.registered key ≠ some f := by
  intro hregistered
  obtain ⟨j, d, hd, -, hphase⟩ := hs.registered key f hregistered
  obtain ⟨same, hsame, -, hair⟩ := (hs.agrees j d hd).opened (Phase.opened_of_registered hphase)
  rw [hflight] at hsame
  cases hsame
  simp [hair] at hlanded

/-- A call that waits takes a step only when its flight has landed. -/
theorem landed_of_step (hc : s.callers[i]? = some ⟨key, .waiting f⟩)
    (h : s.step i move = some s') :
    ∃ flight, s.flights[f]? = some flight ∧ flight.landed = true := by
  obtain ⟨d, t, next, hd, hturn, -⟩ := turn_of_step h
  rw [hc] at hd
  cases hd
  cases hturn with
  | wakeFailed _ flight error hflight hlanded herror => exact ⟨flight, hflight, hlanded⟩
  | wake _ flight hflight hlanded hnone => exact ⟨flight, hflight, hlanded⟩

/-- The next step of a call whose search raised takes its flight off the register. -/
theorem step_raised (hs : Coherent s) (hc : s.callers[i]? = some ⟨key, .raised f error⟩) :
    field? s.registered key = some f ∧
      ∃ after, s.step i .proceed = some after ∧ field? after.registered key = none ∧
        after.flights[f]? = some ⟨key, false, some error⟩ := by
  obtain ⟨hregistered, -, hflight⟩ := hs.agrees i _ hc
  refine ⟨hregistered, _, step_of_turn hc (.remove f error), by simp, hflight⟩

/-- A call that waits at some moment of a run searches at no moment of it. -/
theorem not_searching_of_waiting {first u : Sharing ε} (hfirst : Coherent first)
    (ht : first.Passes events t) (hu : first.Passes events u)
    (hc : t.callers[i]? = some ⟨key, .waiting f⟩) : u.callers[i]? ≠ some ⟨key, .searching g⟩ := by
  intro hsearching
  rcases ht.comparable hu with ⟨between, hrun⟩ | ⟨between, hrun⟩
  · obtain ⟨phase, hphase, hrest⟩ := (ht.coherent hfirst).waiter_run hc hrun
    rw [hsearching] at hphase
    cases hphase
    simp [Past] at hrest
  · obtain ⟨phase, hphase, hrest⟩ := (hu.coherent hfirst).owner_run hsearching rfl hrun
    rw [hc] at hphase
    cases hphase
    simp [Past, Phase.opened?] at hrest

/-- A call that looks after a flight for its key has failed and left the register joins or opens a
later one. -/
theorem step_latecomer (hlast : LastRegistered s)
    (hc : s.callers[i]? = some ⟨key, .arriving⟩) (hstored : s.cache.find? key = none)
    (hfails : s.Fails key f error) (hleft : field? s.registered key ≠ some f) :
    ∃ after g, s.step i .proceed = some after ∧ f < g ∧ field? after.registered key = some g ∧
      (after.callers[i]? = some ⟨key, .waiting g⟩ ∨ after.callers[i]? = some ⟨key, .owning g⟩) := by
  obtain ⟨landed, hflight⟩ := hfails
  cases hregistered : field? s.registered key with
  | some g =>
    have hle : f ≤ g := hlast key f g _ hregistered hflight rfl
    have hne : f ≠ g := by
      rintro rfl
      exact hleft hregistered
    exact ⟨_, g, step_of_turn hc (.join g hstored hregistered), by omega, hregistered,
      Or.inl (caller_setPhase_self _ hc)⟩
  | none =>
    have hlt := (List.getElem?_eq_some_iff.mp hflight).1
    refine ⟨_, s.flights.length, step_of_turn hc (.enroll hstored hregistered), hlt, ?_,
      Or.inr (caller_setPhase_self _ hc)⟩
    simp [setPhase, field?]

/-- A call that waits on a flight or owns it ends with no error but that of the flight. -/
theorem fails_of_failed (hs : Coherent s)
    (hc : s.callers[i]? = some ⟨key, .waiting g⟩ ∨ s.callers[i]? = some ⟨key, .owning g⟩)
    (hrun : s.run? events = some s')
    (hended : s'.callers[i]? = some ⟨key, .finished (.failed error)⟩) : s'.Fails key g error := by
  rcases hc with hwaiting | howning
  · exact (hs.waiter_run hwaiting hrun).fails_of_failed (by simp) hended
  · exact (hs.owner_run howning rfl hrun).fails_of_failed (by simp [Phase.opened?]) hended

end Coherent

/-- Calls that share a cache share the failures of searches, store none of them and are given no old
ones, in every state that a run leads to. -/
theorem failures_shared {cache : Cache} {events : List (Event ε)} {s : Sharing ε}
    (hrun : (start cache).run? events = some s) : SharesFailures cache events s := by
  have hs : Coherent s := (Coherent.start cache).run hrun
  have hsourced : Sourced (start cache) events s := Sourced.run hrun
  constructor
  · intro i c move after hc hstep hfailing
    exact Coherent.cache_of_failing hc hstep hfailing
  · intro i key f error hc
    exact hs.step_raised hc
  · intro i key f move after hc hstep
    obtain ⟨flight, hflight, hlanded⟩ := Coherent.landed_of_step hc hstep
    exact hs.unregistered_of_landed hflight hlanded
  · intro i key error hc
    exact hsourced.caller i key _ error hc rfl
  · intro t i key f error ht hc hfails
    obtain ⟨future, hfuture⟩ := ht.rest hrun
    exact ((ht.coherent (Coherent.start cache)).waiter_run hc hfuture).of_fails hfails
  · intro t u i key f g ht hu hc
    exact Coherent.not_searching_of_waiting (Coherent.start cache) ht hu hc
  · intro i key f error hc hflight
    refine ⟨_, step_of_turn hc (.wakeFailed f _ error hflight rfl rfl), ?_⟩
    exact caller_setPhase_self _ hc
  · intro i key f error hc hstored hfails hleft
    obtain ⟨after, g, hstep, hlt, hregistered, hphase⟩ :=
      Coherent.step_latecomer (LastRegistered.run hrun) hc hstored hfails hleft
    have hevent : s.after? (.move i .proceed) = some after := hstep
    refine ⟨after, g, hstep, hlt, hregistered, hphase, ?_⟩
    intro more later error' hmore hended
    exact (hs.event hevent).fails_of_failed hphase hmore hended

/-- A run in which a search fails while another call waits for it, a third call comes when the
flight has left the register but not yet landed and searches anew, and the waiter ends with the
first error while the second search still runs. -/
def overtakenRun : List (Event String) :=
  [.call "^0.8.0", .call "^0.8.0", .move 0 .proceed, .move 1 .proceed, .move 0 .proceed,
    .move 0 (.raises "unreachable"), .move 0 .proceed, .call "^0.8.0", .move 2 .proceed,
    .move 2 .proceed, .move 0 .proceed, .move 1 .proceed, .call "^0.8.0"]

theorem failures_shared_overtaken :
    ∃ s, (start .empty).run? overtakenRun = some s ∧
      s.callers.map (·.phase) = [.finished (.failed "unreachable"),
        .finished (.failed "unreachable"), .searching 1, .arriving] ∧
      SharesFailures .empty overtakenRun s :=
  ⟨_, rfl, rfl, @failures_shared String .empty overtakenRun _ rfl⟩

end AuditHours.Version.Sharing
