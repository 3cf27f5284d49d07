import AuditHours.Version.Sharing
import Mathlib.Data.List.Induction

/-!
Runs of calls that share a cache. A run is a list of events, each a new call or a step of a call
that has arrived, so a statement about all runs is one about all orders of the atomic steps. What a
step can do is said once, by the turns of a call: each changes the shared data in one of four ways
and then the phase of its own call.
-/
namespace AuditHours.Version

open Json

/-- Something that happens among calls: a new call, or a step of one that has arrived. -/
inductive Event (ε : Type) where
  | call (key : String)
  | move (caller : Nat) (move : Move ε)

variable {ε : Type}

def Phase.opened? : Phase ε → Option Nat
  | .owning f | .searching f | .returned f _ | .raised f _ | .stored f _ | .removed f _ => some f
  | _ => none

/-- The flight that a call has put on the register and not yet taken off. -/
def Phase.registered? : Phase ε → Option Nat
  | .owning f | .searching f | .returned f _ | .raised f _ => some f
  | _ => none

theorem Phase.opened_of_registered {phase : Phase ε} {f : Nat} (h : phase.registered? = some f) :
    phase.opened? = some f := by
  cases phase <;> simp_all [registered?, opened?]

namespace Sharing

def after? (s : Sharing ε) : Event ε → Option (Sharing ε)
  | .call key => some (s.call key)
  | .move i move => s.step i move

def run? (s : Sharing ε) : List (Event ε) → Option (Sharing ε)
  | [] => some s
  | event :: rest => (s.after? event).bind fun s => s.run? rest

/-- What every event keeps, every run keeps. -/
theorem run_keeps {P : Sharing ε → Prop} {events : List (Event ε)} {s s' : Sharing ε}
    (hkeep : ∀ event ∈ events, ∀ t t', P t → t.after? event = some t' → P t')
    (hs : P s) (hrun : s.run? events = some s') : P s' := by
  induction events generalizing s with
  | nil =>
    cases hrun
    exact hs
  | cons event rest ih =>
    obtain ⟨t, ht, hrest⟩ := Option.bind_eq_some_iff.mp hrun
    have hnext : P t := hkeep event (List.mem_cons_self ..) s t hs ht
    exact ih (fun e he => hkeep e (List.mem_cons_of_mem _ he)) hnext hrest

theorem run?_append (s : Sharing ε) (past future : List (Event ε)) :
    s.run? (past ++ future) = (s.run? past).bind fun m => m.run? future := by
  induction past generalizing s with
  | nil => rfl
  | cons event rest ih =>
    simp only [List.cons_append, run?]
    cases s.after? event with
    | none => rfl
    | some t => exact ih t

/-- What holds at the start and is kept by every event, whatever its past, holds after every run. -/
theorem run_induction {P : List (Event ε) → Sharing ε → Prop} {s s' : Sharing ε} (hstart : P [] s)
    (hevent : ∀ past event t t', s.run? past = some t → P past t → t.after? event = some t' →
      P (past ++ [event]) t')
    {events : List (Event ε)} (hrun : s.run? events = some s') : P events s' := by
  induction events using List.reverseRecOn generalizing s' with
  | nil =>
    cases hrun
    exact hstart
  | append_singleton past event ih =>
    rw [run?_append] at hrun
    obtain ⟨t, ht, hlast⟩ := Option.bind_eq_some_iff.mp hrun
    obtain ⟨t', ht', hnil⟩ := Option.bind_eq_some_iff.mp hlast
    cases hnil
    exact hevent past event t _ ht (ih ht) ht'

def Passes (s : Sharing ε) (events : List (Event ε)) (t : Sharing ε) : Prop :=
  ∃ past future, events = past ++ future ∧ s.run? past = some t

/-- A run goes on from each state that it passes. -/
theorem Passes.rest {s s' t : Sharing ε} {events : List (Event ε)} (ht : s.Passes events t)
    (hrun : s.run? events = some s') : ∃ future, t.run? future = some s' := by
  obtain ⟨past, future, rfl, hpast⟩ := ht
  rw [run?_append, hpast] at hrun
  exact ⟨future, hrun⟩

/-- Of two states that a run passes one leads to the other. -/
theorem Passes.comparable {s t u : Sharing ε} {events : List (Event ε)} (ht : s.Passes events t)
    (hu : s.Passes events u) :
    (∃ between, t.run? between = some u) ∨ ∃ between, u.run? between = some t := by
  obtain ⟨past, future, rfl, hpast⟩ := ht
  obtain ⟨past', future', heq, hpast'⟩ := hu
  rcases List.append_eq_append_iff.mp heq with ⟨between, rfl, -⟩ | ⟨between, rfl, -⟩
  · rw [run?_append, hpast] at hpast'
    exact Or.inl ⟨between, hpast'⟩
  · rw [run?_append, hpast'] at hpast
    exact Or.inr ⟨between, hpast⟩

/-- A state that the first events of a run pass is passed by the run. -/
theorem Passes.append {s t : Sharing ε} {events : List (Event ε)} (ht : s.Passes events t)
    (more : List (Event ε)) : s.Passes (events ++ more) t := by
  obtain ⟨past, future, rfl, hpast⟩ := ht
  exact ⟨past, future ++ more, List.append_assoc .., hpast⟩

/-- The turns of a call for a key: from its phase and move to the shared data and the phase that
follow. The calls themselves are not touched by the shared data. -/
inductive Turn (s : Sharing ε) (key : String) :
    Phase ε → Move ε → Sharing ε → Phase ε → Prop
  | hit (value : Option Build) (hstored : s.cache.find? key = some value) :
      Turn s key .arriving .proceed { s with hits := s.hits ++ [key] } (.finished (.ofEntry value))
  | join (f : Nat) (hstored : s.cache.find? key = none)
      (hregistered : field? s.registered key = some f) :
      Turn s key .arriving .proceed s (.waiting f)
  | enroll (hstored : s.cache.find? key = none) (hregistered : field? s.registered key = none) :
      Turn s key .arriving .proceed
        { s with
          registered := (key, s.flights.length) :: s.registered
          flights := s.flights ++ [⟨key, false, none⟩] }
        (.owning s.flights.length)
  | search (f : Nat) :
      Turn s key (.owning f) .proceed { s with searches := s.searches ++ [key] } (.searching f)
  | returns (f : Nat) (value : Option Build) :
      Turn s key (.searching f) (.returns value) s (.returned f value)
  | raises (f : Nat) (error : ε) :
      Turn s key (.searching f) (.raises error)
        (s.setFlight f fun flight => { flight with error? := some error }) (.raised f error)
  | store (f : Nat) (value : Option Build) :
      Turn s key (.returned f value) .proceed
        ({ s with cache := s.cache.store key value }.unregister key) (.stored f value)
  | remove (f : Nat) (error : ε) :
      Turn s key (.raised f error) .proceed (s.unregister key) (.removed f error)
  | landStored (f : Nat) (value : Option Build) :
      Turn s key (.stored f value) .proceed
        (s.setFlight f fun flight => { flight with landed := true }) (.finished (.ofEntry value))
  | landRemoved (f : Nat) (error : ε) :
      Turn s key (.removed f error) .proceed
        (s.setFlight f fun flight => { flight with landed := true }) (.finished (.failed error))
  | wakeFailed (f : Nat) (flight : Flight ε) (error : ε) (hflight : s.flights[f]? = some flight)
      (hlanded : flight.landed = true) (herror : flight.error? = some error) :
      Turn s key (.waiting f) .proceed s (.finished (.failed error))
  | wake (f : Nat) (flight : Flight ε) (hflight : s.flights[f]? = some flight)
      (hlanded : flight.landed = true) (herror : flight.error? = none) :
      Turn s key (.waiting f) .proceed s .arriving

/-- A step is a turn of the call that takes it, followed by its change of phase. -/
theorem turn_of_step {s s' : Sharing ε} {i : Nat} {move : Move ε} (h : s.step i move = some s') :
    ∃ c t phase, s.callers[i]? = some c ∧ Turn s c.key c.phase move t phase ∧
      s' = t.setPhase i phase := by
  obtain ⟨c, hc, hstep⟩ := Option.bind_eq_some_iff.mp h
  obtain ⟨key, phase⟩ := c
  refine ⟨⟨key, phase⟩, ?_⟩
  cases phase with
  | arriving =>
    cases move with
    | proceed =>
      have hs' : s.enter i key = s' := Option.some.inj hstep
      unfold enter at hs'
      cases hstored : s.cache.find? key with
      | some value =>
        simp only [hstored] at hs'
        exact ⟨_, _, hc, .hit value hstored, hs'.symm⟩
      | none =>
        cases hregistered : field? s.registered key with
        | some f =>
          simp only [hstored, hregistered] at hs'
          exact ⟨_, _, hc, .join f hstored hregistered, hs'.symm⟩
        | none =>
          simp only [hstored, hregistered] at hs'
          exact ⟨_, _, hc, .enroll hstored hregistered, hs'.symm⟩
    | _ => simp at hstep
  | waiting f =>
    cases move with
    | proceed =>
      obtain ⟨flight, hflight, hland⟩ := Option.bind_eq_some_iff.mp hstep
      split at hland
      · next hlanded =>
        split at hland
        · next error herror =>
          exact ⟨_, _, hc, .wakeFailed f flight error hflight hlanded herror,
            (Option.some.inj hland).symm⟩
        · next herror =>
          exact ⟨_, _, hc, .wake f flight hflight hlanded herror, (Option.some.inj hland).symm⟩
      · simp at hland
    | _ => simp at hstep
  | owning f =>
    cases move with
    | proceed => exact ⟨_, _, hc, .search f, (Option.some.inj hstep).symm⟩
    | _ => simp at hstep
  | searching f =>
    cases move with
    | proceed => simp at hstep
    | returns value => exact ⟨_, _, hc, .returns f value, (Option.some.inj hstep).symm⟩
    | raises error => exact ⟨_, _, hc, .raises f error, (Option.some.inj hstep).symm⟩
  | returned f value =>
    cases move with
    | proceed => exact ⟨_, _, hc, .store f value, (Option.some.inj hstep).symm⟩
    | _ => simp at hstep
  | raised f error =>
    cases move with
    | proceed => exact ⟨_, _, hc, .remove f error, (Option.some.inj hstep).symm⟩
    | _ => simp at hstep
  | stored f value =>
    cases move with
    | proceed => exact ⟨_, _, hc, .landStored f value, (Option.some.inj hstep).symm⟩
    | _ => simp at hstep
  | removed f error =>
    cases move with
    | proceed => exact ⟨_, _, hc, .landRemoved f error, (Option.some.inj hstep).symm⟩
    | _ => simp at hstep
  | finished ending => cases move <;> simp at hstep

/-- A call can take every step that is a turn of it. -/
theorem step_of_turn {s t : Sharing ε} {i : Nat} {c : Caller ε} {move : Move ε} {next : Phase ε}
    (hc : s.callers[i]? = some c) (h : Turn s c.key c.phase move t next) :
    s.step i move = some (t.setPhase i next) := by
  obtain ⟨key, phase⟩ := c
  cases h with
  | hit value hstored => simp [step, hc, enter, hstored]
  | join _ hstored hregistered | enroll hstored hregistered =>
    simp [step, hc, enter, hstored, hregistered]
  | wakeFailed f flight error hflight hlanded herror =>
    simp [step, hc, hflight, hlanded, herror]
  | wake f flight hflight hlanded herror => simp [step, hc, hflight, hlanded, herror]
  | _ => simp [step, hc]

end Sharing

end AuditHours.Version
