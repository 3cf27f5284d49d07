import AuditHours.Proofs.Sharing.Coherence

/-!
Calls and the flights that they have to do with. A flight that has failed keeps its error and one
that has landed stays as it is. So a call that waits on a flight, or has it open, does so until it
gets past the flight: it ends with the error of the flight, or with the entry that the flight left.
-/
namespace AuditHours.Version.Sharing

open Json

variable {ε : Type}

def Fails (s : Sharing ε) (key : String) (f : Nat) (error : ε) : Prop :=
  ∃ landed, s.flights[f]? = some ⟨key, landed, some error⟩

def Succeeds (s : Sharing ε) (key : String) (f : Nat) : Prop :=
  s.flights[f]? = some ⟨key, true, none⟩

/-- A call in a phase is past a flight for its key: it has ended with the error of the flight, or
the flight has landed without one and the call has ended with an entry or is about to. -/
def Past (s : Sharing ε) (key : String) (f : Nat) (phase : Phase ε) : Prop :=
  (∃ error, s.Fails key f error ∧ phase = .finished (.failed error)) ∨
    (s.Succeeds key f ∧ (phase = .arriving ∨ ∃ value, phase = .finished (.ofEntry value)))

/-- A call for a key has to do with one flight: it is in a phase that the flight holds it in, or is
past the flight. -/
def Engaged (s : Sharing ε) (i : Nat) (key : String) (f : Nat) (held : Phase ε → Prop) : Prop :=
  ∃ phase, s.callers[i]? = some ⟨key, phase⟩ ∧ (held phase ∨ s.Past key f phase)

variable {s t s' : Sharing ε} {key other : String} {phase next : Phase ε} {move : Move ε}
  {events : List (Event ε)} {cache : Cache} {i j f g : Nat} {error : ε}

theorem Fails.unique {error' : ε} (h : s.Fails key f error) (h' : s.Fails other f error') :
    error = error' := by
  obtain ⟨landed, hflight⟩ := h
  obtain ⟨landed', hflight'⟩ := h'
  rw [hflight] at hflight'
  cases hflight'
  rfl

theorem Fails.not_succeeds (h : s.Fails key f error) : ¬ s.Succeeds key f := by
  obtain ⟨landed, hflight⟩ := h
  intro hsucceeds
  rw [Succeeds, hflight] at hsucceeds
  simp at hsucceeds

/-! What a turn leaves of a flight. -/

namespace Turn

/-- A flight that has landed stays as it is. -/
theorem landed_kept (h : Turn s key phase move t next) (hc : s.Agrees key phase)
    {flight : Flight ε} (hflight : s.flights[f]? = some flight) (hlanded : flight.landed = true) :
    t.flights[f]? = some flight := by
  refine h.flight_of_ne hflight fun hopen => ?_
  obtain ⟨same, hsame, -, hair⟩ := hc.opened hopen
  rw [hflight] at hsame
  cases hsame
  simp [hair] at hlanded

/-- A flight keeps its error. -/
theorem fails_kept (h : Turn s key phase move t next) (hc : s.Agrees key phase)
    (hfails : s.Fails other f error) : t.Fails other f error := by
  obtain ⟨landed, hflight⟩ := hfails
  by_cases hopen : phase.opened? = some f
  · cases h with
    | raises g raised =>
      cases hopen
      have hnone := hflight.symm.trans hc.2.2
      simp at hnone
    | landStored g _ | landRemoved g _ =>
      cases hopen
      exact ⟨true, flight_setFlight_self _ hflight⟩
    | enroll hstored hregistered => simp [Phase.opened?] at hopen
    | _ => exact ⟨landed, hflight⟩
  · exact ⟨landed, h.flight_of_ne hflight hopen⟩

/-- A call that is past a flight stays so, whoever takes the turn. -/
theorem past_kept (h : Turn s key phase move t next) (hc : s.Agrees key phase)
    {phase' : Phase ε} (hpast : s.Past other f phase') : t.Past other f phase' := by
  rcases hpast with ⟨error, hfails, hended⟩ | ⟨hsucceeds, hserved⟩
  · exact Or.inl ⟨error, h.fails_kept hc hfails, hended⟩
  · exact Or.inr ⟨h.landed_kept hc hsucceeds rfl, hserved⟩

/-- A call that is past a flight stays so in its own turns: when it looks again, its key is
stored. -/
theorem past_next (h : Turn s key phase move t next) (hs : Coherent s) (hc : s.Agrees key phase)
    (hpast : s.Past key f phase) : t.Past key f next := by
  rcases hpast with ⟨error, -, rfl⟩ | ⟨hsucceeds, rfl | ⟨value, rfl⟩⟩
  · cases h
  · obtain ⟨value, hvalue⟩ := hs.landed f _ hsucceeds rfl rfl
    have hkept := h.landed_kept hc hsucceeds rfl
    cases h with
    | hit found hstored => exact Or.inr ⟨hkept, Or.inr ⟨found, rfl⟩⟩
    | join _ hstored _ | enroll hstored _ => simp [hvalue] at hstored
  · cases h

/-- A call that waits on a flight goes on past it. -/
theorem past_of_waiting (h : Turn s key (.waiting f) move t next)
    (hc : s.Agrees key (.waiting f)) : t.Past key f next := by
  obtain ⟨flight, hflight, hkey⟩ := hc
  subst hkey
  cases h with
  | wakeFailed _ same error hsame hlanded herror =>
    rw [hflight] at hsame
    cases hsame
    refine Or.inl ⟨error, ⟨true, ?_⟩, rfl⟩
    rw [hflight, ← hlanded, ← herror]
  | wake _ same hsame hlanded hnone =>
    rw [hflight] at hsame
    cases hsame
    refine Or.inr ⟨?_, Or.inl rfl⟩
    rw [Succeeds, hflight, ← hlanded, ← hnone]

/-- A call that has a flight open keeps it open or lets it land and is past it. -/
theorem opened_or_past (h : Turn s key phase move t next) (hc : s.Agrees key phase)
    (hopen : phase.opened? = some f) : next.opened? = some f ∨ t.Past key f next := by
  cases h with
  | landStored g value =>
    cases hopen
    exact Or.inr (Or.inr ⟨flight_setFlight_self _ hc.2, Or.inr ⟨value, rfl⟩⟩)
  | landRemoved g raised =>
    cases hopen
    exact Or.inr (Or.inl ⟨raised, ⟨true, flight_setFlight_self _ hc⟩, rfl⟩)
  | search | returns | raises | store | remove => exact Or.inl hopen
  | _ => simp [Phase.opened?] at hopen

end Turn

/-! What a run leaves of a call that has to do with a flight. -/

/-- Every event keeps a call engaged, if its own turns lead from the phases that the flight holds it
in to such phases or past the flight. -/
theorem Engaged.after {held : Phase ε → Prop} {event : Event ε} (hs : Coherent s)
    (hheld : ∀ (phase next : Phase ε) (move : Move ε) (t : Sharing ε), s.Agrees key phase →
      Turn s key phase move t next → held phase → held next ∨ t.Past key f next)
    (h : s.after? event = some s') (hi : s.Engaged i key f held) : s'.Engaged i key f held := by
  obtain ⟨phase, hc, hphase⟩ := hi
  cases event with
  | call other =>
    cases h
    exact ⟨phase, caller_call other hc, hphase⟩
  | move j move =>
    obtain ⟨d, t, next, hd, hturn, rfl⟩ := turn_of_step h
    have hagrees := hs.agrees j d hd
    have hcallers := hturn.callers_eq
    by_cases hj : i = j
    · subst hj
      rw [hc] at hd
      cases hd
      refine ⟨next, caller_setPhase_self next (hcallers ▸ hc), ?_⟩
      rcases hphase with hlive | hpast
      · exact hheld phase next move t hagrees hturn hlive
      · exact Or.inr (hturn.past_next hs hagrees hpast)
    · refine ⟨phase, ?_, hphase.imp_right fun hpast => hturn.past_kept hagrees hpast⟩
      rw [caller_setPhase_of_ne t next hj, hcallers]
      exact hc

/-- Every state that a run passes is coherent. -/
theorem Passes.coherent {first : Sharing ε} (ht : first.Passes events t)
    (hfirst : Coherent first) : Coherent t := by
  obtain ⟨past, future, -, hpast⟩ := ht
  exact hfirst.run hpast

namespace Coherent

/-- What every event keeps of coherent calls every run keeps of them. -/
theorem kept_by_run {P : Sharing ε → Prop} (hs : Coherent s)
    (hkeep : ∀ t t' event, Coherent t → P t → t.after? event = some t' → P t') (hP : P s)
    (hrun : s.run? events = some s') : P s' :=
  (run_keeps (P := fun t => Coherent t ∧ P t)
    (fun event _ t t' ht h => ⟨ht.1.event h, hkeep t t' event ht.1 ht.2 h⟩) ⟨hs, hP⟩ hrun).2

/-- A call that waits on a flight waits on or gets past it. -/
theorem waiter_run (hs : Coherent s) (hc : s.callers[i]? = some ⟨key, .waiting f⟩)
    (hrun : s.run? events = some s') : s'.Engaged i key f (· = .waiting f) := by
  refine hs.kept_by_run (P := fun t => t.Engaged i key f (· = .waiting f))
    (fun t t' event ht hi h => hi.after ht ?_ h) ⟨_, hc, Or.inl rfl⟩ hrun
  rintro phase next move u hagrees hturn rfl
  exact Or.inr (hturn.past_of_waiting hagrees)

/-- A call that has a flight open keeps it open or gets past it. -/
theorem owner_run (hs : Coherent s) (hc : s.callers[i]? = some ⟨key, phase⟩)
    (hopen : phase.opened? = some f) (hrun : s.run? events = some s') :
    s'.Engaged i key f (·.opened? = some f) := by
  refine hs.kept_by_run (P := fun t => t.Engaged i key f (·.opened? = some f))
    (fun t t' event ht hi h => hi.after ht ?_ h) ⟨_, hc, Or.inl hopen⟩ hrun
  intro phase next move u hagrees hturn hlive
  exact hturn.opened_or_past hagrees hlive

end Coherent

/-- A call that waits on a flight that fails is still waiting or has ended with its error. -/
theorem Engaged.of_fails (hi : s.Engaged i key f (· = .waiting f)) (hfails : s.Fails key f error) :
    s.callers[i]? = some ⟨key, .waiting f⟩ ∨
      s.callers[i]? = some ⟨key, .finished (.failed error)⟩ := by
  obtain ⟨phase, hc, rfl | ⟨error', hfails', rfl⟩ | ⟨hsucceeds, -⟩⟩ := hi
  · exact Or.inl hc
  · rw [hfails.unique hfails']
    exact Or.inr hc
  · exact absurd hsucceeds hfails.not_succeeds

/-- A call that ends with an error has it from the flight that it has to do with. -/
theorem Engaged.fails_of_failed {held : Phase ε → Prop} (hi : s.Engaged i key f held)
    (hheld : ¬ held (.finished (.failed error)))
    (hc : s.callers[i]? = some ⟨key, .finished (.failed error)⟩) : s.Fails key f error := by
  obtain ⟨phase, hphase, hrest⟩ := hi
  rw [hc] at hphase
  cases hphase
  rcases hrest with hlive | ⟨error', hfails, heq⟩ | ⟨-, heq | ⟨value, heq⟩⟩
  · exact absurd hlive hheld
  · cases heq
    exact hfails
  · simp at heq
  · cases value <;> simp [Ending.ofEntry] at heq

end AuditHours.Version.Sharing
