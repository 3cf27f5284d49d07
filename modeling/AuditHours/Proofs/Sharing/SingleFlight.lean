import AuditHours.Proofs.Sharing.Coherence

/-!
Single flight and write-once. In every order of the atomic steps at most one search runs for a key,
and it belongs to the call whose flight is registered; a stored entry stays, and no search for its
key starts again; and a call ends with the stored entry of its key or with an error that a search
raised.
-/
namespace AuditHours.Version

open Json

variable {ε : Type}

/-- Whether a call ends by saying that there is no release, given the errors that say so. -/
def Ending.Missing (missing : ε → Prop) : Ending ε → Prop
  | .build _ => False
  | .notFound => True
  | .failed error => missing error

def Phase.error? : Phase ε → Option ε
  | .raised _ error | .removed _ error | .finished (.failed error) => some error
  | _ => none

namespace Sharing

structure ErrorsIn (P : ε → Prop) (s : Sharing ε) : Prop where
  flight : ∀ (f : Nat) (flight : Flight ε) (error : ε), s.flights[f]? = some flight →
    flight.error? = some error → P error
  caller : ∀ (i : Nat) (c : Caller ε) (error : ε), s.callers[i]? = some c →
    c.phase.error? = some error → P error

namespace ErrorsIn

variable {P : ε → Prop} {s t : Sharing ε} {key : String} {phase next : Phase ε} {move : Move ε}

theorem start (cache : Cache) : ErrorsIn P (start cache) := by
  constructor <;> simp [Sharing.start]

theorem call (hs : ErrorsIn P s) (key : String) : ErrorsIn P (s.call key) := by
  refine ⟨hs.flight, ?_⟩
  intro i c error hc herror
  rcases caller_of_call hc with rfl | hc
  · simp [Phase.error?] at herror
  · exact hs.caller i c error hc herror

/-- Flights get their errors from searches only. -/
theorem flight_turn (hs : ErrorsIn P s) (h : Turn s key phase move t next)
    (hmove : ∀ error, move = .raises error → P error) {f : Nat} {flight : Flight ε} {error : ε}
    (hflight : t.flights[f]? = some flight) (herror : flight.error? = some error) : P error := by
  cases h with
  | enroll hstored hregistered =>
    rcases getElem?_concat_cases hflight with hold | ⟨-, rfl⟩
    · exact hs.flight f flight error hold herror
    · simp at herror
  | raises g raised =>
    obtain ⟨old, hold, rfl⟩ := flight_of_setFlight hflight
    split at herror
    · cases herror
      exact hmove error rfl
    · exact hs.flight f old error hold herror
  | landStored | landRemoved =>
    obtain ⟨old, hold, rfl⟩ := flight_of_setFlight hflight
    split at herror <;> exact hs.flight f old error hold herror
  | _ => exact hs.flight f flight error hflight herror

/-- A call gets its error from its own search or from the flight that it waited on. -/
theorem next_turn (hs : ErrorsIn P s) (h : Turn s key phase move t next)
    (hmove : ∀ error, move = .raises error → P error)
    (hphase : ∀ error, phase.error? = some error → P error) {error : ε}
    (herror : next.error? = some error) : P error := by
  cases h with
  | hit value _ | landStored _ value =>
    cases value <;> simp [Phase.error?, Ending.ofEntry] at herror
  | raises f raised =>
    cases herror
    exact hmove error rfl
  | remove | landRemoved => exact hphase error herror
  | wakeFailed f flight raised hflight hlanded hraised =>
    cases herror
    exact hs.flight f flight error hflight hraised
  | _ => simp [Phase.error?] at herror

theorem event (hs : ErrorsIn P s) {event : Event ε} {s' : Sharing ε}
    (hraise : ∀ i error, event = .move i (.raises error) → P error)
    (h : s.after? event = some s') : ErrorsIn P s' := by
  cases event with
  | call key =>
    cases h
    exact hs.call key
  | move i move =>
    obtain ⟨c, t, next, hc, hturn, rfl⟩ := turn_of_step h
    have hmove : ∀ error, move = .raises error → P error := by
      intro error heq
      exact hraise i error (by rw [heq])
    constructor
    · intro f flight error hflight herror
      exact hs.flight_turn hturn hmove hflight herror
    · intro j d error hd herror
      have ht : t.callers[i]? = some c := by rw [hturn.callers_eq, hc]
      rcases caller_of_setPhase ht hd with ⟨-, rfl⟩ | ⟨-, hold⟩
      · exact hs.next_turn hturn hmove (fun e he => hs.caller i c e hc he) herror
      · rw [hturn.callers_eq] at hold
        exact hs.caller j d error hold herror

/-- If the searches of a run raise only errors of a kind, no others are met. -/
theorem run (hs : ErrorsIn P s) {events : List (Event ε)} {s' : Sharing ε}
    (hraise : ∀ i error, Event.move i (.raises error) ∈ events → P error)
    (h : s.run? events = some s') : ErrorsIn P s' := by
  refine run_keeps (fun event hmem t t' ht hstep => ?_) hs h
  exact ht.event (fun i error heq => hraise i error (heq ▸ hmem)) hstep

end ErrorsIn

/-- What holds at each moment of a cache that lets one call per key search. -/
structure SingleFlight (missing : ε → Prop) (s : Sharing ε) : Prop where
  one_search : ∀ (i j : Nat) (c d : Caller ε) (f g : Nat), s.callers[i]? = some c →
    s.callers[j]? = some d → c.key = d.key → c.phase = .searching f → d.phase = .searching g →
      i = j
  search_registered : ∀ (i : Nat) (c : Caller ε) (f : Nat), s.callers[i]? = some c →
    c.phase = .searching f → field? s.registered c.key = some f
  one_owner : ∀ (i j : Nat) (c d : Caller ε) (f g : Nat), s.callers[i]? = some c →
    s.callers[j]? = some d → c.key = d.key → c.phase.registered? = some f →
      d.phase.registered? = some g → i = j
  stored_quiet : ∀ (i : Nat) (c : Caller ε), s.callers[i]? = some c →
    s.cache.contains c.key = true → c.phase.registered? = none
  build_stored : ∀ (i : Nat) (c : Caller ε) (build : Build), s.callers[i]? = some c →
    c.phase = .finished (.build build) → s.cache.find? c.key = some (some build)
  builds_agree : ∀ (i j : Nat) (c d : Caller ε) (first second : Build), s.callers[i]? = some c →
    s.callers[j]? = some d → c.key = d.key → c.phase = .finished (.build first) →
      d.phase = .finished (.build second) → first = second
  missing_stored : ∀ (i : Nat) (c : Caller ε) (ending : Ending ε), s.callers[i]? = some c →
    c.phase = .finished ending → ending.Missing missing → s.cache.find? c.key = some none

/-- What stays from one moment to a later one. -/
structure WriteOnce (s later : Sharing ε) : Prop where
  entry : ∀ (key : String) (value : Option Build), s.cache.find? key = some value →
    later.cache.find? key = some value
  no_search : ∀ key, s.cache.contains key = true → later.searches.count key = s.searches.count key

theorem Coherent.singleFlight {missing : ε → Prop} {s : Sharing ε} (hs : Coherent s)
    (herrors : ErrorsIn (fun error => ¬ missing error) s) : SingleFlight missing s := by
  have hbuild : ∀ (i : Nat) (c : Caller ε) (build : Build), s.callers[i]? = some c →
      c.phase = .finished (.build build) → s.cache.find? c.key = some (some build) := by
    intro i c build hc hphase
    have h := hs.agrees i c hc
    rw [hphase] at h
    exact h
  constructor
  · intro i j c d f g hc hd hkey hcf hdg
    exact hs.one_owner (f := f) (g := g) hc hd hkey (by rw [hcf]; rfl) (by rw [hdg]; rfl)
  · intro i c f hc hcf
    exact ((hs.agrees i c hc).registered (f := f) (by rw [hcf]; rfl)).1
  · intro i j c d f g hc hd hkey hcf hdg
    exact hs.one_owner hc hd hkey hcf hdg
  · intro i c hc hstored
    rw [Option.eq_none_iff_forall_ne_some]
    intro f hf
    have hnone := ((hs.agrees i c hc).registered hf).2
    simp [Cache.contains, hnone] at hstored
  · exact hbuild
  · intro i j c d first second hc hd hkey hcf hdg
    have hfirst := hbuild i c first hc hcf
    have hsecond := hbuild j d second hd hdg
    rw [hkey, hsecond] at hfirst
    simpa using hfirst.symm
  · intro i c ending hc hphase hmissing
    cases ending with
    | build build => exact hmissing.elim
    | notFound =>
      have h := hs.agrees i c hc
      rw [hphase] at h
      exact h
    | failed error =>
      exact absurd hmissing (herrors.caller i c error hc (by rw [hphase]; rfl))

/-- A stored entry stays through every event. -/
theorem find?_event {s s' : Sharing ε} {event : Event ε} {key : String} {value : Option Build}
    (h : s.after? event = some s') (hvalue : s.cache.find? key = some value) :
    s'.cache.find? key = some value := by
  cases event with
  | call other =>
    cases h
    exact hvalue
  | move i move =>
    obtain ⟨c, t, next, -, hturn, rfl⟩ := turn_of_step h
    exact hturn.find?_stored hvalue

/-- No event starts a search for a stored key. -/
theorem Coherent.searches_event {s s' : Sharing ε} (hs : Coherent s) {event : Event ε}
    {key : String} {value : Option Build} (h : s.after? event = some s')
    (hvalue : s.cache.find? key = some value) :
    s'.searches.count key = s.searches.count key := by
  cases event with
  | call other =>
    cases h
    rfl
  | move i move =>
    obtain ⟨⟨other, phase⟩, t, next, hc, hturn, rfl⟩ := turn_of_step h
    cases hturn with
    | search f =>
      have hnone := ((hs.agrees i _ hc).registered (f := f) rfl).2
      have hne : other ≠ key := by
        rintro rfl
        simp [hvalue] at hnone
      change (s.searches ++ [other]).count key = s.searches.count key
      simp [List.count_append, hne]
    | _ => rfl

theorem Coherent.writeOnce {s later : Sharing ε} (hs : Coherent s) {events : List (Event ε)}
    (hrun : s.run? events = some later) : WriteOnce s later := by
  constructor
  · intro key value hvalue
    exact run_keeps (P := fun t => t.cache.find? key = some value)
      (fun _ _ _ _ ht hstep => find?_event hstep ht) hvalue hrun
  · intro key hstored
    obtain ⟨value, hvalue⟩ := Option.isSome_iff_exists.mp hstored
    have hkeep := run_keeps
      (P := fun t => Coherent t ∧ t.cache.find? key = some value ∧
        t.searches.count key = s.searches.count key)
      (fun event _ t t' ht hstep => ⟨ht.1.event hstep, find?_event hstep ht.2.1,
        (ht.1.searches_event hstep ht.2.1).trans ht.2.2⟩)
      ⟨hs, hvalue, rfl⟩ hrun
    exact hkeep.2.2

/-- Calls that share a cache search once per key at a time and agree on what is stored, in every
state that a run leads to, if no search itself says that there is no release; and what is stored
there stays in every run that goes on from it. -/
theorem single_flight_write_once {missing : ε → Prop} {cache : Cache} {s later : Sharing ε}
    {before after : List (Event ε)} (hbefore : (start cache).run? before = some s)
    (hafter : s.run? after = some later)
    (hraise : ∀ i error, Event.move i (.raises error) ∈ before → ¬ missing error) :
    SingleFlight missing s ∧ WriteOnce s later := by
  have hs : Coherent s := (Coherent.start cache).run hbefore
  have herrors : ErrorsIn (fun error => ¬ missing error) s :=
    (ErrorsIn.start cache).run hraise hbefore
  exact ⟨hs.singleFlight herrors, hs.writeOnce hafter⟩

/-- A run in which one search for a key fails while another call waits for it, and a second search
for the same key finds a build that a fourth call reads before the second flight has landed. -/
def retriedRun : List (Event String) :=
  [.call "^0.8.0", .call "^0.8.0", .move 0 .proceed, .move 1 .proceed, .move 0 .proceed,
    .move 0 (.raises "unreachable"), .move 0 .proceed, .call "^0.8.0", .move 2 .proceed,
    .move 2 .proceed, .move 0 .proceed, .move 1 .proceed,
    .move 2 (.returns (some ⟨"v0.8.0+commit.c7dfd78e"⟩)), .move 2 .proceed, .call "^0.8.0",
    .move 3 .proceed]

theorem single_flight_write_once_retried :
    ∃ s later, (start .empty).run? retriedRun = some s ∧
      s.run? [.move 2 .proceed, .call "^0.8.0", .move 4 .proceed] = some later ∧
      later.searches = ["^0.8.0", "^0.8.0"] ∧ SingleFlight (· = "no release") s ∧
      WriteOnce s later := by
  refine ⟨_, _, rfl, rfl, rfl, @single_flight_write_once String _ .empty _ _ retriedRun
    [.move 2 .proceed, .call "^0.8.0", .move 4 .proceed] rfl rfl ?_⟩
  intro i error hmem
  simp only [retriedRun, List.mem_cons, reduceCtorEq, Event.move.injEq, Move.raises.injEq,
    List.not_mem_nil, and_false, or_false, false_or] at hmem
  simp [hmem]

end Sharing

end AuditHours.Version
