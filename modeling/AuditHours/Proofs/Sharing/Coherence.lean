import AuditHours.Proofs.Basic
import AuditHours.Proofs.Json.Fields
import AuditHours.Proofs.Sharing.Run

/-!
The invariant of calls that share a cache. What the phase of a call says of the cache, the register
and the flights is true; no two calls have the same flight open; each registered flight and each
flight in the air belongs to a call; and a flight that landed without an error left its key stored.
Every event keeps all of this, so it holds in every state that a run leads to.
-/
namespace AuditHours.Version.Sharing

open Json

variable {ε : Type}

/-- What the phase of a call for a key says of the shared data. -/
def Agrees (s : Sharing ε) (key : String) : Phase ε → Prop
  | .arriving => True
  | .waiting f => ∃ flight, s.flights[f]? = some flight ∧ flight.key = key
  | .owning f | .searching f | .returned f _ =>
    field? s.registered key = some f ∧ s.cache.find? key = none ∧
      s.flights[f]? = some ⟨key, false, none⟩
  | .raised f error =>
    field? s.registered key = some f ∧ s.cache.find? key = none ∧
      s.flights[f]? = some ⟨key, false, some error⟩
  | .stored f value =>
    s.cache.find? key = some value ∧ s.flights[f]? = some ⟨key, false, none⟩
  | .removed f error => s.flights[f]? = some ⟨key, false, some error⟩
  | .finished (.build build) => s.cache.find? key = some (some build)
  | .finished .notFound => s.cache.find? key = some none
  | .finished (.failed _) => True

/-- The invariant of calls that share a cache. -/
structure Coherent (s : Sharing ε) : Prop where
  agrees : ∀ (i : Nat) (c : Caller ε), s.callers[i]? = some c → s.Agrees c.key c.phase
  exclusive : ∀ (i j : Nat) (c d : Caller ε) (f : Nat), s.callers[i]? = some c →
    s.callers[j]? = some d → c.phase.opened? = some f → d.phase.opened? = some f → i = j
  registered : ∀ (key : String) (f : Nat), field? s.registered key = some f →
    ∃ (i : Nat) (c : Caller ε), s.callers[i]? = some c ∧ c.key = key ∧
      c.phase.registered? = some f
  airborne : ∀ (f : Nat) (flight : Flight ε), s.flights[f]? = some flight →
    flight.landed = false → ∃ (i : Nat) (c : Caller ε), s.callers[i]? = some c ∧
      c.phase.opened? = some f
  landed : ∀ (f : Nat) (flight : Flight ε), s.flights[f]? = some flight →
    flight.landed = true → flight.error? = none →
      ∃ value, s.cache.find? flight.key = some value

/-! The calls after an event. -/

@[simp]
theorem caller_setPhase_self {s : Sharing ε} {i : Nat} {c : Caller ε} (phase : Phase ε)
    (hc : s.callers[i]? = some c) : (s.setPhase i phase).callers[i]? = some ⟨c.key, phase⟩ := by
  simp [setPhase, hc]

@[simp]
theorem caller_setPhase_of_ne (s : Sharing ε) {i j : Nat} (phase : Phase ε) (h : j ≠ i) :
    (s.setPhase i phase).callers[j]? = s.callers[j]? := by
  simp [setPhase, Ne.symm h]

/-- A call after a change of phase is the changed call or another one as it was. -/
theorem caller_of_setPhase {s : Sharing ε} {i j : Nat} {c d : Caller ε} {phase : Phase ε}
    (hc : s.callers[i]? = some c) (hd : (s.setPhase i phase).callers[j]? = some d) :
    (j = i ∧ d = ⟨c.key, phase⟩) ∨ (j ≠ i ∧ s.callers[j]? = some d) := by
  by_cases h : j = i
  · subst h
    rw [caller_setPhase_self phase hc] at hd
    exact Or.inl ⟨rfl, (Option.some.inj hd).symm⟩
  · rw [caller_setPhase_of_ne s phase h] at hd
    exact Or.inr ⟨h, hd⟩

/-- A call after an arrival is the new call or an old one as it was. -/
theorem caller_of_call {s : Sharing ε} {key : String} {j : Nat} {d : Caller ε}
    (hd : (s.call key).callers[j]? = some d) :
    d = ⟨key, .arriving⟩ ∨ s.callers[j]? = some d := by
  rcases getElem?_concat_cases hd with hold | ⟨-, hnew⟩
  · exact Or.inr hold
  · exact Or.inl hnew

theorem caller_call {s : Sharing ε} {j : Nat} {d : Caller ε} (key : String)
    (hd : s.callers[j]? = some d) : (s.call key).callers[j]? = some d := by
  obtain ⟨hlt, -⟩ := List.getElem?_eq_some_iff.mp hd
  simpa only [call, List.getElem?_append_left hlt] using hd

/-- A flight after a change is the changed flight or another one as it was. -/
theorem flight_of_setFlight {s : Sharing ε} {f g : Nat} {change : Flight ε → Flight ε}
    {flight : Flight ε} (h : (s.setFlight f change).flights[g]? = some flight) :
    ∃ old, s.flights[g]? = some old ∧ flight = if f = g then change old else old := by
  simp only [setFlight, List.getElem?_modify, Option.map_eq_map, Option.map_eq_some_iff] at h
  obtain ⟨old, hold, heq⟩ := h
  exact ⟨old, hold, heq.symm⟩

@[simp]
theorem flight_setFlight_self {s : Sharing ε} {f : Nat} {flight : Flight ε}
    (change : Flight ε → Flight ε) (h : s.flights[f]? = some flight) :
    (s.setFlight f change).flights[f]? = some (change flight) := by
  simp [setFlight, h]

@[simp]
theorem flight_setFlight_of_ne {s : Sharing ε} {f g : Nat} (change : Flight ε → Flight ε)
    (h : f ≠ g) : (s.setFlight f change).flights[g]? = s.flights[g]? := by
  simp [setFlight, h]

/-- A flight that is in the air after another one has landed is not that one and was as it is. -/
theorem airborne_of_land {s : Sharing ε} {f g : Nat} {flight : Flight ε}
    (h : (s.setFlight f fun flight => { flight with landed := true }).flights[g]? = some flight)
    (hair : flight.landed = false) : f ≠ g ∧ s.flights[g]? = some flight := by
  obtain ⟨old, hold, rfl⟩ := flight_of_setFlight h
  split at hair
  · simp at hair
  · next hne =>
    rw [if_neg hne]
    exact ⟨hne, hold⟩

namespace Turn

variable {s t : Sharing ε} {key : String} {phase next : Phase ε} {move : Move ε}

theorem callers_eq (h : Turn s key phase move t next) : t.callers = s.callers := by
  cases h <;> rfl

/-- A stored entry stays as it is. -/
theorem find?_stored (h : Turn s key phase move t next) {other : String}
    {value : Option Build} (hvalue : s.cache.find? other = some value) :
    t.cache.find? other = some value := by
  cases h with
  | store f found =>
    by_cases hkey : other = key
    · subst other
      have hstored : s.cache.contains key = true := by simp [Cache.contains, hvalue]
      simp [hstored, hvalue]
    · simp [hkey, hvalue]
  | _ => exact hvalue

theorem find?_of_ne (h : Turn s key phase move t next) {other : String} (hkey : other ≠ key) :
    t.cache.find? other = s.cache.find? other := by
  cases h with
  | store f found => simp [hkey]
  | _ => rfl

/-- The register changes only in the entry of the key of the call. -/
theorem registered_of_ne (h : Turn s key phase move t next) {other : String}
    (hkey : other ≠ key) : field? t.registered other = field? s.registered other := by
  cases h with
  | enroll hstored hregistered =>
    simp [field?, Ne.symm hkey]
  | store f _ | remove f _ => exact field?_filter_of_ne s.registered hkey
  | _ => rfl

/-- A flight of another call stays as it is. -/
theorem flight_of_ne (h : Turn s key phase move t next) {f : Nat} {flight : Flight ε}
    (hflight : s.flights[f]? = some flight) (hother : phase.opened? ≠ some f) :
    t.flights[f]? = some flight := by
  cases h with
  | enroll hstored hregistered =>
    obtain ⟨hlt, -⟩ := List.getElem?_eq_some_iff.mp hflight
    simpa only [List.getElem?_append_left hlt] using hflight
  | raises g _ | landStored g _ | landRemoved g _ =>
    have hne : g ≠ f := fun heq => hother (congrArg some heq)
    simpa [hne] using hflight
  | _ => exact hflight

/-- No flight changes its key. -/
theorem flight_key (h : Turn s key phase move t next) {f : Nat} {flight : Flight ε}
    (hflight : s.flights[f]? = some flight) :
    ∃ flight', t.flights[f]? = some flight' ∧ flight'.key = flight.key := by
  by_cases hother : phase.opened? = some f
  · cases h with
    | raises g _ | landStored g _ | landRemoved g _ =>
      cases hother
      exact ⟨_, flight_setFlight_self _ hflight, rfl⟩
    | enroll hstored hregistered => simp [Phase.opened?] at hother
    | _ => exact ⟨flight, hflight, rfl⟩
  · exact ⟨flight, h.flight_of_ne hflight hother, rfl⟩

/-- A call opens at most the next new flight. -/
theorem opened_origin (h : Turn s key phase move t next) {f : Nat} (hopen : next.opened? = some f) :
    phase.opened? = some f ∨ f = s.flights.length := by
  cases h with
  | enroll hstored hregistered => exact Or.inr (Option.some.inj hopen).symm
  | _ => simp_all [Phase.opened?]

/-- A flight that is still in the air after a turn of the call that opened it is still open. -/
theorem opened_kept (h : Turn s key phase move t next) {f : Nat} {flight : Flight ε}
    (hopen : phase.opened? = some f) (hflight : t.flights[f]? = some flight)
    (hair : flight.landed = false) : next.opened? = some f := by
  cases h with
  | landStored g _ | landRemoved g _ =>
    cases hopen
    exact absurd rfl (airborne_of_land hflight hair).1
  | _ => simp_all [Phase.opened?]

/-- A flight after a turn was in the air before if it is now, or the call has just opened it. -/
theorem airborne_origin (h : Turn s key phase move t next) {f : Nat} {flight : Flight ε}
    (hflight : t.flights[f]? = some flight) (hair : flight.landed = false) :
    (∃ old, s.flights[f]? = some old ∧ old.landed = false) ∨ next.opened? = some f := by
  cases h with
  | enroll hstored hregistered =>
    rcases getElem?_concat_cases hflight with hold | ⟨rfl, -⟩
    · exact Or.inl ⟨flight, hold, hair⟩
    · exact Or.inr rfl
  | raises g error =>
    obtain ⟨old, hold, rfl⟩ := flight_of_setFlight hflight
    refine Or.inl ⟨old, hold, ?_⟩
    split at hair <;> exact hair
  | landStored g _ | landRemoved g _ =>
    exact Or.inl ⟨flight, (airborne_of_land hflight hair).2, hair⟩
  | _ => exact Or.inl ⟨flight, hflight, hair⟩

/-- A registered flight was registered before, or the call has just registered it. -/
theorem registered_origin (h : Turn s key phase move t next) {other : String} {f : Nat}
    (hregistered : field? t.registered other = some f) :
    field? s.registered other = some f ∨ (other = key ∧ next.registered? = some f) := by
  by_cases hkey : other = key
  · subst other
    cases h with
    | enroll hstored hnone =>
      refine Or.inr ⟨rfl, ?_⟩
      simpa [field?, Phase.registered?] using hregistered
    | store g _ | remove g _ => simp at hregistered
    | _ => exact Or.inl hregistered
  · rw [h.registered_of_ne hkey] at hregistered
    exact Or.inl hregistered

/-- A call whose flight stays registered goes on having it registered. -/
theorem registered_kept (h : Turn s key phase move t next) {f g : Nat}
    (hphase : phase.registered? = some f) (hregistered : field? t.registered key = some g) :
    next.registered? = some f := by
  cases h with
  | store g _ | remove g _ => simp at hregistered
  | _ => simp_all [Phase.registered?]

/-- A call that has no flight registered leaves the registered flight of its key alone. -/
theorem entry_kept (h : Turn s key phase move t next) {f : Nat}
    (hregistered : field? s.registered key = some f) (hphase : phase.registered? = none) :
    field? t.registered key = some f ∧ t.cache.find? key = s.cache.find? key := by
  cases h with
  | enroll hstored hnone => simp [hnone] at hregistered
  | store g _ | remove g _ => simp [Phase.registered?] at hphase
  | _ => exact ⟨hregistered, rfl⟩

end Turn

/-! The invariant is kept. -/

variable {s t : Sharing ε} {key : String} {phase next : Phase ε} {move : Move ε} {i : Nat}
  {c : Caller ε}

/-- An open flight is in the air and has the key of its call. -/
theorem Agrees.opened {f : Nat} (h : s.Agrees key phase) (hopen : phase.opened? = some f) :
    ∃ flight, s.flights[f]? = some flight ∧ flight.key = key ∧ flight.landed = false := by
  cases phase with
  | arriving | waiting | finished => simp [Phase.opened?] at hopen
  | owning | searching | returned | raised =>
    cases hopen
    exact ⟨_, h.2.2, rfl, rfl⟩
  | stored g value =>
    cases hopen
    exact ⟨_, h.2, rfl, rfl⟩
  | removed g error =>
    cases hopen
    exact ⟨_, h, rfl, rfl⟩

/-- The register holds the flight of a call that registered one, and its key is not stored. -/
theorem Agrees.registered {f : Nat} (h : s.Agrees key phase)
    (hregistered : phase.registered? = some f) :
    field? s.registered key = some f ∧ s.cache.find? key = none := by
  cases phase with
  | owning | searching | returned | raised =>
    cases hregistered
    exact ⟨h.1, h.2.1⟩
  | _ => simp [Phase.registered?] at hregistered

/-- What a phase says stays true when its key is not forgotten, its registered entry is left alone,
its open flight is left alone and no flight changes its key. -/
theorem Agrees.frame (h : s.Agrees key phase)
    (hfind : ∀ value, s.cache.find? key = some value → t.cache.find? key = some value)
    (hentry : ∀ f, phase.registered? = some f → field? s.registered key = some f →
      field? t.registered key = some f ∧ t.cache.find? key = s.cache.find? key)
    (hflight : ∀ f flight, phase.opened? = some f → s.flights[f]? = some flight →
      t.flights[f]? = some flight)
    (hkey : ∀ (f : Nat) (flight : Flight ε), s.flights[f]? = some flight →
      ∃ flight', t.flights[f]? = some flight' ∧ flight'.key = flight.key) :
    t.Agrees key phase := by
  cases phase with
  | arriving => trivial
  | waiting f =>
    obtain ⟨flight, hf, hk⟩ := h
    obtain ⟨flight', hf', hk'⟩ := hkey f flight hf
    exact ⟨flight', hf', hk'.trans hk⟩
  | owning | searching | returned | raised =>
    obtain ⟨hr, hc⟩ := hentry _ rfl h.1
    exact ⟨hr, hc.trans h.2.1, hflight _ _ rfl h.2.2⟩
  | stored f value => exact ⟨hfind value h.1, hflight f _ rfl h.2⟩
  | removed f error => exact hflight f _ rfl h
  | finished ending =>
    cases ending with
    | build | notFound => exact hfind _ h
    | failed => trivial

theorem agrees_ofEntry {value : Option Build} (h : s.cache.find? key = some value) :
    s.Agrees key (.finished (.ofEntry value)) := by
  cases value <;> exact h

namespace Coherent

/-- Two calls for one key do not both have a registered flight. -/
theorem one_owner (hs : Coherent s) {i j : Nat} {c d : Caller ε} {f g : Nat}
    (hc : s.callers[i]? = some c) (hd : s.callers[j]? = some d) (hkey : c.key = d.key)
    (hcf : c.phase.registered? = some f) (hdg : d.phase.registered? = some g) : i = j := by
  have hf := ((hs.agrees i c hc).registered hcf).1
  have hg := ((hs.agrees j d hd).registered hdg).1
  rw [hkey, hg] at hf
  have heq : g = f := Option.some.inj hf
  subst heq
  exact hs.exclusive i j c d g hc hd (Phase.opened_of_registered hcf)
    (Phase.opened_of_registered hdg)

/-- A turn makes the next phase of its call true. -/
theorem agrees_next (hs : Coherent s) (hc : s.Agrees key phase)
    (h : Turn s key phase move t next) : t.Agrees key next := by
  cases h with
  | hit value hstored => exact agrees_ofEntry hstored
  | join f hstored hregistered =>
    obtain ⟨j, d, hd, hkey, hphase⟩ := hs.registered key f hregistered
    obtain ⟨flight, hflight, hk, -⟩ :=
      (hs.agrees j d hd).opened (Phase.opened_of_registered hphase)
    exact ⟨flight, hflight, hk.trans hkey⟩
  | enroll hstored hregistered =>
    refine ⟨by simp [field?], hstored, ?_⟩
    simp
  | search f => exact hc
  | returns f value => exact hc
  | raises f error => exact ⟨hc.1, hc.2.1, flight_setFlight_self _ hc.2.2⟩
  | store f value =>
    have hnone : s.cache.contains key = false := by simp [Cache.contains, hc.2.1]
    exact ⟨Cache.find?_store_self hnone value, hc.2.2⟩
  | remove f error => exact hc.2.2
  | landStored f value => exact agrees_ofEntry hc.1
  | landRemoved f error => trivial
  | wakeFailed f flight error hflight hlanded herror => trivial
  | wake f flight hflight hlanded herror => trivial

/-- A turn leaves true what the phases of the other calls say. -/
theorem agrees_other (hs : Coherent s) (hc : s.callers[i]? = some c)
    (h : Turn s c.key c.phase move t next) {j : Nat} {d : Caller ε} (hne : j ≠ i)
    (hd : s.callers[j]? = some d) : t.Agrees d.key d.phase := by
  refine (hs.agrees j d hd).frame (fun value hvalue => h.find?_stored hvalue) ?_ ?_
    (fun f flight hflight => h.flight_key hflight)
  · intro f hphase hregistered
    by_cases hkey : d.key = c.key
    · have hfree : c.phase.registered? = none := by
        rw [Option.eq_none_iff_forall_ne_some]
        intro g hg
        exact hne (hs.one_owner hd hc hkey hphase hg)
      rw [hkey] at hregistered ⊢
      exact h.entry_kept hregistered hfree
    · rw [h.registered_of_ne hkey, h.find?_of_ne hkey]
      exact ⟨hregistered, rfl⟩
  · intro f flight hopen hflight
    refine h.flight_of_ne hflight fun hcopen => ?_
    exact hne (hs.exclusive j i d c f hd hc hopen hcopen)

/-- An open flight is not a new one. -/
theorem opened_lt (hs : Coherent s) {f : Nat} (hc : s.callers[i]? = some c)
    (hopen : c.phase.opened? = some f) : f < s.flights.length := by
  obtain ⟨flight, hflight, -⟩ := (hs.agrees i c hc).opened hopen
  exact (List.getElem?_eq_some_iff.mp hflight).1

/-- Only the call that takes a turn can have the flight that it has open after it. -/
theorem exclusive_turn (hs : Coherent s) (hc : s.callers[i]? = some c)
    (h : Turn s c.key c.phase move t next) {j : Nat} {d : Caller ε} {f : Nat}
    (hd : s.callers[j]? = some d) (hnext : next.opened? = some f)
    (hopen : d.phase.opened? = some f) : i = j := by
  rcases h.opened_origin hnext with hold | hnew
  · exact hs.exclusive i j c d f hc hd hold hopen
  · have := hs.opened_lt hd hopen
    omega

/-- A flight that landed without an error left its key stored. -/
theorem landed_turn (hs : Coherent s) (hc : s.Agrees key phase)
    (h : Turn s key phase move t next) {f : Nat} {flight : Flight ε}
    (hflight : t.flights[f]? = some flight) (hland : flight.landed = true)
    (herror : flight.error? = none) : ∃ value, t.cache.find? flight.key = some value := by
  -- An old flight left its key stored and it stays stored; only a turn that lands its own flight
  -- makes a new case.
  have hold : s.flights[f]? = some flight → ∃ value, t.cache.find? flight.key = some value := by
    intro hsame
    obtain ⟨value, hvalue⟩ := hs.landed f flight hsame hland herror
    exact ⟨value, h.find?_stored hvalue⟩
  cases h with
  | enroll hstored hregistered =>
    rcases getElem?_concat_cases hflight with hsame | ⟨-, rfl⟩
    · exact hold hsame
    · simp at hland
  | raises g error =>
    obtain ⟨old, hsame, rfl⟩ := flight_of_setFlight hflight
    split at herror
    · simp at herror
    · next hne =>
      rw [if_neg hne] at hold
      simpa only [if_neg hne] using hold hsame
  | landStored g value =>
    obtain ⟨old, hsame, rfl⟩ := flight_of_setFlight hflight
    by_cases hg : g = f
    · subst hg
      have heq : old = ⟨key, false, none⟩ := Option.some.inj (hsame.symm.trans hc.2)
      subst heq
      rw [if_pos rfl]
      exact ⟨value, hc.1⟩
    · rw [if_neg hg] at hold
      simpa only [if_neg hg] using hold hsame
  | landRemoved g error =>
    obtain ⟨old, hsame, rfl⟩ := flight_of_setFlight hflight
    by_cases hg : g = f
    · subst hg
      have heq : old = ⟨key, false, some error⟩ := Option.some.inj (hsame.symm.trans hc)
      subst heq
      simp at herror
    · rw [if_neg hg] at hold
      simpa only [if_neg hg] using hold hsame
  | _ => exact hold hflight

theorem turn (hs : Coherent s) (hc : s.callers[i]? = some c)
    (h : Turn s c.key c.phase move t next) : Coherent (t.setPhase i next) := by
  have ht : t.callers[i]? = some c := by rw [h.callers_eq, hc]
  have hself : (t.setPhase i next).callers[i]? = some ⟨c.key, next⟩ :=
    caller_setPhase_self next ht
  have hother : ∀ {j : Nat} {d : Caller ε}, j ≠ i → s.callers[j]? = some d →
      (t.setPhase i next).callers[j]? = some d := by
    intro j d hne hd
    rw [caller_setPhase_of_ne t next hne, h.callers_eq, hd]
  have hcases : ∀ {j : Nat} {d : Caller ε}, (t.setPhase i next).callers[j]? = some d →
      (j = i ∧ d = ⟨c.key, next⟩) ∨ (j ≠ i ∧ s.callers[j]? = some d) := by
    intro j d hd
    rw [← h.callers_eq]
    exact caller_of_setPhase ht hd
  constructor
  · intro j d hd
    rcases hcases hd with ⟨-, rfl⟩ | ⟨hne, hold⟩
    · change t.Agrees c.key next
      exact hs.agrees_next (hs.agrees i c hc) h
    · exact hs.agrees_other hc h hne hold
  · intro j k d e f hd he hdf hef
    rcases hcases hd with ⟨rfl, rfl⟩ | ⟨hj, hold⟩
    · rcases hcases he with ⟨rfl, -⟩ | ⟨hk, hold⟩
      · rfl
      · exact hs.exclusive_turn hc h hold hdf hef
    · rcases hcases he with ⟨rfl, rfl⟩ | ⟨hk, hold'⟩
      · exact (hs.exclusive_turn hc h hold hef hdf).symm
      · exact hs.exclusive j k d e f hold hold' hdf hef
  · intro other f hregistered
    rcases h.registered_origin hregistered with hold | ⟨rfl, hnext⟩
    · obtain ⟨j, d, hd, rfl, hphase⟩ := hs.registered other f hold
      by_cases hj : j = i
      · subst hj
        have heq : c = d := Option.some.inj (hc.symm.trans hd)
        subst heq
        exact ⟨j, _, hself, rfl, h.registered_kept hphase hregistered⟩
      · exact ⟨j, d, hother hj hd, rfl, hphase⟩
    · exact ⟨i, _, hself, rfl, hnext⟩
  · intro f flight hflight hair
    rcases h.airborne_origin hflight hair with ⟨old, hold, holdAir⟩ | hnext
    · obtain ⟨j, d, hd, hopen⟩ := hs.airborne f old hold holdAir
      by_cases hj : j = i
      · subst hj
        have heq : c = d := Option.some.inj (hc.symm.trans hd)
        subst heq
        exact ⟨j, _, hself, h.opened_kept hopen hflight hair⟩
      · exact ⟨j, d, hother hj hd, hopen⟩
    · exact ⟨i, _, hself, hnext⟩
  · intro f flight hflight hland herror
    exact hs.landed_turn (hs.agrees i c hc) h hflight hland herror

theorem start (cache : Cache) : Coherent (start cache : Sharing ε) := by
  constructor <;> simp [Sharing.start, field?]

theorem call (hs : Coherent s) (key : String) : Coherent (s.call key) := by
  constructor
  · intro j d hd
    rcases caller_of_call hd with rfl | hd
    · trivial
    · exact hs.agrees j d hd
  · intro j k d e f hd he hdf hef
    rcases caller_of_call hd with rfl | hd
    · simp [Phase.opened?] at hdf
    · rcases caller_of_call he with rfl | he
      · simp [Phase.opened?] at hef
      · exact hs.exclusive j k d e f hd he hdf hef
  · intro other f hregistered
    obtain ⟨j, d, hd, hkey, hphase⟩ := hs.registered other f hregistered
    exact ⟨j, d, caller_call key hd, hkey, hphase⟩
  · intro f flight hflight hair
    obtain ⟨j, d, hd, hopen⟩ := hs.airborne f flight hflight hair
    exact ⟨j, d, caller_call key hd, hopen⟩
  · exact hs.landed

/-- Every event keeps the invariant. -/
theorem event (hs : Coherent s) {event : Event ε} {s' : Sharing ε}
    (h : s.after? event = some s') : Coherent s' := by
  cases event with
  | call key =>
    cases h
    exact hs.call key
  | move i move =>
    obtain ⟨c, t, next, hc, hturn, rfl⟩ := turn_of_step h
    exact hs.turn hc hturn

/-- The invariant holds in every state that a run leads to. -/
theorem run (hs : Coherent s) {events : List (Event ε)} {s' : Sharing ε}
    (h : s.run? events = some s') : Coherent s' :=
  run_keeps (fun _ _ _ _ ht hstep => ht.event hstep) hs h

end Coherent

end AuditHours.Version.Sharing
