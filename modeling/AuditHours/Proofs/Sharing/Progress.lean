import AuditHours.Proofs.Sharing.Coherence

/-!
No call waits in vain. A flight that a call waits on has landed or still belongs to the one call
that opened it, so some call can always take a step. A call that wakes from a flight without an
error finds its key stored at its next look and ends there.
-/
namespace AuditHours.Version.Sharing

open Json

variable {ε : Type}

/-- What keeps the calls of a cache going. -/
structure Unstranded (s : Sharing ε) : Prop where
  waiter_awaited : ∀ (i : Nat) (c : Caller ε) (f : Nat), s.callers[i]? = some c →
    c.phase = .waiting f →
      (∃ flight, s.flights[f]? = some flight ∧ flight.landed = true) ∨
      ∃ (j : Nat) (d : Caller ε), s.callers[j]? = some d ∧ d.phase.opened? = some f ∧
        ∀ (k : Nat) (e : Caller ε), s.callers[k]? = some e → e.phase.opened? = some f → k = j
  /-- A call that wakes from a flight without an error never owns or waits again: it is at its next
  look, which ends it with the stored entry of its key, or it has ended so. -/
  waker_served : ∀ (i : Nat) (c : Caller ε) (f : Nat) (flight : Flight ε),
    s.callers[i]? = some c → c.phase = .waiting f → s.flights[f]? = some flight →
      flight.landed = true → flight.error? = none →
        ∃ (woken : Sharing ε) (value : Option Build), s.step i .proceed = some woken ∧
          ∀ (events : List (Event ε)) (later : Sharing ε), woken.run? events = some later →
            later.cache.find? c.key = some value ∧
              ((later.callers[i]? = some ⟨c.key, .arriving⟩ ∧
                ∃ ended, later.step i .proceed = some ended ∧
                  ended.callers[i]? = some ⟨c.key, .finished (.ofEntry value)⟩) ∨
                later.callers[i]? = some ⟨c.key, .finished (.ofEntry value)⟩)
  progress : ∀ (i : Nat) (c : Caller ε), s.callers[i]? = some c →
    (∀ ending, c.phase ≠ .finished ending) →
      ∃ (j : Nat) (move : Move ε) (next : Sharing ε), s.step j move = some next

variable {s : Sharing ε} {i : Nat} {c : Caller ε}

/-- A call that neither waits nor has ended can take a turn. -/
theorem exists_turn (s : Sharing ε) (key : String) (phase : Phase ε)
    (hwaiting : ∀ f, phase ≠ .waiting f) (hended : ∀ ending, phase ≠ .finished ending) :
    ∃ (move : Move ε) (t : Sharing ε) (next : Phase ε), Turn s key phase move t next := by
  cases phase with
  | arriving =>
    cases hstored : s.cache.find? key with
    | some value => exact ⟨_, _, _, .hit value hstored⟩
    | none =>
      cases hregistered : field? s.registered key with
      | some f => exact ⟨_, _, _, .join f hstored hregistered⟩
      | none => exact ⟨_, _, _, .enroll hstored hregistered⟩
  | waiting f => exact absurd rfl (hwaiting f)
  | owning f => exact ⟨_, _, _, .search f⟩
  | searching f => exact ⟨_, _, _, .returns f none⟩
  | returned f value => exact ⟨_, _, _, .store f value⟩
  | raised f error => exact ⟨_, _, _, .remove f error⟩
  | stored f value => exact ⟨_, _, _, .landStored f value⟩
  | removed f error => exact ⟨_, _, _, .landRemoved f error⟩
  | finished ending => exact absurd rfl (hended ending)

/-- A call that waits on a landed flight can take a turn. -/
theorem exists_turn_of_landed (key : String) {f : Nat} {flight : Flight ε}
    (hflight : s.flights[f]? = some flight) (hlanded : flight.landed = true) :
    ∃ (move : Move ε) (t : Sharing ε) (next : Phase ε), Turn s key (.waiting f) move t next := by
  cases herror : flight.error? with
  | none => exact ⟨_, _, _, .wake f flight hflight hlanded herror⟩
  | some error => exact ⟨_, _, _, .wakeFailed f flight error hflight hlanded herror⟩

/-- A call whose key is stored is about to look at the cache or has ended with the entry. -/
def Served (s : Sharing ε) (i : Nat) (key : String) (value : Option Build) : Prop :=
  s.cache.find? key = some value ∧
    (s.callers[i]? = some ⟨key, .arriving⟩ ∨
      s.callers[i]? = some ⟨key, .finished (.ofEntry value)⟩)

/-- Every event keeps a served call served. -/
theorem Served.event {key : String} {value : Option Build} {event : Event ε} {s' : Sharing ε}
    (hs : s.Served i key value) (h : s.after? event = some s') : s'.Served i key value := by
  obtain ⟨hvalue, hcaller⟩ := hs
  cases event with
  | call other =>
    cases h
    exact ⟨hvalue, hcaller.imp (caller_call other) (caller_call other)⟩
  | move j move =>
    obtain ⟨d, t, next, hd, hturn, rfl⟩ := turn_of_step h
    refine ⟨hturn.find?_stored hvalue, ?_⟩
    by_cases hj : i = j
    · subst hj
      rcases hcaller with hc | hc
      · have heq : d = ⟨key, .arriving⟩ := Option.some.inj (hd.symm.trans hc)
        subst heq
        have ht : t.callers[i]? = some ⟨key, .arriving⟩ := by rw [hturn.callers_eq, hd]
        cases hturn with
        | hit found hfound =>
          have heq : found = value := Option.some.inj (hfound.symm.trans hvalue)
          subst heq
          exact Or.inr (caller_setPhase_self _ ht)
        | join _ hnone _ | enroll hnone _ => simp [hvalue] at hnone
      · have heq : d = ⟨key, .finished (.ofEntry value)⟩ := Option.some.inj (hd.symm.trans hc)
        subst heq
        cases hturn
    · rw [caller_setPhase_of_ne t next hj, hturn.callers_eq]
      exact hcaller

namespace Coherent

/-- A flight that a call waits on has landed or is open for exactly one call. -/
theorem awaited (hs : Coherent s) {f : Nat} (hc : s.callers[i]? = some c)
    (hphase : c.phase = .waiting f) :
    (∃ flight, s.flights[f]? = some flight ∧ flight.landed = true) ∨
      ∃ (j : Nat) (d : Caller ε), s.callers[j]? = some d ∧ d.phase.opened? = some f ∧
        ∀ (k : Nat) (e : Caller ε), s.callers[k]? = some e → e.phase.opened? = some f → k = j := by
  have hagrees := hs.agrees i c hc
  rw [hphase] at hagrees
  obtain ⟨flight, hflight, -⟩ := hagrees
  by_cases hlanded : flight.landed = true
  · exact Or.inl ⟨flight, hflight, hlanded⟩
  · obtain ⟨j, d, hd, hopen⟩ := hs.airborne f flight hflight (by simpa using hlanded)
    refine Or.inr ⟨j, d, hd, hopen, ?_⟩
    intro k e he hopen'
    exact hs.exclusive k j e d f he hd hopen' hopen

/-- While a call has not ended, some call can take a step. -/
theorem progress (hs : Coherent s) (hc : s.callers[i]? = some c)
    (hended : ∀ ending, c.phase ≠ .finished ending) :
    ∃ (j : Nat) (move : Move ε) (next : Sharing ε), s.step j move = some next := by
  by_cases hwaiting : ∃ f, c.phase = .waiting f
  · obtain ⟨f, hphase⟩ := hwaiting
    rcases hs.awaited hc hphase with ⟨flight, hflight, hlanded⟩ | ⟨j, d, hd, hopen, -⟩
    · obtain ⟨move, t, next, hturn⟩ := exists_turn_of_landed c.key hflight hlanded
      rw [← hphase] at hturn
      exact ⟨i, move, _, step_of_turn hc hturn⟩
    · obtain ⟨move, t, next, hturn⟩ := exists_turn s d.key d.phase
        (fun g hg => by simp [hg, Phase.opened?] at hopen)
        (fun ending hending => by simp [hending, Phase.opened?] at hopen)
      exact ⟨j, move, _, step_of_turn hd hturn⟩
  · obtain ⟨move, t, next, hturn⟩ :=
      exists_turn s c.key c.phase (fun f hf => hwaiting ⟨f, hf⟩) hended
    exact ⟨i, move, _, step_of_turn hc hturn⟩

/-- A call that wakes from a flight without an error is served. -/
theorem served (hs : Coherent s) {f : Nat} {flight : Flight ε} (hc : s.callers[i]? = some c)
    (hphase : c.phase = .waiting f) (hflight : s.flights[f]? = some flight)
    (hlanded : flight.landed = true) (herror : flight.error? = none) :
    ∃ value, (s.setPhase i .arriving).Served i c.key value := by
  have hagrees := hs.agrees i c hc
  rw [hphase] at hagrees
  obtain ⟨same, hsame, hkey⟩ := hagrees
  have heq : same = flight := Option.some.inj (hsame.symm.trans hflight)
  subst heq
  obtain ⟨value, hvalue⟩ := hs.landed f same hflight hlanded herror
  rw [hkey] at hvalue
  exact ⟨value, hvalue, Or.inl (caller_setPhase_self .arriving hc)⟩

end Coherent

/-- No call that shares a cache waits in vain, in every state that a run leads to. -/
theorem no_stranded_waiter {cache : Cache} {events : List (Event ε)}
    (hrun : (start cache).run? events = some s) : Unstranded s := by
  have hs : Coherent s := (Coherent.start cache).run hrun
  constructor
  · intro i c f hc hphase
    exact hs.awaited hc hphase
  · intro i c f flight hc hphase hflight hlanded herror
    obtain ⟨value, hserved⟩ := hs.served hc hphase hflight hlanded herror
    have hwake : Turn s c.key c.phase .proceed s .arriving := by
      rw [hphase]
      exact .wake f flight hflight hlanded herror
    refine ⟨_, value, step_of_turn hc hwake, ?_⟩
    intro events later hlater
    obtain ⟨hvalue, hcaller⟩ := run_keeps (P := fun t => t.Served i c.key value)
      (fun _ _ _ _ ht hstep => ht.event hstep) hserved hlater
    refine ⟨hvalue, hcaller.imp_left fun hlook => ?_⟩
    refine ⟨hlook, _, step_of_turn hlook (.hit value hvalue), ?_⟩
    exact caller_setPhase_self (c := ⟨c.key, .arriving⟩) _ hlook
  · intro i c hc hended
    exact hs.progress hc hended

/-- A run in which a call waits while another one searches and then wakes to a stored build. -/
def awaitedRun : List (Event String) :=
  [.call "^0.8.0", .call "^0.8.0", .move 0 .proceed, .move 1 .proceed, .move 0 .proceed,
    .move 0 (.returns (some ⟨"v0.8.0+commit.c7dfd78e"⟩)), .move 0 .proceed]

theorem no_stranded_waiter_awaited :
    ∃ s, (start .empty).run? awaitedRun = some s ∧
      (∃ c, s.callers[1]? = some c ∧ c.phase = .waiting 0) ∧ Unstranded s :=
  ⟨_, rfl, ⟨_, rfl, rfl⟩, @no_stranded_waiter String _ .empty awaitedRun rfl⟩

end AuditHours.Version.Sharing
