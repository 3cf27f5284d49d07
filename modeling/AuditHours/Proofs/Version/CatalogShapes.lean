import AuditHours.Proofs.Version.Memo
import Mathlib.Tactic.ByContra
import Mathlib.Tactic.Push

/-!
What a lookup makes of a catalog of any shape. A catalog that is no object, or whose releases are
none, counts as one that cannot be loaded. The entries of the releases are not checked before they
are used: an entry that is neither empty nor a text ends the lookup in a failure that is none of its
own.
-/
namespace AuditHours.Version

open Json

/-- An entry decides a constraint: it stands under the constraint as it is, or under the constraint
without its operator if the former has nothing or null. -/
inductive Decides (releases : Fields) (constraint : String) : Value → Prop
  | verbatim {v : Value} (hentry : field? releases constraint = some v) (hvalue : v ≠ .null) :
      Decides releases constraint v
  | stripped {v : Value} (hnone : ∀ w, field? releases constraint = some w → w = .null)
      (hentry : field? releases (Source.stripOperator constraint) = some v) :
      Decides releases constraint v

/-- A value that an entry may have: a text, or one that counts as nothing. -/
def Usable (v : Value) : Prop := v.isEmpty = true ∨ ∃ text, v = .str text

theorem entryFor_of_decides {releases : Fields} {constraint : String} {v : Value}
    (h : Decides releases constraint v) : Resolver.entryFor releases constraint = v := by
  unfold Resolver.entryFor
  rcases h with ⟨hentry, hvalue⟩ | ⟨hnone, hentry⟩
  · rw [hentry]
    cases v with
    | null => exact absurd rfl hvalue
    | bool | int | real | str | arr | obj => rfl
  · cases hverbatim : field? releases constraint with
    | none => simp [hentry]
    | some w => simp [hnone w hverbatim, hentry]

/-- Where no entry decides a constraint, its entry counts as null. -/
theorem decides_entryFor (releases : Fields) (constraint : String) :
    Decides releases constraint (Resolver.entryFor releases constraint) ∨
      Resolver.entryFor releases constraint = .null := by
  by_cases hverbatim : ∀ w, field? releases constraint = some w → w = .null
  · cases hentry : field? releases (Source.stripOperator constraint) with
    | some v =>
      have hdecides := Decides.stripped hverbatim hentry
      rw [entryFor_of_decides hdecides]
      exact Or.inl hdecides
    | none =>
      refine Or.inr ?_
      unfold Resolver.entryFor
      cases hw : field? releases constraint with
      | none => simp [hentry]
      | some w => simp [hverbatim w hw, hentry]
  · push Not at hverbatim
    obtain ⟨w, hentry, hvalue⟩ := hverbatim
    have hdecides := Decides.verbatim hentry hvalue
    rw [entryFor_of_decides hdecides]
    exact Or.inl hdecides

theorem chosen_of_unusable {releases : Fields} {constraint : String}
    (h : ¬ Usable (Resolver.entryFor releases constraint)) :
    Resolver.chosen releases constraint = .error (.shape .noFields) := by
  unfold Usable at h
  push Not at h
  obtain ⟨hfilled, htext⟩ := h
  unfold Resolver.chosen
  rw [if_neg hfilled]
  cases hentry : Resolver.entryFor releases constraint with
  | str text => exact absurd hentry (htext text)
  | null | bool | int | real | arr | obj => rfl

namespace Lookup

variable {l : Lookup} {releases : Fields}

structure Loads (l : Lookup) (releases : Fields) : Prop where
  unknown : l.before.cache.find? l.constraint = none
  allowed : l.Allowed
  document : ∃ answer document, l.reply = .answer answer ∧ answer.document = .ok document ∧
    document.get? "releases" = some (.obj releases)

structure Interrupted (l : Lookup) : Prop where
  unknown : l.before.cache.find? l.constraint = none
  allowed : l.Allowed
  reply : l.reply = .interrupted

/-- A lookup ends in a build, in that no release satisfies its constraint, or in that its catalog
cannot be loaded. -/
def EndsAsDocumented (l : Lookup) : Prop :=
  (∃ build, l.outcome = .ok build) ∨ l.outcome = .error (.noRelease l.constraint) ∨
    ∃ cause, l.outcome = .error (.catalog l.resolver.url cause)

/-- The releases that a lookup gets have an entry for its constraint that cannot be used. -/
def Misled (l : Lookup) : Prop :=
  ∃ releases, l.Loads releases ∧ ∃ v, Decides releases l.constraint v ∧ ¬ Usable v

/-- How a lookup ends, by what the network replies. -/
structure EndsByCatalog (l : Lookup) : Prop where
  /-- A lookup ends as documented unless an entry misleads it or the user interrupts it. -/
  documented : l.EndsAsDocumented ↔ ¬ l.Misled ∧ ¬ l.Interrupted
  unloaded : l.before.cache.find? l.constraint = none → ¬ l.Interrupted →
    (∀ releases, ¬ l.Loads releases) →
      ∃ cause, l.outcome = .error (.catalog l.resolver.url cause)
  named : ∀ releases text, l.Loads releases → Decides releases l.constraint (.str text) →
    text ≠ "" → l.outcome = .ok (Build.ofFileName text)
  missing : ∀ releases, l.Loads releases →
    (∀ v, Decides releases l.constraint v → v.isEmpty = true) →
      l.outcome = .error (.noRelease l.constraint)
  escapes : l.Misled → l.outcome = .error (.shape .noFields) ∧ l.after.cache = l.before.cache
  interrupted : l.Interrupted → l.outcome = .error .interrupted ∧ l.after.cache = l.before.cache

theorem Loads.listed (h : l.Loads releases) : l.resolver.listed l.reply = .ok releases := by
  obtain ⟨answer, document, hanswer, hdocument, hreleases⟩ := h.document
  have hfetched := Http.fetched_eq_document.mpr ⟨h.allowed, answer, hanswer, hdocument⟩
  simp [Resolver.listed, hfetched, Resolver.releasesOf?, hreleases]

theorem releasesOf?_eq_some {document : Value} (h : Resolver.releasesOf? document = some releases) :
    document.get? "releases" = some (.obj releases) := by
  unfold Resolver.releasesOf? at h
  split at h
  · next hobject => rwa [← Option.some.inj h]
  · simp at h

theorem loads_of_listed (hunknown : l.before.cache.find? l.constraint = none)
    (h : l.resolver.listed l.reply = .ok releases) : l.Loads releases := by
  unfold Resolver.listed at h
  split at h
  · simp at h
  · simp at h
  · next document hfetched =>
    obtain ⟨hallowed, answer, hanswer, hdocument⟩ := Http.fetched_eq_document.mp hfetched
    split at h
    · next hreleases =>
      obtain rfl := Except.ok.inj h
      exact ⟨hunknown, hallowed, answer, document, hanswer, hdocument,
        releasesOf?_eq_some hreleases⟩
    · simp at h

/-- A lookup that gets no releases fails over its catalog unless it is interrupted. -/
theorem outcome_of_not_loads (hunknown : l.before.cache.find? l.constraint = none)
    (hheard : ¬ l.Interrupted) (h : ∀ releases, ¬ l.Loads releases) :
    ∃ cause, l.outcome = .error (.catalog l.resolver.url cause) := by
  have hsearched := (of_unknown hunknown).2
  unfold Resolver.searched at hsearched
  cases hlisted : l.resolver.listed l.reply with
  | ok releases => exact absurd (loads_of_listed hunknown hlisted) (h releases)
  | error failure =>
    simp only [hlisted] at hsearched
    obtain ⟨cause, rfl⟩ | ⟨hallowed, hreply, -⟩ := Resolver.listed_eq_error hlisted
    · exact ⟨cause, hsearched.1⟩
    · exact absurd ⟨hunknown, hallowed, hreply⟩ hheard

theorem Interrupted.ends (h : l.Interrupted) :
    l.outcome = .error .interrupted ∧ l.after.cache = l.before.cache := by
  have hfetched := Http.fetched_eq_error.mpr ⟨h.allowed, h.reply, rfl⟩
  have hsearched := (of_unknown h.unknown).2
  have heq : l.resolver.searched l.reply l.constraint = .error .interrupted := by
    simp [Resolver.searched, Resolver.listed, hfetched]
  rw [heq] at hsearched
  exact hsearched

/-- What a lookup that gets releases ends in is what its constraint comes to in them. -/
theorem Loads.ends (h : l.Loads releases) :
    match Resolver.chosen releases l.constraint with
    | .error failure => l.outcome = .error failure ∧ l.after.cache = l.before.cache
    | .ok value => l.outcome = ofKnown l.constraint value := by
  have hsearched := (of_unknown h.unknown).2
  have heq : l.resolver.searched l.reply l.constraint =
      Resolver.chosen releases l.constraint := by
    unfold Resolver.searched
    rw [h.listed]
  rw [heq] at hsearched
  cases hchosen : Resolver.chosen releases l.constraint with
  | error failure =>
    rw [hchosen] at hsearched
    exact hsearched
  | ok value =>
    rw [hchosen] at hsearched
    exact hsearched.1

theorem Loads.outcome_text (h : l.Loads releases) {text : String}
    (hentry : Resolver.entryFor releases l.constraint = .str text) (htext : text ≠ "") :
    l.outcome = .ok (Build.ofFileName text) := by
  have hchosen : Resolver.chosen releases l.constraint =
      .ok (some (Build.ofFileName text)) := by
    simp [Resolver.chosen, hentry, Value.isEmpty, htext]
  have hends := h.ends
  rw [hchosen] at hends
  exact hends

theorem Loads.outcome_empty (h : l.Loads releases)
    (hempty : (Resolver.entryFor releases l.constraint).isEmpty = true) :
    l.outcome = .error (.noRelease l.constraint) := by
  have hchosen : Resolver.chosen releases l.constraint = .ok none := by
    simp [Resolver.chosen, hempty]
  have hends := h.ends
  rw [hchosen] at hends
  exact hends

theorem Loads.outcome_unusable (h : l.Loads releases)
    (hunusable : ¬ Usable (Resolver.entryFor releases l.constraint)) :
    l.outcome = .error (.shape .noFields) ∧ l.after.cache = l.before.cache := by
  have hends := h.ends
  rw [chosen_of_unusable hunusable] at hends
  exact hends

theorem Misled.escapes (h : l.Misled) :
    l.outcome = .error (.shape .noFields) ∧ l.after.cache = l.before.cache := by
  obtain ⟨releases, hloads, v, hdecides, hunusable⟩ := h
  rw [← entryFor_of_decides hdecides] at hunusable
  exact hloads.outcome_unusable hunusable

theorem not_endsAsDocumented {failure : Failure} (houtcome : l.outcome = .error failure)
    (hrelease : failure ≠ .noRelease l.constraint)
    (hcatalog : ∀ cause, failure ≠ .catalog l.resolver.url cause) : ¬ l.EndsAsDocumented := by
  rintro (⟨build, hbuild⟩ | hnone | ⟨cause, hunloaded⟩)
  · simp [houtcome] at hbuild
  · exact hrelease (by simpa [houtcome] using hnone)
  · exact hcatalog cause (by simpa [houtcome] using hunloaded)

theorem not_endsAsDocumented_of_misled (h : l.Misled) : ¬ l.EndsAsDocumented :=
  not_endsAsDocumented h.escapes.1 (by simp) (by simp)

theorem endsAsDocumented_of_known {value : Option Build}
    (h : l.before.cache.find? l.constraint = some value) : l.EndsAsDocumented := by
  have houtcome := (of_known h).1
  cases value with
  | some build => exact Or.inl ⟨build, houtcome⟩
  | none => exact Or.inr (Or.inl houtcome)

theorem endsAsDocumented_of_not_misled (h : ¬ l.Misled) (hheard : ¬ l.Interrupted) :
    l.EndsAsDocumented := by
  cases hknown : l.before.cache.find? l.constraint with
  | some value => exact endsAsDocumented_of_known hknown
  | none =>
    by_cases hloads : ∃ releases, l.Loads releases
    · obtain ⟨releases, hloads⟩ := hloads
      by_cases hempty : (Resolver.entryFor releases l.constraint).isEmpty = true
      · exact Or.inr (Or.inl (hloads.outcome_empty hempty))
      · rcases decides_entryFor releases l.constraint with hdecides | hnull
        · have husable : Usable (Resolver.entryFor releases l.constraint) := by
            by_contra hunusable
            exact h ⟨releases, hloads, _, hdecides, hunusable⟩
          obtain ⟨text, htext⟩ := husable.resolve_left hempty
          refine Or.inl ⟨_, hloads.outcome_text htext ?_⟩
          rintro rfl
          exact hempty (by rw [htext]; rfl)
        · exact absurd (by rw [hnull]; rfl) hempty
    · push Not at hloads
      exact Or.inr (Or.inr (outcome_of_not_loads hknown hheard hloads))

/-- A lookup ends in a build or in one of its documented failures, whatever the network replies,
unless the catalog holds an entry for its constraint that is neither empty nor a text, or the user
interrupts it. -/
theorem ends_by_catalog (l : Lookup) : l.EndsByCatalog where
  documented := by
    constructor
    · intro hdocumented
      exact ⟨fun hmisled => not_endsAsDocumented_of_misled hmisled hdocumented,
        fun hinterrupted => not_endsAsDocumented hinterrupted.ends.1 (by simp) (by simp)
          hdocumented⟩
    · rintro ⟨hmisled, hheard⟩
      exact endsAsDocumented_of_not_misled hmisled hheard
  unloaded := outcome_of_not_loads
  named := fun _ _ hloads hdecides htext =>
    hloads.outcome_text (entryFor_of_decides hdecides) htext
  missing := by
    intro releases hloads hall
    apply hloads.outcome_empty
    rcases decides_entryFor releases l.constraint with hdecides | hnull
    · exact hall _ hdecides
    · rw [hnull]
      rfl
  escapes := Misled.escapes
  interrupted := Interrupted.ends

end Lookup

def numberedLookup : Lookup :=
  { listedLookup with
    before := worldOf (.answer
      ⟨listUrl, 200, "OK", "\x7b\"releases\": \x7b\"0.8.0\": 5\x7d\x7d"⟩) }

def numbered? : Except Failure (List (String × Value)) → Option (String × Int)
  | .ok [(name, .int n)] => some (name, n)
  | _ => none

theorem numbered?_eq_some {listed : Except Failure (List (String × Value))} {name : String}
    {n : Int} (h : numbered? listed = some (name, n)) : listed = .ok [(name, .int n)] := by
  unfold numbered? at h
  split at h
  · obtain ⟨rfl, rfl⟩ : _ ∧ _ := by simpa using h
    rfl
  · simp at h

/-- An entry that is a number ends a lookup in none of its documented ways. -/
theorem numbered_entry_escapes : numberedLookup.outcome = .error (.shape .noFields) ∧
    ¬ numberedLookup.EndsAsDocumented := by
  have hread : numbered? (numberedLookup.resolver.listed numberedLookup.reply) =
      some ("0.8.0", 5) := by decide +kernel
  have hlisted := numbered?_eq_some hread
  have hloads : numberedLookup.Loads [("0.8.0", .int 5)] := Lookup.loads_of_listed rfl hlisted
  have hdecides : Decides [("0.8.0", .int 5)] numberedLookup.constraint (.int 5) :=
    Decides.verbatim rfl (by simp)
  have hunusable : ¬ Usable (.int 5) := by simp [Usable, Value.isEmpty]
  have hmisled : numberedLookup.Misled := ⟨_, hloads, _, hdecides, hunusable⟩
  exact ⟨hmisled.escapes.1, Lookup.not_endsAsDocumented_of_misled hmisled⟩

end AuditHours.Version
