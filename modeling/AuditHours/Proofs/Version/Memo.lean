import AuditHours.Proofs.Version.Searching

/-!
Resolving constraints one after the other with one memory. What the memory knows is what earlier
lookups have settled: the builds they ended in, and that no release was found. So a lookup sends a
request exactly when nothing is settled for its constraint and the address of its catalog is
allowed. Failures of any other kind leave the memory as it is. The session of a request is not
looked into: its reply may be any answer, any error, or an interrupt.
-/
namespace AuditHours.Version

open Json Run

/-- One lookup: a resolver, a constraint, and the surroundings in which it is resolved. -/
structure Lookup where
  resolver : Resolver
  constraint : String
  before : World

namespace Lookup

def outcome (l : Lookup) : Except Failure Build :=
  ((l.resolver.resolve l.constraint).inWorld l.before).1

def after (l : Lookup) : World := ((l.resolver.resolve l.constraint).inWorld l.before).2

def reply (l : Lookup) : Http.Reply := l.before.network.next.1

/-- A lookup ends in a build, or in that no release satisfies a constraint. -/
def Settles (l : Lookup) : Prop :=
  (∃ build, l.outcome = .ok build) ∨ ∃ constraint, l.outcome = .error (.noRelease constraint)

end Lookup

/-- Lookups one after the other that share a memory, which is empty at first, and the memory they
leave. The network and all other surroundings may be any at each of them. -/
inductive Session : List Lookup → Cache → Prop
  | start : Session [] .empty
  | next {earlier : List Lookup} {l : Lookup} (h : Session earlier l.before.cache) :
      Session (earlier ++ [l]) l.after.cache

def ofKnown (constraint : String) : Option Build → Except Failure Build
  | some build => .ok build
  | none => .error (.noRelease constraint)

theorem inWorld_buildOf (constraint : String) (value : Option Build) (world : World) :
    (buildOf constraint value).inWorld world = (ofKnown constraint value, world) := by
  cases value <;> rfl

theorem ofKnown_inj {constraint : String} {v v' : Option Build}
    (h : ofKnown constraint v = ofKnown constraint v') : v = v' := by
  cases v <;> cases v' <;> simp_all [ofKnown]

namespace Lookup

variable {l : Lookup} {constraint : String} {value : Option Build}

theorem of_known (h : l.before.cache.find? l.constraint = some value) :
    l.outcome = ofKnown l.constraint value ∧ l.after.cache = l.before.cache ∧
      l.after.actions = l.before.actions := by
  have hrun : (l.resolver.resolve l.constraint).inWorld l.before =
      (ofKnown l.constraint value,
        { l.before with records := l.before.records ++ [hitRecord l.constraint] }) := by
    unfold Resolver.resolve findOrSearch
    rw [inWorld_bind_ok (inWorld_get _)]
    simp only [h]
    exact (inWorld_bind_ok rfl).trans (inWorld_buildOf ..)
  unfold outcome after
  rw [hrun]
  exact ⟨rfl, rfl, rfl⟩

/-- A lookup of a constraint that is not known searches for it and stores what is found. -/
theorem of_unknown (h : l.before.cache.find? l.constraint = none) :
    l.after.actions = l.before.actions ++ l.resolver.requests.map .get ∧
    match l.resolver.searched l.reply l.constraint with
    | .error failure => l.outcome = .error failure ∧ l.after.cache = l.before.cache
    | .ok value => l.outcome = ofKnown l.constraint value ∧
        l.after.cache = l.before.cache.store l.constraint value := by
  obtain ⟨network, records, hsearch⟩ := l.resolver.inWorld_search l.constraint l.before
  unfold outcome after reply Resolver.resolve findOrSearch
  rw [inWorld_bind_ok (inWorld_get _)]
  simp only [h]
  cases hresult : l.resolver.searched l.before.network.next.1 l.constraint with
  | error failure =>
    rw [hresult] at hsearch
    rw [inWorld_bind_error hsearch]
    exact ⟨rfl, rfl, rfl⟩
  | ok value =>
    rw [hresult] at hsearch
    rw [inWorld_bind_ok hsearch, inWorld_bind_ok (inWorld_modify _ _), inWorld_buildOf]
    exact ⟨rfl, rfl, rfl⟩

/-- How a lookup ends: it repeats what is known of its constraint, it stores what it has found, or
it fails in another way than by finding no release and stores nothing. -/
inductive Ending (l : Lookup) : Prop
  | known (value : Option Build) (hknown : l.before.cache.find? l.constraint = some value)
      (houtcome : l.outcome = ofKnown l.constraint value)
      (hcache : l.after.cache = l.before.cache)
  | stored (value : Option Build) (hunknown : l.before.cache.find? l.constraint = none)
      (houtcome : l.outcome = ofKnown l.constraint value)
      (hcache : l.after.cache = l.before.cache.store l.constraint value)
  | failed (failure : Failure) (hunknown : l.before.cache.find? l.constraint = none)
      (houtcome : l.outcome = .error failure) (hother : ∀ other, failure ≠ .noRelease other)
      (hcache : l.after.cache = l.before.cache)

theorem ending (l : Lookup) : l.Ending := by
  cases hknown : l.before.cache.find? l.constraint with
  | some value =>
    obtain ⟨houtcome, hcache, -⟩ := of_known hknown
    exact Ending.known value hknown houtcome hcache
  | none =>
    have hsearched := (of_unknown hknown).2
    split at hsearched
    · next failure hfailure =>
      refine Ending.failed failure hknown hsearched.1 ?_ hsearched.2
      rintro other rfl
      exact Resolver.searched_ne_noRelease hfailure
    · next value _ => exact Ending.stored value hknown hsearched.1 hsearched.2

/-- A lookup adds what it settles to what is known, and nothing else. -/
theorem find?_after : l.after.cache.find? constraint = some value ↔
    l.before.cache.find? constraint = some value ∨
      l.constraint = constraint ∧ l.outcome = ofKnown constraint value := by
  rcases l.ending with ⟨known, hknown, houtcome, hcache⟩ | ⟨found, hunknown, houtcome, hcache⟩ |
    ⟨failure, hunknown, houtcome, hother, hcache⟩
  · rw [hcache, houtcome]
    refine ⟨Or.inl, ?_⟩
    rintro (hold | ⟨rfl, hvalue⟩)
    · exact hold
    · rw [hknown, ofKnown_inj hvalue]
  · rw [hcache, houtcome]
    by_cases hsame : l.constraint = constraint
    · subst hsame
      have hmissing : l.before.cache.contains l.constraint = false := by
        simp [Cache.contains, hunknown]
      rw [Cache.find?_store_self hmissing, hunknown]
      constructor
      · intro hvalue
        rw [Option.some.inj hvalue]
        exact Or.inr ⟨rfl, rfl⟩
      · rintro (hold | ⟨-, hvalue⟩)
        · simp at hold
        · rw [ofKnown_inj hvalue]
    · simp [hsame, Ne.symm hsame]
  · rw [hcache, houtcome]
    refine ⟨Or.inl, ?_⟩
    rintro (hold | ⟨rfl, hvalue⟩)
    · exact hold
    · cases value with
      | some build => simp [ofKnown] at hvalue
      | none => exact absurd (Except.error.inj hvalue) (hother _)

theorem Settles.known (h : l.Settles) : ∃ value, l.outcome = ofKnown l.constraint value := by
  rcases l.ending with ⟨value, _, houtcome, _⟩ | ⟨value, _, houtcome, _⟩ |
    ⟨failure, _, houtcome, hother, _⟩
  · exact ⟨value, houtcome⟩
  · exact ⟨value, houtcome⟩
  · rcases h with ⟨build, hbuild⟩ | ⟨constraint, hnone⟩
    · rw [houtcome] at hbuild
      simp at hbuild
    · rw [houtcome] at hnone
      exact absurd (Except.error.inj hnone) (hother constraint)

theorem settles_of_known (h : l.outcome = ofKnown l.constraint value) : l.Settles := by
  cases value with
  | some build => exact Or.inl ⟨build, h⟩
  | none => exact Or.inr ⟨l.constraint, h⟩

theorem of_not_settles (h : ¬ l.Settles) :
    l.before.cache.find? l.constraint = none ∧ l.after.cache = l.before.cache := by
  rcases l.ending with ⟨value, _, houtcome, _⟩ | ⟨value, _, houtcome, _⟩ |
    ⟨failure, hunknown, _, _, hcache⟩
  · exact absurd (settles_of_known houtcome) h
  · exact absurd (settles_of_known houtcome) h
  · exact ⟨hunknown, hcache⟩

end Lookup

/-- What the memory of a session knows is what its lookups have settled. -/
theorem Session.find?_iff {earlier : List Lookup} {cache : Cache} (h : Session earlier cache)
    {constraint : String} {value : Option Build} :
    cache.find? constraint = some value ↔ ∃ first ∈ earlier, first.constraint = constraint ∧
      first.outcome = ofKnown constraint value := by
  -- each lookup adds to the memory what it settles
  induction h with
  | start => simp [Cache.find?, Cache.empty, field?]
  | @next earlier l _ ih =>
    rw [Lookup.find?_after, ih]
    simp only [List.mem_append, List.mem_singleton, or_and_right, exists_or, exists_eq_left]

/-! ### What a lookup finds -/

def textAt? (releases : Fields) (key : String) : Option String :=
  match field? releases key with
  | some (.str text) => some text
  | _ => none

/-- A catalog has a text, null or nothing under a key. -/
def Textual (releases : Fields) (key : String) : Prop :=
  ∀ v, field? releases key = some v → v = .null ∨ ∃ text, v = .str text

def Decided (releases : Fields) (constraint : String) : Prop :=
  Textual releases constraint ∧
    (textAt? releases constraint = none → Textual releases (Source.stripOperator constraint))

/-- The text that is used for a constraint: that of the constraint as it stands, else that of the
constraint without its operator. -/
def usedText? (releases : Fields) (constraint : String) : Option String :=
  (textAt? releases constraint).or (textAt? releases (Source.stripOperator constraint))

def buildOf? : Option String → Option Build
  | some fileName => if fileName = "" then none else some (Build.ofFileName fileName)
  | none => none

theorem Textual.getD {releases : Fields} {key : String} (h : Textual releases key) :
    (field? releases key).getD .null = (textAt? releases key).elim .null .str := by
  unfold textAt?
  cases hv : field? releases key with
  | none => rfl
  | some v => rcases h v hv with rfl | ⟨text, rfl⟩ <;> rfl

theorem entryFor_eq {releases : Fields} {constraint : String} (h : Decided releases constraint) :
    Resolver.entryFor releases constraint =
      (usedText? releases constraint).elim .null .str := by
  obtain ⟨hverbatim, hstripped⟩ := h
  unfold Resolver.entryFor usedText?
  cases hv : field? releases constraint with
  | none =>
    have hnone : textAt? releases constraint = none := by simp [textAt?, hv]
    simpa [hnone] using (hstripped hnone).getD
  | some v =>
    rcases hverbatim v hv with rfl | ⟨text, rfl⟩
    · have hnone : textAt? releases constraint = none := by simp [textAt?, hv]
      simpa [hnone] using (hstripped hnone).getD
    · have hsome : textAt? releases constraint = some text := by simp [textAt?, hv]
      simp [hsome]

theorem chosen_eq {releases : Fields} {constraint : String} (h : Decided releases constraint) :
    Resolver.chosen releases constraint = .ok (buildOf? (usedText? releases constraint)) := by
  unfold Resolver.chosen
  rw [entryFor_eq h]
  cases usedText? releases constraint with
  | none => simp [Value.isEmpty, buildOf?]
  | some text =>
    by_cases hempty : text = ""
    · simp [Value.isEmpty, buildOf?, hempty]
    · simp [Value.isEmpty, buildOf?, hempty]

/-! ### Lookups with a memory -/

namespace Lookup

/-- Some earlier lookup has settled the constraint. -/
def Known (earlier : List Lookup) (l : Lookup) : Prop :=
  ∃ first ∈ earlier, first.constraint = l.constraint ∧ first.Settles

def Allowed (l : Lookup) : Prop := Http.checkAddress l.resolver.url = .ok ()

def request (l : Lookup) : Http.Request :=
  ⟨l.resolver.client.session, l.resolver.url, [], l.resolver.client.timeout⟩

/-- How a lookup goes after earlier ones with the same memory. -/
structure Remembers (earlier : List Lookup) (l : Lookup) : Prop where
  /-- Outside a lookup does nothing but send requests for its catalog, at most one. It sends one
  exactly if the address of its catalog is allowed and nothing is settled for its constraint. -/
  requests : ∃ sent : List Http.Request, l.after.actions = l.before.actions ++ sent.map .get ∧
    sent.length ≤ 1 ∧ (∀ request ∈ sent, request = l.request) ∧
    (sent ≠ [] ↔ l.Allowed ∧ ¬ l.Known earlier)
  repeats : ∀ first ∈ earlier, first.constraint = l.constraint → first.Settles →
    l.outcome = first.outcome
  /-- A lookup that fetches a catalog with texts or null for its constraint ends in the build of the
  text that is used, or in that there is no release if there is no such text or an empty one, and
  records this for its constraint alone. -/
  found : ¬ l.Known earlier → l.Allowed → ∀ answer document releases,
    l.reply = .answer answer → answer.document = .ok document →
      Resolver.releasesOf? document = some releases → Decided releases l.constraint →
        l.outcome = ofKnown l.constraint (buildOf? (usedText? releases l.constraint)) ∧
        l.after.cache.find? l.constraint =
          some (buildOf? (usedText? releases l.constraint)) ∧
        ∀ other, other ≠ l.constraint →
          l.after.cache.find? other = l.before.cache.find? other
  unsettled : ¬ l.Settles → l.after.cache = l.before.cache
  retries : ¬ l.Settles → ∀ next : Lookup, next.before.cache = l.after.cache →
    next.constraint = l.constraint → next.Allowed →
      next.after.actions = next.before.actions ++ [.get next.request]

variable {earlier : List Lookup} {l : Lookup}

theorem known_iff (h : Session earlier l.before.cache) :
    l.Known earlier ↔ ∃ value, l.before.cache.find? l.constraint = some value := by
  simp only [h.find?_iff]
  constructor
  · rintro ⟨first, hfirst, hconstraint, hsettles⟩
    obtain ⟨value, hvalue⟩ := hsettles.known
    rw [hconstraint] at hvalue
    exact ⟨value, first, hfirst, hconstraint, hvalue⟩
  · rintro ⟨value, first, hfirst, hconstraint, hvalue⟩
    rw [← hconstraint] at hvalue
    exact ⟨first, hfirst, hconstraint, settles_of_known hvalue⟩

theorem find?_of_not_known (h : Session earlier l.before.cache) (hnew : ¬ l.Known earlier) :
    l.before.cache.find? l.constraint = none := by
  rw [known_iff h] at hnew
  exact Option.eq_none_iff_forall_ne_some.mpr fun value hvalue => hnew ⟨value, hvalue⟩

theorem searched_eq {answer : Http.Answer} {document : Value} {releases : Fields}
    (hallowed : l.Allowed) (hanswer : l.reply = .answer answer)
    (hdocument : answer.document = .ok document)
    (hreleases : Resolver.releasesOf? document = some releases)
    (hdecided : Decided releases l.constraint) :
    l.resolver.searched l.reply l.constraint =
      .ok (buildOf? (usedText? releases l.constraint)) := by
  have hfetched : Http.fetched l.reply l.resolver.url = .ok (.ok document) :=
    Http.fetched_eq_document.mpr ⟨hallowed, answer, hanswer, hdocument⟩
  have hlisted : l.resolver.listed l.reply = .ok releases := by
    simp [Resolver.listed, hfetched, hreleases]
  unfold Resolver.searched
  rw [hlisted]
  exact chosen_eq hdecided

theorem requests_of_allowed (h : l.Allowed) : l.resolver.requests = [l.request] :=
  Http.requests_of_allowed h

theorem eq_of_mem_requests {request : Http.Request} (h : request ∈ l.resolver.requests) :
    request = l.request := by
  have hallowed : l.Allowed := Http.requests_ne_nil.mp (List.ne_nil_of_mem h)
  rw [requests_of_allowed hallowed] at h
  exact List.mem_singleton.mp h

/-- Lookups with one memory remember what earlier ones have settled: a lookup sends a request
exactly if the address of its catalog is allowed and nothing is settled for its constraint, it
repeats what is settled, it records what it finds, and it leaves the memory alone if it fails in
another way. -/
theorem remembers (earlier : List Lookup) (l : Lookup) (h : Session earlier l.before.cache) :
    l.Remembers earlier where
  requests := by
    by_cases hknown : l.Known earlier
    · obtain ⟨value, hvalue⟩ := (known_iff h).mp hknown
      exact ⟨[], by simp [(of_known hvalue).2.2], by simp, nofun, by simp [hknown]⟩
    · refine ⟨l.resolver.requests, (of_unknown (find?_of_not_known h hknown)).1,
        Http.length_requests_le, fun _ => eq_of_mem_requests, ?_⟩
      unfold Resolver.requests Allowed
      rw [Http.requests_ne_nil]
      simp [hknown]
  repeats := by
    intro first hfirst hconstraint hsettles
    obtain ⟨value, hvalue⟩ := hsettles.known
    have hknown : l.before.cache.find? l.constraint = some value :=
      h.find?_iff.mpr ⟨first, hfirst, hconstraint, hconstraint ▸ hvalue⟩
    rw [hvalue, hconstraint]
    exact (of_known hknown).1
  found := by
    intro hnew hallowed answer document releases hanswer hdocument hreleases hdecided
    have hunknown := find?_of_not_known h hnew
    have hsearched := (of_unknown hunknown).2
    rw [searched_eq hallowed hanswer hdocument hreleases hdecided] at hsearched
    obtain ⟨houtcome, hcache⟩ := hsearched
    have hmissing : l.before.cache.contains l.constraint = false := by
      simp [Cache.contains, hunknown]
    refine ⟨houtcome, by simp [hcache, hmissing], ?_⟩
    intro other hother
    simp [hcache, hother]
  unsettled := fun hopen => (of_not_settles hopen).2
  retries := by
    intro hopen next hcache hconstraint hallowed
    obtain ⟨hunknown, hsame⟩ := of_not_settles hopen
    have hnext : next.before.cache.find? next.constraint = none := by
      rw [hcache, hsame, hconstraint, hunknown]
    rw [(of_unknown hnext).1, requests_of_allowed hallowed]
    rfl

end Lookup

/-! ### Two lookups -/

def worldOf (reply : Http.Reply) : World where
  tree := { workingDirectory := [], entries := [] }
  network := ⟨[reply]⟩
  toolchain := ⟨[], none, none, .interrupted⟩
  cache := .empty
  actions := []
  records := []

def listUrl : String := "https://solc.example/list.json"

def catalogReply : Http.Reply :=
  .answer ⟨listUrl, 200, "OK",
    "\x7b\"releases\": \x7b\"0.8.0\": \"soljson-v0.8.0+commit.c7dfd78e.js\"\x7d\x7d"⟩

def listedLookup : Lookup :=
  ⟨⟨listUrl, Http.Client.standard⟩, "0.8.0", worldOf catalogReply⟩

def repeatedLookup : Lookup :=
  { listedLookup with
    before := { listedLookup.after with network := ⟨[.answer ⟨listUrl, 503, "Unavailable", ""⟩]⟩ } }

/-- The first lookup ends in a build, and the second one in the same build without a request. -/
theorem remembers_repeated : Session [listedLookup] repeatedLookup.before.cache ∧
    repeatedLookup.Remembers [listedLookup] ∧
    listedLookup.outcome = .ok ⟨"v0.8.0+commit.c7dfd78e"⟩ ∧
    repeatedLookup.outcome = listedLookup.outcome ∧
    repeatedLookup.after.actions = repeatedLookup.before.actions := by
  have hsession : Session [listedLookup] repeatedLookup.before.cache := by
    have hstart : Session [] listedLookup.before.cache := Session.start
    have hnext : Session ([] ++ [listedLookup]) listedLookup.after.cache := Session.next hstart
    have hcache : repeatedLookup.before.cache = listedLookup.after.cache := by
      unfold repeatedLookup
      with_reducible rfl
    rw [hcache]
    exact hnext
  have houtcome : listedLookup.outcome = .ok ⟨"v0.8.0+commit.c7dfd78e"⟩ :=
    toOption_eq_some.mp (by decide +kernel)
  have hsettles : listedLookup.Settles := Or.inl ⟨_, houtcome⟩
  have hremembers := Lookup.remembers [listedLookup] repeatedLookup hsession
  refine ⟨hsession, hremembers, houtcome, ?_, ?_⟩
  · exact hremembers.repeats listedLookup (List.mem_singleton.mpr rfl) rfl hsettles
  · obtain ⟨sent, hsent, -, -, hiff⟩ := hremembers.requests
    have hknown : repeatedLookup.Known [listedLookup] :=
      ⟨listedLookup, List.mem_singleton.mpr rfl, rfl, hsettles⟩
    have hnone : sent = [] := by simpa [hknown] using hiff
    rw [hsent, hnone]
    exact List.append_nil _

end AuditHours.Version
