import AuditHours.Proofs.Import.Exploration
import AuditHours.Proofs.Import.Gathering
import AuditHours.Proofs.Json.Fields

/-!
What a walk has gathered when it ends: the closure of the entry under imports. The units found are
those that can be reached, the failed names are those that a found unit imports and the resolver
rejects, and the names asked for are these units and names without the entry. So a walk in any other
order gathers the same, and so does the stage that gathers the imports of a contract.
-/
namespace AuditHours.Import.Walk

open Json Relation

variable {resolve : String → Except String String} {read read' : String → Reading}
  {entry text importer name found marker : String} {w v : Walk} {limit : Nat}

/-! ### A walk that has ended -/

namespace Sound

theorem sources_nodup (hw : Sound resolve entry text w) : (w.sources.map Prod.fst).Nodup :=
  (List.nodup_append.mp (hw.counted.nodup_iff.mpr hw.once)).1

theorem errors_nodup (hw : Sound resolve entry text w) : (w.errors.map Prod.fst).Nodup :=
  (List.nodup_append.mp (hw.counted.nodup_iff.mpr hw.once)).2.1

theorem sources_ne_errors (hw : Sound resolve entry text w)
    (hsource : name ∈ w.sources.map Prod.fst) : name ∉ w.errors.map Prod.fst := fun herror =>
  (List.nodup_append.mp (hw.counted.nodup_iff.mpr hw.once)).2.2 name hsource name herror rfl

theorem errors_ne_entry (hw : Sound resolve entry text w) (herror : name ∈ w.errors.map Prod.fst) :
    name ≠ entry := by
  rintro rfl
  exact hw.sources_ne_errors (List.mem_map_of_mem hw.entered) herror

theorem mem_asked_iff (hw : Sound resolve entry text w) :
    name ∈ w.asked ↔ name ≠ entry ∧ w.knows name = true := by
  rw [hw.knows_iff_asked]
  constructor
  · intro hasked
    refine ⟨?_, Or.inr hasked⟩
    rintro rfl
    exact (List.nodup_cons.mp hw.once).1 hasked
  · rintro ⟨hother, hself | hasked⟩
    · exact absurd hself hother
    · exact hasked

end Sound

structure Ended (resolve : String → Except String String) (entry text : String) (w : Walk) :
    Prop where
  sound : Sound resolve entry text w
  known : ∀ unit ∈ w.sources, ∀ name ∈ imported unit.1 unit.2, w.knows name = true

theorem Takes.ended (hw : Takes (answering resolve) entry text w) (hpending : w.pending = []) :
    Ended resolve entry text w := by
  obtain ⟨hsound, hcovered⟩ := hw.explores
  refine ⟨hsound, fun unit hunit name hname => ?_⟩
  rcases hcovered unit hunit with hwaits | hdone
  · simp [hpending] at hwaits
  · exact hsound.settled_iff.mp (hdone name hname)

namespace Ended

/-- All that a unit found imports was asked for, but for the entry. -/
theorem mem_asked (hw : Ended resolve entry text w) (himporter : (importer, found) ∈ w.sources)
    (himported : name ∈ imported importer found) (hname : name ≠ entry) : name ∈ w.asked :=
  hw.sound.mem_asked_iff.mpr ⟨hname, hw.known _ himporter name himported⟩

theorem closed (hw : Ended resolve entry text w) (himporter : importer ∈ w.sources.map Prod.fst)
    (himports : Imports resolve entry text importer name)
    (htext : (textOf? resolve entry text name).isSome) : name ∈ w.sources.map Prod.fst := by
  obtain ⟨unit, hunit, rfl⟩ := List.mem_map.mp himporter
  have hname := (imports_iff (hw.sound.found unit hunit).1).mp himports
  rcases knows_iff.mp (hw.known unit hunit name hname) with hsource | herror
  · exact hsource
  · obtain ⟨failure, hfailure, rfl⟩ := List.mem_map.mp herror
    have hother := hw.sound.errors_ne_entry herror
    rw [textOf?_of_ne hother, (hw.sound.failed failure hfailure).1] at htext
    simp [Except.toOption] at htext

/-- The units found are those that can be reached. -/
theorem mem_sources_iff (hw : Ended resolve entry text w) :
    name ∈ w.sources.map Prod.fst ↔ Reachable resolve entry text name := by
  constructor
  · intro hname
    obtain ⟨unit, hunit, rfl⟩ := List.mem_map.mp hname
    exact (hw.sound.found unit hunit).2
  · -- along the path the entry is found, and what is found is closed under imports
    intro hreached
    induction hreached with
    | refl => exact List.mem_map_of_mem hw.sound.entered
    | tail _ hstep ih => exact hw.closed ih hstep.1 hstep.2

theorem source_eq_some_iff (hw : Ended resolve entry text w) :
    field? w.sources name = some found ↔
      Reachable resolve entry text name ∧ textOf? resolve entry text name = some found := by
  rw [field?_eq_some_iff hw.sound.sources_nodup, ← hw.mem_sources_iff]
  constructor
  · intro hmem
    exact ⟨List.mem_map_of_mem hmem, (hw.sound.found _ hmem).1⟩
  · rintro ⟨hname, htext⟩
    obtain ⟨unit, hunit, rfl⟩ := List.mem_map.mp hname
    rw [(hw.sound.found unit hunit).1, Option.some.injEq] at htext
    rwa [← htext]

/-- The names that fail are those that a reachable unit imports and the resolver rejects. -/
theorem error_eq_some_iff (hw : Ended resolve entry text w) :
    field? w.errors name = some marker ↔ name ≠ entry ∧ resolve name = .error marker ∧
      ∃ importer, Reachable resolve entry text importer ∧
        Imports resolve entry text importer name := by
  rw [field?_eq_some_iff hw.sound.errors_nodup]
  constructor
  · intro hmem
    obtain ⟨herror, unit, hunit, himport⟩ := hw.sound.failed _ hmem
    obtain ⟨htext, hreached⟩ := hw.sound.found unit hunit
    exact ⟨hw.sound.errors_ne_entry (List.mem_map_of_mem hmem), herror, unit.1, hreached,
      (imports_iff htext).mpr himport⟩
  · rintro ⟨hother, herror, importer, hreached, himports⟩
    obtain ⟨unit, hunit, rfl⟩ := List.mem_map.mp (hw.mem_sources_iff.mpr hreached)
    have hname := (imports_iff (hw.sound.found unit hunit).1).mp himports
    rcases knows_iff.mp (hw.known unit hunit name hname) with hsource | hfailed
    · -- a found unit other than the entry has a text, and this one has none
      obtain ⟨source, hmem, rfl⟩ := List.mem_map.mp hsource
      have htext := (hw.sound.found source hmem).1
      rw [textOf?_of_ne hother, herror] at htext
      simp [Except.toOption] at htext
    · obtain ⟨failure, hmem, rfl⟩ := List.mem_map.mp hfailed
      have hmarker := (hw.sound.failed failure hmem).1
      rw [herror, Except.error.injEq] at hmarker
      rwa [hmarker]

/-- Two walks that have ended have gathered the same, in whatever order they took the units. -/
theorem gathers_same (hw : Ended resolve entry text w) (hv : Ended resolve entry text v) :
    field? v.sources = field? w.sources ∧ field? v.errors = field? w.errors ∧
      v.asked.Perm w.asked := by
  have hsources : field? v.sources = field? w.sources := by
    funext name
    ext found
    rw [hv.source_eq_some_iff, hw.source_eq_some_iff]
  have herrors : field? v.errors = field? w.errors := by
    funext name
    ext marker
    rw [hv.error_eq_some_iff, hw.error_eq_some_iff]
  refine ⟨hsources, herrors, ?_⟩
  refine (List.perm_ext_iff_of_nodup (List.nodup_cons.mp hv.sound.once).2
    (List.nodup_cons.mp hw.sound.once).2).mpr fun name => ?_
  rw [hv.sound.mem_asked_iff, hw.sound.mem_asked_iff, knows, knows, hsources, herrors]

end Ended

/-! ### How far a walk goes -/

theorem run_of_pending_nil (hpending : w.pending = []) (limit : Nat) : w.run read limit = w := by
  cases limit with
  | zero => rfl
  | succ limit => simp [run, hpending]

theorem run_add (read : String → Reading) (w : Walk) (first second : Nat) :
    w.run read (first + second) = (w.run read first).run read second := by
  induction first generalizing w with
  | zero => simp [run]
  | succ first ih =>
    by_cases hpending : w.pending = []
    · simp only [run_of_pending_nil hpending]
    · rw [Nat.succ_add]
      simp [run, hpending, ih]

/-- What a walk has asked for and how many units it has found only grows. -/
def Extends (w v : Walk) : Prop :=
  (∀ name ∈ w.asked, name ∈ v.asked) ∧ w.sources.length ≤ v.sources.length

theorem Visit.extends (h : Visit read w name v) {first : Walk} (hw : first.Extends w) :
    first.Extends v := by
  obtain ⟨hasked, hlength⟩ := hw
  cases h with
  | passed => exact ⟨hasked, hlength⟩
  | found =>
    refine ⟨fun name hname => List.mem_append_left _ (hasked name hname),
      Nat.le_trans hlength ?_⟩
    simp
  | failed | refused =>
    exact ⟨fun name hname => List.mem_append_left _ (hasked name hname), hlength⟩

theorem extends_foldl (read : String → Reading) (w : Walk) (names : List String) :
    w.Extends (names.foldl (visit read) w) :=
  foldl_keeps (fun _ _ _ hw h => h.extends hw) ⟨fun _ h => h, Nat.le_refl _⟩ names

theorem extends_run (read : String → Reading) (w : Walk) (limit : Nat) :
    w.Extends (w.run read limit) :=
  run_keeps (fun _ _ _ hw h => h.extends hw) (fun _ _ hw => hw)
    ⟨fun _ h => h, Nat.le_refl _⟩ limit

/-- Every step takes one unit, and each unit that it finds becomes pending. -/
theorem length_sources_step (resolve : String → Except String String) (hmore : w.pending ≠ []) :
    (w.step (answering resolve)).sources.length + w.pending.length =
      w.sources.length + (w.step (answering resolve)).pending.length + 1 := by
  obtain ⟨⟨importer, found⟩, rest, hpending⟩ := List.exists_cons_of_ne_nil hmore
  have hkept := @foldl_keeps (answering resolve) { w with pending := rest }
    (fun v => v.sources.length + rest.length = w.sources.length + v.pending.length)
    (fun _ _ _ hv h => by
      cases h with
      | passed => exact hv
      | found => simp only [List.length_append, List.length_cons, List.length_nil]; omega
      | failed => exact hv
      | refused _ _ hread => exact absurd hread answering_ne_refused)
    rfl (imported importer found)
  unfold step
  simp only [hpending, List.length_cons]
  omega

theorem length_sources_run (hmore : (w.run (answering resolve) limit).pending ≠ []) :
    (w.run (answering resolve) limit).sources.length + w.pending.length =
      w.sources.length + (w.run (answering resolve) limit).pending.length + limit := by
  induction limit generalizing w with
  | zero => simp [run]
  | succ limit ih =>
    have hpending : w.pending ≠ [] := fun h => hmore (by rw [run_of_pending_nil h]; exact h)
    have hrun : w.run (answering resolve) (limit + 1) =
        (w.step (answering resolve)).run (answering resolve) limit := by
      simp [run, hpending]
    rw [hrun] at hmore ⊢
    have hstep := length_sources_step resolve hpending
    have hrest := ih hmore
    omega

/-- A walk that ends has ended as soon as it has taken as many units as it finds. -/
theorem run_length_sources
    (hended : ((start entry text).run (answering resolve) limit).pending = []) {enough : Nat}
    (henough : ((start entry text).run (answering resolve) limit).sources.length ≤ enough) :
    (start entry text).run (answering resolve) enough =
      (start entry text).run (answering resolve) limit := by
  have hjoin := run_add (answering resolve) (start entry text)
  by_cases hpending : ((start entry text).run (answering resolve) enough).pending = []
  · rcases Nat.le_total limit enough with hle | hle
    · rw [← Nat.add_sub_cancel' hle, hjoin, run_of_pending_nil hended]
    · rw [← Nat.add_sub_cancel' hle, hjoin, run_of_pending_nil hpending]
  · -- otherwise it would have found too many units by then
    have hlength := length_sources_run hpending
    have hpositive := List.length_pos_iff.mpr hpending
    have hle : enough ≤ limit := by
      by_contra hlt
      refine hpending ?_
      rw [← Nat.add_sub_cancel' (Nat.le_of_not_le hlt), hjoin, run_of_pending_nil hended, hended]
    have hgrown := (extends_run (answering resolve)
      ((start entry text).run (answering resolve) enough) (limit - enough)).2
    rw [← hjoin, Nat.add_sub_cancel' hle] at hgrown
    simp only [start, List.length_singleton] at hlength henough hgrown hpositive
    omega

/-! ### What a walk depends on -/

theorem visit_congr (hread : ∀ other ∈ (visit read w name).asked, read' other = read other) :
    visit read' w name = visit read w name := by
  by_cases hsettled : (w.refused || w.knows name) = true
  · simp [visit, hsettled]
  · have hname : name ∈ (visit read w name).asked := by
      unfold visit
      rw [if_neg hsettled]
      split <;> simp
    simp [visit, hread name hname]

theorem foldl_congr {names : List String}
    (hread : ∀ other ∈ (names.foldl (visit read) w).asked, read' other = read other) :
    names.foldl (visit read') w = names.foldl (visit read) w := by
  induction names generalizing w with
  | nil => rfl
  | cons name rest ih =>
    have hfirst : visit read' w name = visit read w name :=
      visit_congr fun other hother => hread other ((extends_foldl read _ rest).1 other hother)
    rw [List.foldl_cons, List.foldl_cons, hfirst]
    exact ih hread

theorem run_congr (hread : ∀ other ∈ (w.run read limit).asked, read' other = read other) :
    w.run read' limit = w.run read limit := by
  induction limit generalizing w with
  | zero => rfl
  | succ limit ih =>
    by_cases hpending : w.pending = []
    · rw [run_of_pending_nil hpending, run_of_pending_nil hpending]
    · have hrun : ∀ read, w.run read (limit + 1) = (w.step read).run read limit :=
        fun read => by simp [run, hpending]
      rw [hrun read] at hread
      have hstep : w.step read' = w.step read := by
        unfold step
        split
        · rfl
        · next importer found rest hfirst =>
          refine foldl_congr fun other hother => hread other ((extends_run read _ limit).1 other ?_)
          unfold step
          rw [hfirst]
          exact hother
      rw [hrun, hrun, hstep]
      exact ih hread

/-! ### The closure -/

/-- What a walk along the imports of a contract has gathered in the end. -/
structure GathersClosure (resolve : String → Except String String) (entry text : String)
    (w : Walk) : Prop where
  found_iff : ∀ name, (field? w.sources name).isSome = true ↔ Reachable resolve entry text name
  entry_text : field? w.sources entry = some text
  contents : ∀ name found, name ≠ entry → field? w.sources name = some found →
    resolve name = .ok found
  /-- The names that fail are those apart from the entry that a unit found imports and the
  resolver rejects, each with its error. -/
  failed_iff : ∀ name marker, field? w.errors name = some marker ↔
    name ≠ entry ∧ resolve name = .error marker ∧
      ∃ importer, (field? w.sources importer).isSome = true ∧
        Imports resolve entry text importer name
  keys_nodup : (w.sources.map Prod.fst ++ w.errors.map Prod.fst).Nodup
  asked_nodup : w.asked.Nodup
  asked_iff : ∀ name, name ∈ w.asked ↔ name ≠ entry ∧
    ((field? w.sources name).isSome = true ∨ (field? w.errors name).isSome = true)
  unordered : ∀ v, Takes (answering resolve) entry text v → v.pending = [] →
    field? v.sources = field? w.sources ∧ field? v.errors = field? w.errors ∧
      v.asked.Perm w.asked
  /-- Where the files answer as the resolver does, the stage that gathers the imports of a contract
  returns what the walk has gathered and reads each name that it asks for once. -/
  collected : ∀ (r : Resolver) (world : World), w.sources.length ≤ unitLimit →
    (∀ name ∈ w.asked, r.reading world.tree name = answering resolve name) →
    ∃ records, (r.collect entry text).inWorld world =
      (.ok ⟨w.sources, w.errors⟩, r.afterReading world w.asked records)

theorem collect_eq_run (r : Resolver) (world : World)
    (hended : ((start entry text).run (answering resolve) limit).pending = [])
    (henough : ((start entry text).run (answering resolve) limit).sources.length ≤ unitLimit)
    (hanswers : ∀ name ∈ ((start entry text).run (answering resolve) limit).asked,
      r.reading world.tree name = answering resolve name) :
    ∃ records, (r.collect entry text).inWorld world =
      (.ok ⟨((start entry text).run (answering resolve) limit).sources,
          ((start entry text).run (answering resolve) limit).errors⟩,
        r.afterReading world ((start entry text).run (answering resolve) limit).asked records) := by
  have hrun := run_length_sources hended henough
  have hwalk : r.walk world.tree entry text = (start entry text).run (answering resolve) limit := by
    rw [← hrun] at hanswers ⊢
    exact run_congr hanswers
  refine r.inWorld_collect world hwalk fun name hname => ?_
  rw [hanswers name hname]
  exact answering_ne_refused

/-- A walk that ends has gathered the closure of its entry under imports: whatever the resolver
answers, it finds the units that can be reached through units with a text, it fails at the names
that such a unit imports and the resolver rejects, and it asks once for each of them and for nothing
else. -/
theorem gathers_closure (resolve : String → Except String String) (entry text : String) {limit : Nat}
    (hended : ((start entry text).run (answering resolve) limit).pending = []) :
    GathersClosure resolve entry text ((start entry text).run (answering resolve) limit) := by
  have htakes : Takes (answering resolve) entry text
      ((start entry text).run (answering resolve) limit) := Takes.start.run limit
  have hw : Ended resolve entry text ((start entry text).run (answering resolve) limit) :=
    htakes.ended hended
  have hfound : ∀ name,
      (field? ((start entry text).run (answering resolve) limit).sources name).isSome = true ↔
        Reachable resolve entry text name :=
    fun name => isSome_field?_iff.trans hw.mem_sources_iff
  exact {
    found_iff := hfound
    entry_text := hw.source_eq_some_iff.mpr ⟨ReflTransGen.refl, textOf?_entry⟩
    contents := by
      intro name found hother hname
      obtain ⟨-, htext⟩ := hw.source_eq_some_iff.mp hname
      rwa [textOf?_of_ne hother, toOption_eq_some] at htext
    failed_iff := by
      intro name marker
      simp only [hfound]
      exact hw.error_eq_some_iff
    keys_nodup := hw.sound.counted.nodup_iff.mpr hw.sound.once
    asked_nodup := (List.nodup_cons.mp hw.sound.once).2
    asked_iff := by
      intro name
      rw [hw.sound.mem_asked_iff, knows, Bool.or_eq_true]
    unordered := fun v hv hpending => hw.gathers_same (hv.ended hpending)
    collected := fun r world henough hanswers => collect_eq_run r world hended henough hanswers }

/-- Units that import each other in a circle, one of them by two ways, and one that is missing. -/
def circle (name : String) : Except String String :=
  if name = "a.sol" then .ok "import \"./b.sol\";\nimport \"./gone.sol\";\n"
  else if name = "b.sol" then .ok "import \"./a.sol\";\nimport \"./main.sol\";\n"
  else .error ("no " ++ name)

def circleEntry : String :=
  "import \"./main.sol\";\nimport \"./a.sol\";\nimport \"./b.sol\";\n"

/-- The walk through the circle ends, finds its units once and fails at the missing one. -/
theorem gathers_closure_circle :
    ((start "main.sol" circleEntry).run (answering circle) 4).pending = [] ∧
    GathersClosure circle "main.sol" circleEntry
      ((start "main.sol" circleEntry).run (answering circle) 4) ∧
    ((start "main.sol" circleEntry).run (answering circle) 4).asked =
      ["a.sol", "b.sol", "gone.sol"] ∧
    ((start "main.sol" circleEntry).run (answering circle) 4).errors =
      [("gone.sol", "no gone.sol")] := by
  have hended : ((start "main.sol" circleEntry).run (answering circle) 4).pending = [] ∧
      ((start "main.sol" circleEntry).run (answering circle) 4).asked =
        ["a.sol", "b.sol", "gone.sol"] ∧
      ((start "main.sol" circleEntry).run (answering circle) 4).errors =
        [("gone.sol", "no gone.sol")] := by
    decide +kernel
  obtain ⟨hpending, hasked, herrors⟩ := hended
  exact ⟨hpending, gathers_closure circle "main.sol" circleEntry hpending, hasked, herrors⟩

end AuditHours.Import.Walk
