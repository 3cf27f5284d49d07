import AuditHours.Proofs.Files.Places
import AuditHours.Proofs.Import.Walk
import AuditHours.Proofs.Stage
import Mathlib.Tactic.ByContra

/-!
Gathering the imports of a contract as a stage of a run. The stage reads every name that the walk
asks for, in order, and returns what the walk found. It fails only at a name that no file system
takes, and it changes nothing but the log.
-/
namespace AuditHours.Import.Resolver

/-- A unit has the text of its file. -/
theorem reading_eq_text {r : Resolver} {tree : Files.Tree} {name text : String} :
    r.reading tree name = .text text ↔ tree.readText (r.path name) = .ok text := by
  unfold reading
  split <;> simp_all

/-- A unit without a text leaves a marker, unless its path is refused. -/
theorem reading_of_missing {r : Resolver} {tree : Files.Tree} {name : String}
    (hmissing : ∀ text, tree.readText (r.path name) ≠ .ok text)
    (htaken : '\x00' ∉ (r.path name).text.toList) :
    r.reading tree name = .unreadable (marker (r.path name)) := by
  have hzero := tree.readText_ne_zeroCharacter htaken
  unfold reading
  split
  · next text hread => exact absurd hread (hmissing text)
  · next hread => exact absurd hread hzero
  · rfl

/-- A unit is refused exactly if its path holds the character zero. -/
theorem reading_eq_refused {r : Resolver} {tree : Files.Tree} {name : String} :
    r.reading tree name = .refused ↔ '\x00' ∈ (r.path name).text.toList := by
  constructor
  · intro hrefused
    by_contra htaken
    have hzero := tree.readText_ne_zeroCharacter htaken
    unfold reading at hrefused
    split at hrefused
    · simp at hrefused
    · next hread => exact hzero hread
    · simp at hrefused
  · intro hzero
    unfold reading
    rw [tree.readText_of_zeroCharacter hzero]

def afterReading (r : Resolver) (world : World) (names : List String)
    (records : List Log.Record) : World :=
  { world with
    actions := world.actions ++ names.map fun name => .readImport (r.path name)
    records }

/-- Reading a unit changes nothing but the log, and fails only at a name that is refused. -/
theorem inWorld_note (r : Resolver) (world : World) (name : String) :
    ∃ records, (r.note name).inWorld world =
      (if r.reading world.tree name = .refused then .error (.file .zeroCharacter) else .ok (),
        r.afterReading world [name] records) := by
  unfold note reading
  rw [Run.inWorld_bind_ok (Run.inWorld_act _ _), Run.inWorld_bind_ok (Run.inWorld_get _)]
  cases world.tree.readText (r.path name) with
  | ok text => exact ⟨_, rfl⟩
  | error failure =>
    cases failure with
    | decoding error => exact ⟨_, rfl⟩
    | file error =>
      cases error with
      | zeroCharacter | refused => exact ⟨_, rfl⟩

/-- Units are read in order, all of them if no name is refused. -/
theorem inWorld_notes (r : Resolver) (world : World) {names : List String}
    (htaken : ∀ name ∈ names, r.reading world.tree name ≠ .refused) :
    ∃ records, (names.forM r.note).inWorld world = (.ok (), r.afterReading world names records) := by
  induction names generalizing world with
  | nil => exact ⟨world.records, by simp [afterReading]⟩
  | cons name rest ih =>
    obtain ⟨noted, hnote⟩ := r.inWorld_note world name
    rw [if_neg (htaken name (List.mem_cons_self ..))] at hnote
    obtain ⟨records, hrest⟩ := ih (r.afterReading world [name] noted)
      fun other hother => htaken other (List.mem_cons_of_mem _ hother)
    refine ⟨records, ?_⟩
    rw [List.forM_eq_forM, List.forM_cons, Run.inWorld_bind_ok hnote]
    simpa [afterReading] using hrest

/-- A refused name at the end is read as the others are, and the reading fails there. -/
theorem inWorld_notes_last (r : Resolver) (world : World) {names : List String} {last : String}
    (htaken : ∀ name ∈ names, r.reading world.tree name ≠ .refused)
    (hrefused : r.reading world.tree last = .refused) :
    ∃ records, ((names ++ [last]).forM r.note).inWorld world =
      (.error (.file .zeroCharacter), r.afterReading world (names ++ [last]) records) := by
  induction names generalizing world with
  | nil =>
    obtain ⟨records, hnote⟩ := r.inWorld_note world last
    rw [if_pos hrefused] at hnote
    refine ⟨records, ?_⟩
    rw [List.nil_append, List.forM_eq_forM, List.forM_cons]
    exact Run.inWorld_bind_error hnote
  | cons name rest ih =>
    obtain ⟨noted, hnote⟩ := r.inWorld_note world name
    rw [if_neg (htaken name (List.mem_cons_self ..))] at hnote
    obtain ⟨records, hrest⟩ := ih (r.afterReading world [name] noted)
      (fun other hother => htaken other (List.mem_cons_of_mem _ hother)) hrefused
    refine ⟨records, ?_⟩
    rw [List.cons_append, List.forM_eq_forM, List.forM_cons, Run.inWorld_bind_ok hnote]
    simpa [afterReading] using hrest

/-- A refused name ends the reading. -/
theorem inWorld_notes_refused (r : Resolver) (world : World) {names : List String} {name : String}
    (hname : name ∈ names) (hrefused : r.reading world.tree name = .refused) :
    ∃ after, (names.forM r.note).inWorld world = (.error (.file .zeroCharacter), after) := by
  induction names generalizing world with
  | nil => simp at hname
  | cons first rest ih =>
    obtain ⟨noted, hnote⟩ := r.inWorld_note world first
    rw [List.forM_eq_forM, List.forM_cons]
    split at hnote
    · exact ⟨_, Run.inWorld_bind_error hnote⟩
    · next htaken =>
      rw [Run.inWorld_bind_ok hnote]
      rcases List.mem_cons.mp hname with rfl | hrest
      · exact absurd hrefused htaken
      · exact ih (r.afterReading world [first] noted) hrest hrefused

def walk (r : Resolver) (tree : Files.Tree) (entry source : String) : Walk :=
  (Walk.start entry source).run (r.reading tree) unitLimit

/-- The walk asks for all that the contract imports but the contract itself, unless a name is
refused. -/
theorem mem_asked_walk (r : Resolver) (tree : Files.Tree) {entry source name : String}
    (hname : name ∈ Walk.imported entry source) (hother : name ≠ entry) :
    name ∈ (r.walk tree entry source).asked ∨
      ∃ refused ∈ (r.walk tree entry source).asked, r.reading tree refused = .refused := by
  have hlimit : unitLimit = (2 ^ 64 - 1) + 1 := rfl
  unfold walk
  rw [hlimit]
  exact Walk.mem_asked (r.reading tree) hname hother _

/-- If no name that the walk asks for is refused, all are read and the walk's units are returned. -/
theorem inWorld_collect (r : Resolver) (world : World) {entry source : String} {w : Walk}
    (hw : r.walk world.tree entry source = w)
    (htaken : ∀ name ∈ w.asked, r.reading world.tree name ≠ .refused) :
    ∃ records, (r.collect entry source).inWorld world =
      (.ok ⟨w.sources, w.errors⟩, r.afterReading world w.asked records) := by
  subst hw
  obtain ⟨records, hnotes⟩ := r.inWorld_notes world htaken
  unfold collect
  rw [Run.inWorld_bind_ok (Run.inWorld_get _)]
  exact ⟨_, Run.inWorld_bind_ok hnotes⟩

/-- All that the walk asks for is read, and gathering succeeds unless a name was refused. -/
theorem inWorld_collect_all (r : Resolver) (world : World) {entry source : String} {w : Walk}
    (hw : r.walk world.tree entry source = w) :
    ∃ result records, (r.collect entry source).inWorld world =
        (result, r.afterReading world w.asked records) ∧
      (result.isOk = true ↔ ∀ name ∈ w.asked, r.reading world.tree name ≠ .refused) ∧
      ∀ closure, result = .ok closure → closure = ⟨w.sources, w.errors⟩ := by
  rcases Walk.run_refused (r.reading world.tree) entry source unitLimit with
    htaken | ⟨names, last, hasked, htaken, hrefused⟩
  · change ∀ name ∈ (r.walk world.tree entry source).asked, _ at htaken
    rw [hw] at htaken
    obtain ⟨records, hcollect⟩ := r.inWorld_collect world hw htaken
    refine ⟨_, records, hcollect, ?_, ?_⟩
    · simpa [Except.isOk, Except.toBool] using htaken
    · intro closure hclosure
      exact (Except.ok.inj hclosure).symm
  · change (r.walk world.tree entry source).asked = _ at hasked
    rw [hw] at hasked
    obtain ⟨records, hnotes⟩ := r.inWorld_notes_last world htaken hrefused
    refine ⟨.error (.file .zeroCharacter), records, ?_, ?_, by simp⟩
    · rw [← hasked] at hnotes
      subst hw
      unfold collect
      rw [Run.inWorld_bind_ok (Run.inWorld_get _)]
      exact Run.inWorld_bind_error hnotes
    · rw [hasked]
      simp only [Except.isOk, Except.toBool, Bool.false_eq_true, false_iff]
      intro hall
      exact hall last (by simp) hrefused

/-- If a name that the walk asks for is refused, the run ends there. -/
theorem inWorld_collect_refused (r : Resolver) (world : World) {entry source name : String}
    (hname : name ∈ (r.walk world.tree entry source).asked)
    (hrefused : r.reading world.tree name = .refused) :
    ∃ after, (r.collect entry source).inWorld world = (.error (.file .zeroCharacter), after) := by
  obtain ⟨after, hnotes⟩ := r.inWorld_notes_refused world hname hrefused
  unfold collect
  rw [Run.inWorld_bind_ok (Run.inWorld_get _)]
  exact ⟨after, Run.inWorld_bind_error hnotes⟩

end AuditHours.Import.Resolver
