import AuditHours.Proofs.Basic
import AuditHours.Proofs.Import.Walk
import Mathlib.Data.List.Nodup
import Mathlib.Logic.Relation

/-!
Walks along imports in any order. A walk takes some unit that is pending, whichever it is, and
visits what the unit imports. Whatever the order, every unit that is found can be reached from the
entry through units with a text, every name that fails is imported by a unit that was found, no name
is asked for twice, and the imports of a unit that is no longer pending are known.
-/
namespace AuditHours.Import.Walk

open Json Relation

/-- What a resolver, which answers a name with contents or with an error, makes of reading it. -/
def answering (resolve : String → Except String String) (name : String) : Reading :=
  match resolve name with
  | .ok contents => .text contents
  | .error marker => .unreadable marker

/-- The text of a unit: that of the entry is given, that of any other is what the resolver has. -/
def textOf? (resolve : String → Except String String) (entry text name : String) : Option String :=
  if name = entry then some text else (resolve name).toOption

def Imports (resolve : String → Except String String) (entry text importer name : String) : Prop :=
  ∃ found path, textOf? resolve entry text importer = some found ∧
    path ∈ Source.findImports found ∧ unitName importer path = name

def Reachable (resolve : String → Except String String) (entry text : String) : String → Prop :=
  ReflTransGen (fun importer name => Imports resolve entry text importer name ∧
    (textOf? resolve entry text name).isSome) entry

/-- The walks that take one pending unit after the other in any order. -/
inductive Takes (read : String → Reading) (entry text : String) : Walk → Prop
  | start : Takes read entry text (start entry text)
  | take {w : Walk} {front back : List (String × String)} {importer found : String}
      (hw : Takes read entry text w) (hpending : w.pending = front ++ (importer, found) :: back) :
      Takes read entry text
        ((imported importer found).foldl (visit read) { w with pending := front ++ back })

variable {resolve : String → Except String String} {read : String → Reading}
  {entry text importer name found : String} {w v : Walk}

theorem answering_eq_text : answering resolve name = .text found ↔ resolve name = .ok found := by
  unfold answering
  cases resolve name <;> simp

theorem answering_eq_unreadable {marker : String} :
    answering resolve name = .unreadable marker ↔ resolve name = .error marker := by
  unfold answering
  cases resolve name <;> simp

theorem answering_ne_refused : answering resolve name ≠ .refused := by
  unfold answering
  cases resolve name <;> simp

theorem textOf?_entry : textOf? resolve entry text entry = some text := if_pos rfl

theorem textOf?_of_ne (hname : name ≠ entry) :
    textOf? resolve entry text name = (resolve name).toOption := if_neg hname

theorem imports_iff (htext : textOf? resolve entry text importer = some found) :
    Imports resolve entry text importer name ↔ name ∈ imported importer found := by
  simp [Imports, imported, htext]

theorem Takes.run (hw : Takes read entry text w) (limit : Nat) :
    Takes read entry text (w.run read limit) := by
  induction limit generalizing w with
  | zero => exact hw
  | succ limit ih =>
    unfold Walk.run
    split
    · exact hw
    · next hmore =>
      refine ih ?_
      unfold step
      split
      · exact hw
      · next importer found rest hpending =>
        have hfirst : w.pending = [] ++ (importer, found) :: rest := hpending
        exact hw.take hfirst

/-- What is found by a walk is reachable and has its own text, what fails is imported by a unit
that is found, and the known names are the entry and the names asked for, each once. -/
structure Sound (resolve : String → Except String String) (entry text : String) (w : Walk) :
    Prop where
  unrefused : w.refused = false
  entered : (entry, text) ∈ w.sources
  found : ∀ unit ∈ w.sources, textOf? resolve entry text unit.1 = some unit.2 ∧
    Reachable resolve entry text unit.1
  failed : ∀ failure ∈ w.errors, resolve failure.1 = .error failure.2 ∧
    ∃ unit ∈ w.sources, failure.1 ∈ imported unit.1 unit.2
  counted : (w.sources.map Prod.fst ++ w.errors.map Prod.fst).Perm (entry :: w.asked)
  once : (entry :: w.asked).Nodup
  waiting : ∀ unit ∈ w.pending, unit ∈ w.sources

/-- The walk has nothing more to do for a unit, or the unit is pending. -/
def Covered (w : Walk) (unit : String × String) : Prop :=
  unit ∈ w.pending ∨ ∀ name ∈ imported unit.1 unit.2, w.Settled name

namespace Sound

theorem start : Sound resolve entry text (start entry text) := by
  refine ⟨rfl, List.mem_singleton.mpr rfl, ?_, ?_, ?_, ?_, fun _ h => h⟩
  · intro unit hunit
    rw [List.mem_singleton.mp hunit]
    exact ⟨textOf?_entry, ReflTransGen.refl⟩
  · intro failure hfailure
    simp [Walk.start] at hfailure
  · exact List.Perm.refl _
  · exact List.nodup_singleton entry

theorem knows_iff_asked (hw : Sound resolve entry text w) :
    w.knows name = true ↔ name = entry ∨ name ∈ w.asked := by
  rw [knows_iff, ← List.mem_append, hw.counted.mem_iff, List.mem_cons]

theorem settled_iff (hw : Sound resolve entry text w) : w.Settled name ↔ w.knows name = true := by
  simp [Settled, hw.unrefused]

theorem not_mem_asked (hw : Sound resolve entry text w) (hnew : w.knows name = false) :
    name ≠ entry ∧ name ∉ w.asked := by
  simpa [hnew] using not_congr (@knows_iff_asked _ _ _ name _ hw)

theorem once_concat (hw : Sound resolve entry text w) (hnew : w.knows name = false) :
    (entry :: (w.asked ++ [name])).Nodup := by
  obtain ⟨hother, hunasked⟩ := hw.not_mem_asked hnew
  rw [← List.cons_append, (List.perm_append_singleton name _).nodup_iff]
  exact List.nodup_cons.mpr ⟨by simp [hother, hunasked], hw.once⟩

theorem drop (hw : Sound resolve entry text w) {pending : List (String × String)}
    (hpending : ∀ unit ∈ pending, unit ∈ w.pending) :
    Sound resolve entry text { w with pending } :=
  ⟨hw.unrefused, hw.entered, hw.found, hw.failed, hw.counted, hw.once,
    fun unit hunit => hw.waiting unit (hpending unit hunit)⟩

/-- Visiting an import of a unit that was found leaves a walk sound. -/
theorem visit (hw : Sound resolve entry text w) (himporter : (importer, found) ∈ w.sources)
    (hname : name ∈ imported importer found) (h : Visit (answering resolve) w name v) :
    Sound resolve entry text v ∧ (importer, found) ∈ v.sources := by
  cases h with
  | passed => exact ⟨hw, himporter⟩
  | found contents hopen hnew hread =>
    obtain ⟨hother, -⟩ := hw.not_mem_asked hnew
    have htext : textOf? resolve entry text name = some contents := by
      rw [textOf?_of_ne hother, toOption_eq_some]
      exact answering_eq_text.mp hread
    obtain ⟨himporterText, hreached⟩ := hw.found _ himporter
    have himports : Imports resolve entry text importer name :=
      (imports_iff himporterText).mpr hname
    refine ⟨⟨hw.unrefused, ?_, ?_, ?_, ?_, hw.once_concat hnew, ?_⟩, ?_⟩
    · exact List.mem_append_left _ hw.entered
    · intro unit hunit
      rcases List.mem_append.mp hunit with hold | hadded
      · exact hw.found unit hold
      · -- the new unit is reached through the unit that imports it
        rw [List.mem_singleton.mp hadded]
        exact ⟨htext, hreached.tail ⟨himports, by simp [htext]⟩⟩
    · intro failure hfailure
      obtain ⟨herror, unit, hunit, himport⟩ := hw.failed failure hfailure
      exact ⟨herror, unit, List.mem_append_left _ hunit, himport⟩
    · have hmoved : (w.sources.map Prod.fst ++ [name] ++ w.errors.map Prod.fst).Perm
          (w.sources.map Prod.fst ++ w.errors.map Prod.fst ++ [name]) := by
        rw [List.append_assoc, List.append_assoc]
        exact List.perm_append_comm.append_left _
      simpa using hmoved.trans (hw.counted.append_right [name])
    · intro unit hunit
      rcases List.mem_cons.mp hunit with rfl | hold
      · exact List.mem_append_right _ (List.mem_singleton.mpr rfl)
      · exact List.mem_append_left _ (hw.waiting unit hold)
    · exact List.mem_append_left _ himporter
  | failed marker hopen hnew hread =>
    refine ⟨⟨hw.unrefused, hw.entered, hw.found, ?_, ?_, hw.once_concat hnew, hw.waiting⟩,
      himporter⟩
    · intro failure hfailure
      rcases List.mem_append.mp hfailure with hold | hadded
      · exact hw.failed failure hold
      · rw [List.mem_singleton.mp hadded]
        exact ⟨answering_eq_unreadable.mp hread, _, himporter, hname⟩
    · simpa using hw.counted.append_right [name]
  | refused _ _ hread => exact absurd hread answering_ne_refused

theorem visits (hw : Sound resolve entry text w) (himporter : (importer, found) ∈ w.sources)
    {names : List String} (hnames : ∀ name ∈ names, name ∈ imported importer found) :
    Sound resolve entry text (names.foldl (Walk.visit (answering resolve)) w) := by
  induction names generalizing w with
  | nil => exact hw
  | cons name rest ih =>
    obtain ⟨hvisited, hkept⟩ := hw.visit himporter (hnames name (List.mem_cons_self ..))
      (visit_cases (answering resolve) w name)
    exact ih hvisited hkept fun other hother => hnames other (List.mem_cons_of_mem _ hother)

end Sound

/-- A unit that a visit finds is pending, and the others stay covered. -/
theorem Visit.keeps_covered (h : Visit read w name v) {taken : String × String}
    (hw : ∀ unit ∈ w.sources, unit = taken ∨ w.Covered unit) :
    ∀ unit ∈ v.sources, unit = taken ∨ v.Covered unit := by
  have hsettled : ∀ unit : String × String, (∀ other ∈ imported unit.1 unit.2, w.Settled other) →
      ∀ other ∈ imported unit.1 unit.2, v.Settled other :=
    fun unit hunit other hother => h.keeps_settled (hunit other hother)
  intro unit hunit
  cases h with
  | passed => exact hw unit hunit
  | found contents =>
    rcases List.mem_append.mp hunit with hold | hadded
    · exact (hw unit hold).imp_right (Or.imp (List.mem_cons_of_mem _) (hsettled unit))
    · rw [List.mem_singleton.mp hadded]
      exact Or.inr (Or.inl (List.mem_cons_self ..))
  | failed marker => exact (hw unit hunit).imp_right (Or.imp id (hsettled unit))
  | refused => exact Or.inr (Or.inr fun _ _ => Or.inl rfl)

/-- Every walk is sound and covers what it has found, whatever order it takes the units in. -/
theorem Takes.explores (hw : Takes (answering resolve) entry text w) :
    Sound resolve entry text w ∧ ∀ unit ∈ w.sources, w.Covered unit := by
  induction hw with
  | start =>
    exact ⟨Sound.start, fun unit hunit => Or.inl hunit⟩
  | @take w front back importer found _ hpending ih =>
    obtain ⟨hsound, hcovered⟩ := ih
    have himporter : (importer, found) ∈ w.sources := hsound.waiting _ (by simp [hpending])
    have hrest : ∀ unit ∈ front ++ back, unit ∈ w.pending := by
      intro unit hunit
      rw [hpending]
      exact List.mem_append.mpr
        ((List.mem_append.mp hunit).imp_right (List.mem_cons_of_mem _))
    refine ⟨(hsound.drop hrest).visits himporter fun _ h => h, ?_⟩
    have hothers : ∀ unit ∈ w.sources, unit = (importer, found) ∨
        Covered { w with pending := front ++ back } unit := by
      intro unit hunit
      rcases hcovered unit hunit with hwaits | hdone
      · rw [hpending, List.mem_append, List.mem_cons] at hwaits
        rcases hwaits with hfront | rfl | hback
        · exact Or.inr (Or.inl (List.mem_append_left _ hfront))
        · exact Or.inl rfl
        · exact Or.inr (Or.inl (List.mem_append_right _ hback))
      · exact Or.inr (Or.inr hdone)
    intro unit hunit
    -- the unit that was taken is covered because each of its imports has been visited
    rcases foldl_keeps (P := fun v => ∀ unit ∈ v.sources, unit = (importer, found) ∨ v.Covered unit)
      (fun _ _ _ hw h => h.keeps_covered hw) hothers _ unit hunit with rfl | hkept
    · exact Or.inr fun name hname => settled_foldl hname
    · exact hkept

end AuditHours.Import.Walk
