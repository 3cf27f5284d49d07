import AuditHours.Import.Closure

/-!
What a walk along imports asks for. A walk knows only its entry and the names that it has asked for,
and it asks for each name that it visits unless it knows it. So every import of the entry is asked
for, unless it names the entry itself or a refused name ends the walk.
-/
namespace AuditHours.Import.Walk

open Json

variable {read : String → Reading} {entry text name : String} {w v : Walk}

/-- A name that a walk has nothing more to do for: it is known, or the walk has ended. -/
def Settled (w : Walk) (name : String) : Prop := w.refused = true ∨ w.knows name = true

inductive Visit (read : String → Reading) (w : Walk) (name : String) : Walk → Prop
  | passed (hsettled : w.Settled name) : Visit read w name w
  | found (text : String) (hopen : w.refused = false) (hnew : w.knows name = false)
      (hread : read name = .text text) :
      Visit read w name
        { w with
          asked := w.asked ++ [name]
          sources := w.sources ++ [(name, text)]
          pending := (name, text) :: w.pending }
  | failed (marker : String) (hopen : w.refused = false) (hnew : w.knows name = false)
      (hread : read name = .unreadable marker) :
      Visit read w name
        { w with asked := w.asked ++ [name], errors := w.errors ++ [(name, marker)] }
  | refused (hopen : w.refused = false) (hnew : w.knows name = false)
      (hread : read name = .refused) :
      Visit read w name { w with asked := w.asked ++ [name], refused := true, pending := [] }

theorem visit_cases (read : String → Reading) (w : Walk) (name : String) :
    Visit read w name (visit read w name) := by
  unfold visit
  split
  · next h => exact Visit.passed (by simpa [Settled] using h)
  · next h =>
    simp only [Bool.or_eq_true, not_or, Bool.not_eq_true] at h
    split
    · next text hread => exact Visit.found text h.1 h.2 hread
    · next marker hread => exact Visit.failed marker h.1 h.2 hread
    · next hread => exact Visit.refused h.1 h.2 hread

theorem knows_iff : w.knows name = true ↔
    name ∈ w.sources.map Prod.fst ∨ name ∈ w.errors.map Prod.fst := by
  simp [knows, field?, List.find?_isSome]

theorem knows_start : (start entry text).knows name = true ↔ name = entry := by
  simp [knows_iff, start]

namespace Visit

theorem settled (h : Visit read w name v) : v.Settled name := by
  cases h with
  | passed hsettled => exact hsettled
  | found text => exact Or.inr (knows_iff.mpr (Or.inl (by simp)))
  | failed marker => exact Or.inr (knows_iff.mpr (Or.inr (by simp)))
  | refused => exact Or.inl rfl

theorem keeps_settled (h : Visit read w name v) {other : String} (hw : w.Settled other) :
    v.Settled other := by
  cases h with
  | passed => exact hw
  | found text =>
    refine hw.imp id fun hknown => ?_
    rw [knows_iff] at hknown ⊢
    exact hknown.imp_left fun hsource => by simp [hsource]
  | failed marker =>
    refine hw.imp id fun hknown => ?_
    rw [knows_iff] at hknown ⊢
    exact hknown.imp_right fun herror => by simp [herror]
  | refused => exact Or.inl rfl

end Visit

/-- A walk knows only its entry and what it has asked for, and it has asked for the refused name
that ended it. -/
structure Accounted (read : String → Reading) (entry : String) (w : Walk) : Prop where
  known : ∀ name, w.knows name = true → name = entry ∨ name ∈ w.asked
  ended : w.refused = true → ∃ name ∈ w.asked, read name = .refused

namespace Accounted

theorem start (read : String → Reading) (entry text : String) :
    Accounted read entry (start entry text) := by
  refine ⟨?_, ?_⟩
  · intro name hknown
    exact Or.inl (knows_start.mp hknown)
  · intro hended
    simp [Walk.start] at hended

theorem visit (hw : Accounted read entry w) (h : Visit read w name v) :
    Accounted read entry v := by
  refine ⟨?_, ?_⟩
  · intro other hother
    cases h with
    | passed => exact hw.known other hother
    | found text =>
      simp only [knows_iff, List.map_append, List.mem_append] at hother
      rcases hother with (hsource | hnew) | herror
      · exact (hw.known other (knows_iff.mpr (Or.inl hsource))).imp_right fun h => by simp [h]
      · exact Or.inr (by simp_all)
      · exact (hw.known other (knows_iff.mpr (Or.inr herror))).imp_right fun h => by simp [h]
    | failed marker =>
      simp only [knows_iff, List.map_append, List.mem_append] at hother
      rcases hother with hsource | herror | hnew
      · exact (hw.known other (knows_iff.mpr (Or.inl hsource))).imp_right fun h => by simp [h]
      · exact (hw.known other (knows_iff.mpr (Or.inr herror))).imp_right fun h => by simp [h]
      · exact Or.inr (by simp_all)
    | refused => exact (hw.known other hother).imp_right fun h => by simp [h]
  · intro hended
    cases h with
    | passed => exact hw.ended hended
    | found text hopen | failed marker hopen => simp [hopen] at hended
    | refused _ _ hread => exact ⟨name, by simp, hread⟩

end Accounted

section

variable {P : Walk → Prop}

/-- What every visit keeps, a row of visits keeps. -/
theorem foldl_keeps (hvisit : ∀ w v name, P w → Visit read w name v → P v) (hw : P w)
    (names : List String) : P (names.foldl (visit read) w) := by
  induction names generalizing w with
  | nil => exact hw
  | cons name rest ih => exact ih (hvisit w _ name hw (visit_cases read w name))

/-- What every visit keeps, whatever is pending, a walk keeps. -/
theorem run_keeps (hvisit : ∀ w v name, P w → Visit read w name v → P v)
    (hpending : ∀ w pending, P w → P { w with pending }) (hw : P w) (limit : Nat) :
    P (w.run read limit) := by
  have hstep : ∀ w, P w → P (w.step read) := by
    intro w hw
    unfold step
    split
    · exact hw
    · exact foldl_keeps hvisit (hpending w _ hw) _
  induction limit generalizing w with
  | zero => exact hw
  | succ limit ih =>
    unfold run
    split
    · exact hw
    · exact ih (hstep w hw)

end

theorem run_accounted (read : String → Reading) (entry text : String) (limit : Nat) :
    Accounted read entry ((start entry text).run read limit) :=
  run_keeps (fun _ _ _ hw h => hw.visit h) (fun _ _ hw => ⟨hw.known, hw.ended⟩)
    (Accounted.start read entry text) limit

/-- No name that a walk asks for is refused but the last one, which then ends the walk. -/
theorem run_refused (read : String → Reading) (entry text : String) (limit : Nat) :
    (∀ name ∈ ((start entry text).run read limit).asked, read name ≠ .refused) ∨
      ∃ names last, ((start entry text).run read limit).asked = names ++ [last] ∧
        (∀ name ∈ names, read name ≠ .refused) ∧ read last = .refused := by
  have hkept : ((start entry text).run read limit).refused = false ∧
        (∀ name ∈ ((start entry text).run read limit).asked, read name ≠ .refused) ∨
      ((start entry text).run read limit).refused = true ∧
        ∃ names last, ((start entry text).run read limit).asked = names ++ [last] ∧
          (∀ name ∈ names, read name ≠ .refused) ∧ read last = .refused := by
    refine run_keeps (P := fun w => w.refused = false ∧ (∀ name ∈ w.asked, read name ≠ .refused) ∨
      w.refused = true ∧ ∃ names last, w.asked = names ++ [last] ∧
        (∀ name ∈ names, read name ≠ .refused) ∧ read last = .refused) ?_ (fun _ _ hw => hw)
      (Or.inl ⟨rfl, by simp [start]⟩) limit
    intro w v name hw hvisit
    cases hvisit with
    | passed => exact hw
    | found text hopen hnew hread | failed marker hopen hnew hread =>
      obtain ⟨-, htaken⟩ := hw.resolve_right fun hended => by simp [hopen] at hended
      left
      refine ⟨hopen, fun other hother => ?_⟩
      rcases List.mem_append.mp hother with hbefore | hlast
      · exact htaken other hbefore
      · obtain rfl := List.mem_singleton.mp hlast
        simp [hread]
    | refused hopen hnew hread =>
      obtain ⟨-, htaken⟩ := hw.resolve_right fun hended => by simp [hopen] at hended
      exact Or.inr ⟨rfl, w.asked, name, rfl, htaken, hread⟩
  exact hkept.imp And.right And.right

def foundText (read : String → Reading) (name : String) : Option (String × String) :=
  match read name with
  | .text text => some (name, text)
  | _ => none

def foundMarker (read : String → Reading) (name : String) : Option (String × String) :=
  match read name with
  | .unreadable marker => some (name, marker)
  | _ => none

/-- A walk has asked for every name once, and it holds the text or the marker of each, in order. -/
structure Recorded (read : String → Reading) (entry text : String) (w : Walk) : Prop where
  sources_eq : w.sources = (entry, text) :: w.asked.filterMap (foundText read)
  errors_eq : w.errors = w.asked.filterMap (foundMarker read)
  once : (entry :: w.asked).Nodup
  taken : w.refused = false → ∀ name ∈ w.asked, read name ≠ .refused

namespace Recorded

theorem start : Recorded read entry text (start entry text) :=
  ⟨rfl, rfl, by simp [Walk.start], by simp [Walk.start]⟩

theorem knows_of_asked (hw : Recorded read entry text w) (hopen : w.refused = false)
    (hasked : name = entry ∨ name ∈ w.asked) : w.knows name = true := by
  rw [knows_iff, hw.sources_eq, hw.errors_eq]
  rcases hasked with rfl | hasked
  · exact Or.inl (by simp)
  · have hfound : ∀ found, read name = .text found →
        name ∈ (w.asked.filterMap (foundText read)).map Prod.fst := by
      intro found hread
      have hmem := List.mem_filterMap.mpr ⟨name, hasked, (by simp [foundText, hread] :
        foundText read name = some (name, found))⟩
      exact List.mem_map.mpr ⟨_, hmem, rfl⟩
    have hfailed : ∀ marker, read name = .unreadable marker →
        name ∈ (w.asked.filterMap (foundMarker read)).map Prod.fst := by
      intro marker hread
      have hmem := List.mem_filterMap.mpr ⟨name, hasked, (by simp [foundMarker, hread] :
        foundMarker read name = some (name, marker))⟩
      exact List.mem_map.mpr ⟨_, hmem, rfl⟩
    cases hread : read name with
    | text found => exact Or.inl (List.mem_cons_of_mem _ (hfound found hread))
    | unreadable marker => exact Or.inr (hfailed marker hread)
    | refused => exact absurd hread (hw.taken hopen name hasked)

theorem visit (hw : Recorded read entry text w) (h : Visit read w name v) :
    Recorded read entry text v := by
  have honce : w.refused = false → w.knows name = false →
      (entry :: (w.asked ++ [name])).Nodup := by
    intro hopen hnew
    have hname : name ∉ entry :: w.asked := by
      intro hmem
      have hknown := hw.knows_of_asked hopen (List.mem_cons.mp hmem)
      simp [hnew] at hknown
    rw [← List.cons_append, List.nodup_append]
    refine ⟨hw.once, by simp, ?_⟩
    intro other hother last hlast
    rw [List.mem_singleton.mp hlast]
    rintro rfl
    exact hname hother
  cases h with
  | passed => exact hw
  | found _ hopen hnew hread | failed _ hopen hnew hread =>
    refine ⟨?_, ?_, honce hopen hnew, ?_⟩
    · simp [hw.sources_eq, foundText, hread]
    · simp [hw.errors_eq, foundMarker, hread]
    · intro _ other hother
      rcases List.mem_append.mp hother with hbefore | hlast
      · exact hw.taken hopen other hbefore
      · simp [List.mem_singleton.mp hlast, hread]
  | refused hopen hnew hread =>
    refine ⟨?_, ?_, honce hopen hnew, by simp⟩
    · simp [hw.sources_eq, foundText, hread]
    · simp [hw.errors_eq, foundMarker, hread]

theorem nodup_sources (hw : Recorded read entry text w) : (w.sources.map Prod.fst).Nodup := by
  have hkeys : ∀ names : List String,
      ((names.filterMap (foundText read)).map Prod.fst).Sublist names := by
    intro names
    induction names with
    | nil => exact List.Sublist.slnil
    | cons name rest ih =>
      cases hread : read name with
      | text found => simpa [foundText, hread] using ih
      | unreadable | refused => simpa [foundText, hread] using ih.cons name
  rw [hw.sources_eq]
  exact hw.once.sublist ((hkeys w.asked).cons_cons entry)

theorem mem_sources (hw : Recorded read entry text w) {unit : String × String}
    (h : unit ∈ w.sources) : unit = (entry, text) ∨ read unit.1 = .text unit.2 := by
  rw [hw.sources_eq] at h
  rcases List.mem_cons.mp h with rfl | hmem
  · exact Or.inl rfl
  · obtain ⟨name, -, hname⟩ := List.mem_filterMap.mp hmem
    right
    cases hread : read name with
    | text found =>
      obtain rfl : (name, found) = unit := by simpa [foundText, hread] using hname
      exact hread
    | unreadable | refused => simp [foundText, hread] at hname

theorem errors_of_readable (hw : Recorded read entry text w)
    (hreadable : ∀ name ∈ w.asked, ∃ found, read name = .text found) : w.errors = [] := by
  rw [hw.errors_eq]
  refine List.filterMap_eq_nil_iff.mpr fun name hname => ?_
  obtain ⟨found, hread⟩ := hreadable name hname
  simp [foundMarker, hread]

end Recorded

theorem run_recorded (read : String → Reading) (entry text : String) (limit : Nat) :
    Recorded read entry text ((start entry text).run read limit) :=
  run_keeps (fun _ _ _ hw h => hw.visit h)
    (fun _ _ hw => ⟨hw.sources_eq, hw.errors_eq, hw.once, hw.taken⟩) Recorded.start limit

/-- All names of a row of visits are settled in the end. -/
theorem settled_foldl {names : List String} (hname : name ∈ names) :
    (names.foldl (visit read) w).Settled name := by
  induction names generalizing w with
  | nil => simp at hname
  | cons first rest ih =>
    rcases List.mem_cons.mp hname with rfl | hrest
    · exact foldl_keeps (fun _ _ _ hw h => h.keeps_settled hw) (visit_cases read w name).settled rest
    · exact ih hrest

/-- A walk begins by visiting the imports of its entry. -/
theorem run_start (read : String → Reading) (entry text : String) (limit : Nat) :
    (start entry text).run read (limit + 1) =
      ((imported entry text).foldl (visit read) { start entry text with pending := [] }).run read
        limit := rfl

/-- A walk asks for every import of its entry but the entry itself, unless a name is refused. -/
theorem mem_asked (read : String → Reading) (hname : name ∈ imported entry text)
    (hother : name ≠ entry) (limit : Nat) :
    name ∈ ((start entry text).run read (limit + 1)).asked ∨
      ∃ refused ∈ ((start entry text).run read (limit + 1)).asked, read refused = .refused := by
  have haccounted := run_accounted read entry text (limit + 1)
  have hsettled : ((start entry text).run read (limit + 1)).Settled name := by
    rw [run_start]
    exact run_keeps (fun _ _ _ hw h => h.keeps_settled hw) (fun _ _ hw => hw)
      (settled_foldl hname) limit
  rcases hsettled with hended | hknown
  · exact Or.inr (haccounted.ended hended)
  · exact Or.inl ((haccounted.known name hknown).resolve_left hother)

/-- A walk from a unit whose only import cannot be read asks for that import and ends. -/
theorem run_single {marker : String} (himported : imported entry text = [name])
    (hother : name ≠ entry) (hread : read name = .unreadable marker) (limit : Nat) :
    (start entry text).run read (limit + 1) =
      ⟨[(entry, text)], [(name, marker)], [], [name], false⟩ := by
  have hvisit : visit read { start entry text with pending := [] } name =
      ⟨[(entry, text)], [(name, marker)], [], [name], false⟩ := by
    simp [visit, knows, start, field?, hread, Ne.symm hother]
  rw [run_start, himported, List.foldl_cons, List.foldl_nil, hvisit]
  cases limit <;> rfl

/-- A walk from a unit that imports only itself asks for nothing. -/
theorem run_self (himported : imported entry text = [entry]) (limit : Nat) :
    (start entry text).run read (limit + 1) = ⟨[(entry, text)], [], [], [], false⟩ := by
  have hvisit : visit read { start entry text with pending := [] } entry =
      ⟨[(entry, text)], [], [], [], false⟩ := by
    simp [visit, knows, start, field?]
  rw [run_start, himported, List.foldl_cons, List.foldl_nil, hvisit]
  cases limit <;> rfl

end AuditHours.Import.Walk
