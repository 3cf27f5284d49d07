import AuditHours.Proofs.Import.ImportClosure
import Mathlib.Data.Set.Finite.Basic

/-!
How long a walk goes on. Every round takes one pending unit, and a unit becomes pending once, when
it is found. So the units that were taken and those that are pending are together the units that
were found. Where only finitely many names have a text this bounds the rounds, whatever imports
what: the walk ends, and it has then taken each unit that it found once.
-/
namespace AuditHours.Import.Walk

variable {read : String → Reading} {entry text name : String} {w v : Walk} {limit : Nat}
  {before rest : List (String × String)} {unit : String × String}

def taken (read : String → Reading) : Nat → Walk → List (String × String)
  | 0, _ => []
  | limit + 1, w =>
    match w.pending with
    | [] => []
    | unit :: _ => unit :: taken read limit (w.step read)

/-- The units that were taken before and those that are pending are together the units found; a
refused name leaves nothing pending. -/
structure Balanced (before : List (String × String)) (w : Walk) : Prop where
  found : w.refused = false → (before ++ w.pending).Perm w.sources
  emptied : w.refused = true → w.pending = []

namespace Balanced

theorem start : Balanced [] (start entry text) :=
  ⟨fun _ => List.Perm.refl _, fun hrefused => by simp [Walk.start] at hrefused⟩

theorem visit (hw : Balanced before w) (h : Visit read w name v) : Balanced before v := by
  cases h with
  | passed => exact hw
  | found contents hopen =>
    refine ⟨fun _ => ?_, fun hrefused => by simp [hopen] at hrefused⟩
    calc List.Perm (before ++ (name, contents) :: w.pending)
          ((name, contents) :: (before ++ w.pending)) := List.perm_middle
      List.Perm _ ((name, contents) :: w.sources) := (hw.found hopen).cons _
      List.Perm _ (w.sources ++ [(name, contents)]) := (List.perm_append_singleton _ _).symm
  | failed marker hopen =>
    exact ⟨fun _ => hw.found hopen, fun hrefused => by simp [hopen] at hrefused⟩
  | refused => exact ⟨fun hopen => by simp at hopen, fun _ => rfl⟩

theorem not_refused (hw : Balanced before w) (hpending : w.pending = unit :: rest) :
    w.refused = false := by
  cases hrefused : w.refused with
  | false => rfl
  | true => simp [hw.emptied hrefused] at hpending

/-- A round takes the first of the pending units. -/
theorem step (hw : Balanced before w) (hpending : w.pending = unit :: rest) :
    Balanced (before ++ [unit]) (w.step read) := by
  have hopen := hw.not_refused hpending
  have hfound := hw.found hopen
  have hmoved : Balanced (before ++ [unit]) { w with pending := rest } := by
    refine ⟨fun _ => ?_, fun hrefused => by simp [hopen] at hrefused⟩
    simpa [hpending] using hfound
  unfold Walk.step
  rw [hpending]
  exact foldl_keeps (fun _ _ _ hw h => hw.visit h) hmoved _

theorem run (hw : Balanced before w) (limit : Nat) :
    Balanced (before ++ taken read limit w) (w.run read limit) := by
  induction limit generalizing w before with
  | zero => simpa [taken, Walk.run] using hw
  | succ limit ih =>
    cases hpending : w.pending with
    | nil => simpa [taken, Walk.run, hpending] using hw
    | cons unit rest => simpa [taken, Walk.run, hpending] using ih (hw.step hpending)

end Balanced

/-- As long as something is pending, every round has taken a unit. -/
theorem length_taken (hmore : ∀ earlier < limit, (w.run read earlier).pending ≠ []) :
    (taken read limit w).length = limit := by
  induction limit generalizing w with
  | zero => rfl
  | succ limit ih =>
    have hfirst : w.pending ≠ [] := hmore 0 (Nat.succ_pos limit)
    obtain ⟨unit, rest, hpending⟩ := List.exists_cons_of_ne_nil hfirst
    have hlater : ∀ earlier < limit, ((w.step read).run read earlier).pending ≠ [] := by
      intro earlier hearlier
      simpa [Walk.run, hpending] using hmore (earlier + 1) (Nat.succ_lt_succ hearlier)
    simp [taken, hpending, ih hlater]

/-- A walk that never finds more than a number of units ends within this number of rounds. -/
theorem exists_last_round {most : Nat}
    (hmost : ∀ limit, ((start entry text).run read limit).sources.length ≤ most) :
    ∃ rounds, ((start entry text).run read rounds).pending = [] ∧
      ∀ earlier < rounds, ((start entry text).run read earlier).pending ≠ [] := by
  have hended : ∃ rounds, ((start entry text).run read rounds).pending = [] := by
    by_contra hnever
    have hmore : ∀ limit, ((start entry text).run read limit).pending ≠ [] :=
      fun limit hpending => hnever ⟨limit, hpending⟩
    -- by the round with this number more units would have been taken and be pending than are found
    have hw : Balanced (taken read most (start entry text)) ((start entry text).run read most) :=
      Balanced.start.run most
    obtain ⟨unit, rest, hpending⟩ := List.exists_cons_of_ne_nil (hmore most)
    have hlength := (hw.found (hw.not_refused hpending)).length_eq
    have htaken := @length_taken read (start entry text) most fun earlier _ => hmore earlier
    have hbound := hmost most
    rw [List.length_append, htaken, hpending, List.length_cons] at hlength
    omega
  classical
  exact ⟨Nat.find hended, Nat.find_spec hended, fun _ hearlier => Nat.find_min hended hearlier⟩

/-- Where only finitely many names have a text, a walk finds at most one unit more than these. -/
theorem length_sources_le (hfinite : {name | ∃ found, read name = .text found}.Finite)
    (entry text : String) (limit : Nat) :
    ((start entry text).run read limit).sources.length ≤ hfinite.toFinset.card + 1 := by
  have hw := run_recorded read entry text limit
  generalize (start entry text).run read limit = w at hw ⊢
  have hnames : (w.sources.map Prod.fst).toFinset ⊆ insert entry hfinite.toFinset := by
    intro name hname
    obtain ⟨unit, hunit, rfl⟩ := List.mem_map.mp (List.mem_toFinset.mp hname)
    rcases hw.mem_sources hunit with rfl | hread
    · exact Finset.mem_insert_self _ _
    · exact Finset.mem_insert_of_mem (hfinite.mem_toFinset.mpr ⟨unit.2, hread⟩)
  calc w.sources.length
      _ = (w.sources.map Prod.fst).toFinset.card := by
        rw [List.toFinset_card_of_nodup hw.nodup_sources, List.length_map]
      _ ≤ (insert entry hfinite.toFinset).card := Finset.card_le_card hnames
      _ ≤ hfinite.toFinset.card + 1 := Finset.card_insert_le _ _

/-- Every name that is asked for and not refused is found or fails. -/
theorem Recorded.length_asked (hw : Recorded read entry text w) (hopen : w.refused = false) :
    w.asked.length = (w.sources.length - 1) + w.errors.length := by
  have hsplit : ∀ names : List String, (∀ name ∈ names, read name ≠ .refused) →
      names.length =
        (names.filterMap (foundText read)).length + (names.filterMap (foundMarker read)).length := by
    intro names hnames
    induction names with
    | nil => rfl
    | cons name rest ih =>
      have hrest := ih fun other hother => hnames other (List.mem_cons_of_mem _ hother)
      have hname := hnames name (List.mem_cons_self ..)
      cases hread : read name with
      | text found | unreadable marker =>
        simp [foundText, foundMarker, hread]
        omega
      | refused => exact absurd hread hname
  rw [hw.sources_eq, hw.errors_eq, List.length_cons, Nat.add_sub_cancel]
  exact hsplit w.asked (hw.taken hopen)

/-- A walk that ends after a number of rounds, and what it has done by then. -/
structure EndsAfter (read : String → Reading) (entry text : String) (rounds : Nat) (w : Walk) :
    Prop where
  ended : (start entry text).run read rounds = w ∧ w.pending = []
  went_on : ∀ earlier < rounds, ((start entry text).run read earlier).pending ≠ []
  taken_once : (∀ name ∈ w.asked, read name ≠ .refused) →
    (taken read rounds (start entry text)).Perm w.sources ∧ (w.sources.map Prod.fst).Nodup
  counts : (∀ name ∈ w.asked, read name ≠ .refused) →
    rounds = w.sources.length ∧ w.asked.length = (w.sources.length - 1) + w.errors.length
  collected : ∀ (r : Resolver) (world : World), rounds ≤ unitLimit →
    (∀ name ∈ w.asked, read name ≠ .refused ∧ r.reading world.tree name = read name) →
    ∃ records, (r.collect entry text).inWorld world =
      (.ok ⟨w.sources, w.errors⟩, r.afterReading world w.asked records)

/-- A walk ends if only finitely many names have a text, whatever the units import and however many
names have none. -/
theorem ends_of_finitely_many_texts (read : String → Reading) (entry text : String)
    (hfinite : {name | ∃ found, read name = .text found}.Finite) :
    ∃ rounds w, EndsAfter read entry text rounds w := by
  obtain ⟨rounds, hended, hmore⟩ := exists_last_round (length_sources_le hfinite entry text)
  have hbalanced : Balanced (taken read rounds (start entry text))
      ((start entry text).run read rounds) := Balanced.start.run rounds
  have hrecorded := run_recorded read entry text rounds
  have hlength : (taken read rounds (start entry text)).length = rounds := length_taken hmore
  generalize hw : (start entry text).run read rounds = w at hended hbalanced hrecorded
  have hopen : (∀ name ∈ w.asked, read name ≠ .refused) → w.refused = false := by
    intro hnone
    by_contra hrefused
    obtain ⟨name, hname, hread⟩ :=
      (run_accounted read entry text rounds).ended (by simpa [hw] using hrefused)
    rw [hw] at hname
    exact hnone name hname hread
  have hperm : (∀ name ∈ w.asked, read name ≠ .refused) →
      (taken read rounds (start entry text)).Perm w.sources := by
    intro hnone
    simpa [hended] using hbalanced.found (hopen hnone)
  refine ⟨rounds, w, ⟨hw, hended⟩, hmore, ?_, ?_, ?_⟩
  · intro hnone
    exact ⟨hperm hnone, hrecorded.nodup_sources⟩
  · intro hnone
    have hrounds := (hperm hnone).length_eq
    rw [hlength] at hrounds
    exact ⟨hrounds, hrecorded.length_asked (hopen hnone)⟩
  · intro r world hlimit hanswers
    have hwalk : (start entry text).run read unitLimit = w := by
      rw [← Nat.add_sub_cancel' hlimit, run_add, hw, run_of_pending_nil hended]
    have hsame : r.walk world.tree entry text = w := by
      rw [← hwalk]
      refine run_congr fun name hname => (hanswers name ?_).2
      rwa [hwalk] at hname
    refine r.inWorld_collect world hsame fun name hname => ?_
    rw [(hanswers name hname).2]
    exact (hanswers name hname).1

/-- The walk through the circle ends after three rounds, one for each of its units. -/
theorem ends_of_finitely_many_texts_circle :
    {name | ∃ found, answering circle name = .text found}.Finite ∧
    ∃ w, EndsAfter (answering circle) "main.sol" circleEntry 3 w ∧ w.sources.length = 3 ∧
      w.asked.length = 3 ∧ w.errors.length = 1 := by
  have hfinite : {name | ∃ found, answering circle name = .text found}.Finite := by
    refine (Set.toFinite {"a.sol", "b.sol"}).subset ?_
    rintro name ⟨found, hfound⟩
    rw [answering_eq_text] at hfound
    unfold circle at hfound
    split at hfound
    · next hname => exact Or.inl hname
    · split at hfound
      · next hname => exact Or.inr hname
      · simp at hfound
  obtain ⟨rounds, w, h⟩ := ends_of_finitely_many_texts (answering circle) "main.sol" circleEntry
    hfinite
  have hthree : ((start "main.sol" circleEntry).run (answering circle) 3).pending = [] ∧
      ((start "main.sol" circleEntry).run (answering circle) 3).sources.length = 3 ∧
      ((start "main.sol" circleEntry).run (answering circle) 3).asked.length = 3 ∧
      ((start "main.sol" circleEntry).run (answering circle) 3).errors.length = 1 ∧
      ∀ earlier < 3, ((start "main.sol" circleEntry).run (answering circle) earlier).pending ≠ [] := by
    decide +kernel
  obtain ⟨hpending, hsources, hasked, herrors, hearlier⟩ := hthree
  obtain ⟨hrun, hended⟩ := h.ended
  obtain rfl : rounds = 3 := by
    rcases Nat.lt_trichotomy rounds 3 with hlt | heq | hgt
    · exact absurd (hrun ▸ hended) (hearlier rounds hlt)
    · exact heq
    · exact absurd hpending (h.went_on 3 hgt)
  rw [hrun] at hsources hasked herrors
  exact ⟨hfinite, w, h, hsources, hasked, herrors⟩

end AuditHours.Import.Walk
