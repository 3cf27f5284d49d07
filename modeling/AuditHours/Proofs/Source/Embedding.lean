import AuditHours.Source.Signals
import Mathlib.Data.List.Infix

/-!
Signals of a text inside a longer one. Text added in front or behind takes no occurrence of a marker
away, also where a marker straddles the seam, so no signal becomes weaker. A marker that does not
overlap itself occurs as often as a scan finds it that goes on behind each occurrence.
-/
namespace AuditHours.Source

variable {marker cs : List Char}

/-- No proper end of a marker is a beginning of it, so two occurrences share no character. -/
def Borderless (marker : List Char) : Prop :=
  ∀ k < marker.length, 0 < k → ¬ marker.drop k <+: marker

instance (marker : List Char) : Decidable (Borderless marker) :=
  inferInstanceAs (Decidable (∀ k < marker.length, 0 < k → ¬ marker.drop k <+: marker))

/-- The occurrences of a marker that a scan from left to right finds which goes on behind each of
them; `skip` characters still belong to the last one. -/
def found (marker : List Char) : (skip : Nat) → List Char → Nat
  | _, [] => 0
  | skip + 1, _ :: rest => found marker skip rest
  | 0, c :: rest =>
    if marker.isPrefixOf (c :: rest) then 1 + found marker (marker.length - 1) rest
    else found marker 0 rest

theorem occurrences_cons (c : Char) (rest : List Char) : occurrences marker (c :: rest) =
    (if marker <+: c :: rest then 1 else 0) + occurrences marker rest := by
  simp [occurrences, List.isPrefixOf_iff_prefix]

/-- Inside an occurrence of a marker that does not overlap itself no other one starts. -/
theorem Borderless.not_prefix_drop (h : Borderless marker) (hcs : marker <+: cs) {k : Nat}
    (hk : k < marker.length) (hpos : 0 < k) : ¬ marker <+: cs.drop k := by
  intro hagain
  have hend : marker.drop k <+: cs.drop k := List.IsPrefix.drop hcs k
  have hshorter : (marker.drop k).length ≤ marker.length := by simp
  exact h k hk hpos (List.prefix_of_prefix_length_le hend hagain hshorter)

/-- The scan finds the occurrences behind the characters that it skips, if none starts at them. -/
theorem found_eq_occurrences (h : Borderless marker) (hmarker : marker ≠ []) (skip : Nat)
    (hskip : ∀ k < skip, ¬ marker <+: cs.drop k) :
    found marker skip cs = occurrences marker cs := by
  induction cs generalizing skip with
  | nil => simp [found, occurrences, hmarker]
  | cons c rest ih =>
    cases skip with
    | succ skip =>
      have hfirst : ¬ marker <+: c :: rest := hskip 0 (Nat.succ_pos skip)
      rw [occurrences_cons, if_neg hfirst, Nat.zero_add]
      exact ih skip fun k hk => hskip (k + 1) (Nat.succ_lt_succ hk)
    | zero =>
      rw [occurrences_cons]
      unfold found
      simp only [List.isPrefixOf_iff_prefix]
      by_cases hfirst : marker <+: c :: rest
      · rw [if_pos hfirst, if_pos hfirst]
        congr 1
        apply ih
        intro k hk
        exact h.not_prefix_drop hfirst (k := k + 1) (by omega) (Nat.succ_pos k)
      · rw [if_neg hfirst, if_neg hfirst, Nat.zero_add]
        exact ih 0 (by simp)

/-- The markers that are counted are counted as a scan finds them. -/
theorem occurrences_eq_found (hmarker : marker ∈ [callMarker, importMarker]) (cs : List Char) :
    occurrences marker cs = found marker 0 cs := by
  have hborderless : Borderless marker ∧ marker ≠ [] := by
    revert marker
    decide
  exact (found_eq_occurrences hborderless.1 hborderless.2 0 (by simp)).symm

/-! ### Embedding -/

theorem occurrences_le_append_left (a cs : List Char) :
    occurrences marker cs ≤ occurrences marker (a ++ cs) := by
  induction a with
  | nil => exact Nat.le_refl _
  | cons c rest ih =>
    rw [List.cons_append, occurrences_cons]
    omega

theorem occurrences_pos_of_nil (cs : List Char) : 1 ≤ occurrences [] cs := by
  induction cs with
  | nil => exact Nat.le_refl _
  | cons c rest ih =>
    rw [occurrences_cons]
    omega

theorem occurrences_le_append_right (cs b : List Char) :
    occurrences marker cs ≤ occurrences marker (cs ++ b) := by
  induction cs with
  | nil =>
    rw [List.nil_append]
    by_cases hmarker : marker = []
    · subst hmarker
      exact occurrences_pos_of_nil b
    · simp [occurrences, hmarker]
  | cons c rest ih =>
    rw [List.cons_append, occurrences_cons, occurrences_cons]
    by_cases hfirst : marker <+: c :: rest
    · have hlonger : marker <+: c :: (rest ++ b) := hfirst.trans ⟨b, by simp⟩
      rw [if_pos hfirst, if_pos hlonger]
      omega
    · rw [if_neg hfirst]
      omega

/-- A text inside a longer one holds no more occurrences of a marker. -/
theorem occurrences_le_embed (a d b : List Char) :
    occurrences marker d ≤ occurrences marker (a ++ d ++ b) :=
  Nat.le_trans (occurrences_le_append_left a d) (occurrences_le_append_right (a ++ d) b)

theorem mentions_embed {d : List Char} (h : mentions marker d = true) (a b : List Char) :
    mentions marker (a ++ d ++ b) = true := by
  have hle : occurrences marker d ≤ occurrences marker (a ++ d ++ b) := occurrences_le_embed a d b
  unfold mentions at h ⊢
  rw [bne_iff_ne] at h ⊢
  omega

structure Signals.AtMost (s t : Signals) : Prop where
  lineCount : s.lineCount ≤ t.lineCount
  externalCalls : s.externalCalls ≤ t.externalCalls
  imports : s.imports ≤ t.imports
  hasAssembly : s.hasAssembly = true → t.hasAssembly = true
  isUpgradeable : s.isUpgradeable = true → t.isUpgradeable = true

/-- The signals of a source are no stronger than those of a source around it. -/
theorem signals_atMost (a d b : String) : (signals d).AtMost (signals (a ++ d ++ b)) := by
  unfold signals
  rw [String.toList_append, String.toList_append]
  refine ⟨?_, occurrences_le_embed _ _ _, occurrences_le_embed _ _ _, ?_, ?_⟩
  · simp only [Signals.ofChars, List.count_append]
    omega
  · exact fun h => mentions_embed h _ _
  · intro h
    obtain ⟨marker, hmem, hmarker⟩ := List.any_eq_true.mp h
    exact List.any_eq_true.mpr ⟨marker, hmem, mentions_embed hmarker _ _⟩

end AuditHours.Source
