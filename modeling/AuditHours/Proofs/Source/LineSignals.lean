import AuditHours.Proofs.Source.Declarations
import AuditHours.Proofs.Source.Embedding

/-!
Signals line by line. No marker holds a line break and no declaration goes beyond its line, so a
line break between two sources neither makes nor breaks a match: the counts of both are added, what
one of them shows is shown, and the first declaration is that of the first source that has one. It
follows that the signals of a source are those of its lines taken together.
-/
namespace AuditHours.Source

namespace Signals

instance : Add Signals where
  add s t :=
    { lineCount := s.lineCount + t.lineCount
      externalCalls := s.externalCalls + t.externalCalls
      imports := s.imports + t.imports
      hasAssembly := s.hasAssembly || t.hasAssembly
      isUpgradeable := s.isUpgradeable || t.isUpgradeable }

instance : Zero Signals := ⟨⟨0, 0, 0, false, false⟩⟩

theorem add_def (s t : Signals) : s + t =
    ⟨s.lineCount + t.lineCount, s.externalCalls + t.externalCalls, s.imports + t.imports,
      s.hasAssembly || t.hasAssembly, s.isUpgradeable || t.isUpgradeable⟩ := rfl

theorem add_zero (s : Signals) : s + 0 = s := by
  obtain ⟨lines, calls, imports, assembly, upgradeable⟩ := s
  change (⟨lines + 0, calls + 0, imports + 0, assembly || false, upgradeable || false⟩ : Signals) = _
  simp

end Signals

section

variable {marker cs rest : List Char} {c : Char}

/-- A beginning that lacks a character lies before its first occurrence. -/
theorem prefix_append_cons_iff {p : List Char} (hp : c ∉ p) : p <+: cs ++ c :: rest ↔ p <+: cs := by
  constructor
  · rintro ⟨after, hafter⟩
    rcases List.append_eq_append_iff.mp hafter with ⟨more, rfl, -⟩ | ⟨more, rfl, hmore⟩
    · exact List.prefix_append p more
    · cases more with
      | nil => simp
      | cons d more =>
        obtain ⟨rfl, -⟩ := List.cons.inj hmore
        exact absurd (by simp) hp
  · exact fun h => h.trans (List.prefix_append cs _)

/-- A marker that lacks a character occurs on one side of it or on the other. -/
theorem occurrences_seam (hne : marker ≠ []) (hc : c ∉ marker) (a b : List Char) :
    occurrences marker (a ++ c :: b) = occurrences marker a + occurrences marker b := by
  induction a with
  | nil =>
    have hfirst : ¬ marker <+: c :: b := by
      intro h
      have hnone : marker <+: [] := (@prefix_append_cons_iff [] b c marker hc).mp h
      exact hne (List.prefix_nil.mp hnone)
    have hempty : occurrences marker [] = 0 := if_neg hne
    rw [List.nil_append, occurrences_cons, if_neg hfirst, hempty]
  | cons d a ih =>
    have hfirst : marker <+: d :: (a ++ c :: b) ↔ marker <+: d :: a :=
      @prefix_append_cons_iff (d :: a) b c marker hc
    rw [List.cons_append, occurrences_cons, occurrences_cons, ih]
    simp only [hfirst]
    omega

theorem mentions_seam (hne : marker ≠ []) (hc : c ∉ marker) (a b : List Char) :
    mentions marker (a ++ c :: b) = (mentions marker a || mentions marker b) := by
  unfold mentions
  rw [occurrences_seam hne hc, Bool.eq_iff_iff]
  simp only [bne_iff_ne, Bool.or_eq_true]
  omega

end

/-! ### Two sources with a character between them -/

def markers : List (List Char) := callMarker :: importMarker :: assemblyMarker :: upgradeMarkers

theorem markers_ne_nil : ∀ marker ∈ markers, marker ≠ [] := by
  decide

/-- The signals of two sources with a character between them that is in no marker are theirs taken
together, but for the number of lines. -/
theorem ofChars_seam {c : Char} (hc : ∀ marker ∈ markers, c ∉ marker) (a b : List Char) :
    Signals.ofChars (a ++ c :: b) =
      { Signals.ofChars a + Signals.ofChars b with lineCount := (a ++ c :: b).count '\n' + 1 } := by
  have hcount : ∀ marker ∈ markers,
      occurrences marker (a ++ c :: b) = occurrences marker a + occurrences marker b :=
    fun marker hmarker => occurrences_seam (markers_ne_nil marker hmarker) (hc marker hmarker) a b
  have hmention : ∀ marker ∈ markers,
      mentions marker (a ++ c :: b) = (mentions marker a || mentions marker b) :=
    fun marker hmarker => mentions_seam (markers_ne_nil marker hmarker) (hc marker hmarker) a b
  have hcalls := hcount callMarker (by simp [markers])
  have himports := hcount importMarker (by simp [markers])
  have hassembly := hmention assemblyMarker (by simp [markers])
  have hupgrade : upgradeMarkers.any (mentions · (a ++ c :: b)) =
      (upgradeMarkers.any (mentions · a) || upgradeMarkers.any (mentions · b)) := by
    rw [Bool.eq_iff_iff]
    simp only [List.any_eq_true, Bool.or_eq_true, ← exists_or, ← and_or_left]
    refine exists_congr fun marker => and_congr_right fun hmarker => ?_
    rw [hmention marker (by simp [markers, hmarker]), Bool.or_eq_true]
  rw [Signals.add_def]
  unfold Signals.ofChars
  simp only [hcalls, himports, hassembly, hupgrade]

/-- The signals of two sources with a line break between them are theirs taken together. -/
theorem ofChars_lineBreak (a b : List Char) :
    Signals.ofChars (a ++ '\n' :: b) = Signals.ofChars a + Signals.ofChars b := by
  have hlines : (a ++ '\n' :: b).count '\n' + 1 = (a.count '\n' + 1) + (b.count '\n' + 1) := by
    rw [List.count_append, List.count_cons_self]
    omega
  rw [ofChars_seam (by decide), hlines]
  rfl

/-- The first declaration of two sources with a line break between them is that of the first one, if
it has any. -/
theorem constraint?_lineBreak (a b : List Char) : constraint? (String.ofList (a ++ '\n' :: b)) =
    (constraint? (String.ofList a)).or (constraint? (String.ofList b)) := by
  simp only [constraint?, String.toList_ofList, splitLines_eq, List.splitOn_append_cons_self,
    List.findSome?_append]
  cases (a.splitOn '\n').findSome? declared? <;> rfl

/-! ### Any number of sources -/

/-- What holds of a single source, and of a source in front of others whenever it holds of the
others, holds of all sources with line breaks between them. -/
theorem joined_induction {motive : List (List Char) → List Char → Prop}
    (single : ∀ text, motive [text] text)
    (seam : ∀ first others rest, motive others rest → motive (first :: others) (first ++ '\n' :: rest))
    {texts : List (List Char)} (hne : texts ≠ []) : motive texts (['\n'].intercalate texts) := by
  induction texts with
  | nil => exact absurd rfl hne
  | cons first others ih =>
    cases others with
    | nil =>
      rw [List.intercalate_singleton]
      exact single first
    | cons second others =>
      rw [List.intercalate_cons_cons, List.append_assoc, List.singleton_append]
      exact seam first _ _ (ih (by simp))

theorem ofChars_intercalate {texts : List (List Char)} (hne : texts ≠ []) :
    Signals.ofChars (['\n'].intercalate texts) = (texts.map Signals.ofChars).sum := by
  refine @joined_induction (fun texts text => Signals.ofChars text = (texts.map Signals.ofChars).sum)
    ?_ ?_ texts hne
  · intro text
    simp [Signals.add_zero]
  · intro first others rest ih
    rw [ofChars_lineBreak, ih, List.map_cons, List.sum_cons]

theorem constraint?_intercalate {texts : List (List Char)} (hne : texts ≠ []) :
    constraint? (String.ofList (['\n'].intercalate texts)) =
      (texts.map String.ofList).findSome? constraint? := by
  refine @joined_induction (fun texts text => constraint? (String.ofList text) =
    (texts.map String.ofList).findSome? constraint?) ?_ ?_ texts hne
  · intro text
    simp
  · intro first others rest ih
    rw [constraint?_lineBreak, ih, List.map_cons, List.findSome?_cons]
    cases constraint? (String.ofList first) <;> rfl

/-- The signals of a source are those of its lines taken together. -/
theorem ofChars_eq_sum (cs : List Char) :
    Signals.ofChars cs = ((cs.splitOn '\n').map Signals.ofChars).sum := by
  rw [← ofChars_intercalate (List.splitOn_ne_nil _ _), List.intercalate_splitOn]

def lines (text : String) : List String := (text.toList.splitOn '\n').map String.ofList

/-- What a source shows is what its lines show. -/
structure ShownByLines (text : String) : Prop where
  signals_eq : signals text = ((lines text).map signals).sum
  declared_eq : hasVersionDeclaration text = (lines text).any hasVersionDeclaration
  constraint_eq : constraint? text = (lines text).findSome? constraint?

/-- What two sources with a line break between them show. -/
structure ShownBelow (a b : String) : Prop where
  lineCount : (signals (a ++ "\n" ++ b)).lineCount = (signals a).lineCount + (signals b).lineCount
  externalCalls : (signals (a ++ "\n" ++ b)).externalCalls =
    (signals a).externalCalls + (signals b).externalCalls
  imports : (signals (a ++ "\n" ++ b)).imports = (signals a).imports + (signals b).imports
  hasAssembly : (signals (a ++ "\n" ++ b)).hasAssembly =
    ((signals a).hasAssembly || (signals b).hasAssembly)
  isUpgradeable : (signals (a ++ "\n" ++ b)).isUpgradeable =
    ((signals a).isUpgradeable || (signals b).isUpgradeable)
  declared : hasVersionDeclaration (a ++ "\n" ++ b) =
    (hasVersionDeclaration a || hasVersionDeclaration b)
  constraint : Estimate.declaredConstraint (a ++ "\n" ++ b) =
    if hasVersionDeclaration a then Estimate.declaredConstraint a else Estimate.declaredConstraint b
  /-- A scan that goes on behind each occurrence of a counted marker finds those of both sources. -/
  scanned : ∀ marker ∈ [callMarker, importMarker], found marker 0 (a ++ "\n" ++ b).toList =
    found marker 0 a.toList + found marker 0 b.toList

theorem shownByLines (text : String) : ShownByLines text := by
  have hne : text.toList.splitOn '\n' ≠ [] := List.splitOn_ne_nil _ _
  have htext : ['\n'].intercalate (text.toList.splitOn '\n') = text.toList :=
    List.intercalate_splitOn '\n'
  have hsignals := ofChars_eq_sum text.toList
  have hconstraint := constraint?_intercalate hne
  rw [htext, String.ofList_toList] at hconstraint
  refine ⟨?_, ?_, hconstraint⟩
  · have hmap : (lines text).map signals = (text.toList.splitOn '\n').map Signals.ofChars := by
      rw [lines, List.map_map]
      exact List.map_congr_left fun line _ => congrArg Signals.ofChars String.toList_ofList
    rw [hmap]
    exact hsignals
  · rw [Bool.eq_iff_iff, hasVersionDeclaration, hconstraint, List.any_eq_true]
    exact List.findSome?_isSome_iff

theorem shownBelow (a b : String) : ShownBelow a b := by
  have htext : (a ++ "\n" ++ b).toList = a.toList ++ '\n' :: b.toList := by simp
  have hsignals : signals (a ++ "\n" ++ b) = signals a + signals b := by
    rw [signals, htext]
    exact ofChars_lineBreak a.toList b.toList
  have hconstraint : constraint? (a ++ "\n" ++ b) = (constraint? a).or (constraint? b) := by
    have hseam := constraint?_lineBreak a.toList b.toList
    rwa [← htext, String.ofList_toList, String.ofList_toList, String.ofList_toList] at hseam
  rw [Signals.add_def] at hsignals
  refine ⟨congrArg Signals.lineCount hsignals, congrArg Signals.externalCalls hsignals,
    congrArg Signals.imports hsignals, congrArg Signals.hasAssembly hsignals,
    congrArg Signals.isUpgradeable hsignals, ?_, ?_, ?_⟩
  · rw [hasVersionDeclaration, hconstraint, Option.isSome_or]
    rfl
  · unfold Estimate.declaredConstraint hasVersionDeclaration
    rw [hconstraint]
    cases constraint? a <;> rfl
  · intro marker hmarker
    have hplain : marker ≠ [] ∧ '\n' ∉ marker := by
      revert marker
      decide
    rw [← occurrences_eq_found hmarker, ← occurrences_eq_found hmarker,
      ← occurrences_eq_found hmarker, htext, occurrences_seam hplain.1 hplain.2]

/-- What two sources with a line break between them show is what the one and the other show, with
the constraint of the first one that has any. So every source shows what its lines show one by one.
-/
theorem signals_line_by_line (a b : String) : ShownBelow a b ∧ ∀ text, ShownByLines text :=
  ⟨shownBelow a b, shownByLines⟩

end AuditHours.Source
