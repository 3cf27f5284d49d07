import AuditHours.Proofs.Import.ImportClosure
import AuditHours.Proofs.Source.LineBreaks
import AuditHours.Proofs.Source.Lines

/-!
Whether a resolver answers. It has an answer for a name, contents or a marker, exactly if the path
of the name can be handed to a file system, which takes every path but those that hold the character
zero. A walk that is refused such a name has asked for nothing that it would not ask for if all
names were answered, so a unit that can be reached imports the name. A text without the character
imports only names without it.
-/
namespace AuditHours.Import

open Json Relation

namespace Walk

variable {read read' : String → Reading} {resolve : String → Except String String}
  {entry text name : String} {w v : Walk} {limit : Nat}

/-- Two walks are the same, or one of them was refused a name and the other has asked for all that
it has asked for. -/
def Behind (w v : Walk) : Prop :=
  w = v ∨ w.refused = true ∧ ∀ name ∈ w.asked, name ∈ v.asked

/-- A walk that was refused a name asks for nothing more. -/
theorem run_of_refused (read : String → Reading) (limit : Nat) (hw : w.refused = true) :
    (w.run read limit).refused = true ∧ (w.run read limit).asked = w.asked := by
  refine run_keeps (P := fun v => v.refused = true ∧ v.asked = w.asked) ?_ (fun _ _ hv => hv)
    ⟨hw, rfl⟩ limit
  intro v after name hv h
  cases h with
  | passed => exact hv
  | found _ hopen | failed _ hopen | refused hopen => simp [hopen] at hv

theorem visit_of_refused (hw : w.refused = true) : visit read w name = w := by simp [visit, hw]

section

variable (hread : ∀ name, read name ≠ .refused → read' name = read name)

include hread

theorem Behind.visit (h : Behind w v) (name : String) :
    Behind (visit read w name) (visit read' v name) := by
  rcases h with rfl | ⟨hrefused, hasked⟩
  · by_cases hsettled : (w.refused || w.knows name) = true
    · exact Or.inl (by simp [Walk.visit, hsettled])
    · by_cases htaken : read name = .refused
      · right
        refine ⟨by simp [Walk.visit, hsettled, htaken], ?_⟩
        intro other hother
        have hsame : other ∈ w.asked ++ [name] := by
          simpa [Walk.visit, hsettled, htaken] using hother
        unfold Walk.visit
        rw [if_neg hsettled]
        split <;> exact hsame
      · exact Or.inl (by simp [Walk.visit, hsettled, hread name htaken])
  · rw [visit_of_refused hrefused]
    have hgrown := extends_foldl read' v [name]
    exact Or.inr ⟨hrefused, fun other hother => hgrown.1 other (hasked other hother)⟩

theorem Behind.step (w : Walk) : Behind (w.step read) (w.step read') := by
  have hvisits : ∀ (names : List String) (w v : Walk), Behind w v →
      Behind (names.foldl (Walk.visit read) w) (names.foldl (Walk.visit read') v) := by
    intro names
    induction names with
    | nil => exact fun w v h => h
    | cons name rest ih => exact fun w v h => ih _ _ (h.visit hread name)
  unfold Walk.step
  split
  · exact Or.inl rfl
  · exact hvisits _ _ _ (Or.inl rfl)

/-- A walk that is refused a name has asked for nothing that it would not have asked for otherwise.
-/
theorem Behind.run (h : Behind w v) (limit : Nat) : Behind (w.run read limit) (v.run read' limit) := by
  induction limit generalizing w v with
  | zero => exact h
  | succ limit ih =>
    rcases h with rfl | ⟨hrefused, hasked⟩
    · by_cases hpending : w.pending = []
      · exact Or.inl (by rw [run_of_pending_nil hpending, run_of_pending_nil hpending])
      · simpa [Walk.run, hpending] using ih (Behind.step hread w)
    · obtain ⟨hstill, hnothing⟩ := run_of_refused read (limit + 1) hrefused
      refine Or.inr ⟨hstill, fun name hname => ?_⟩
      rw [hnothing] at hname
      exact (extends_run read' v (limit + 1)).1 name (hasked name hname)

end

theorem Sound.imported_of_asked (hw : Sound resolve entry text w) (hname : name ∈ w.asked) :
    name ≠ entry ∧ ∃ importer, Reachable resolve entry text importer ∧
      Imports resolve entry text importer name := by
  obtain ⟨hother, hknown⟩ := hw.mem_asked_iff.mp hname
  refine ⟨hother, ?_⟩
  rcases knows_iff.mp hknown with hsource | herror
  · obtain ⟨unit, hunit, rfl⟩ := List.mem_map.mp hsource
    obtain ⟨-, hreached⟩ := hw.found unit hunit
    rcases ReflTransGen.cases_tail hreached with hself | ⟨importer, himporter, hstep⟩
    · exact absurd hself hother
    · exact ⟨importer, himporter, hstep.1⟩
  · obtain ⟨failure, hfailure, rfl⟩ := List.mem_map.mp herror
    obtain ⟨-, unit, hunit, himported⟩ := hw.failed failure hfailure
    obtain ⟨htext, hreached⟩ := hw.found unit hunit
    exact ⟨unit.1, hreached, (imports_iff htext).mpr himported⟩

/-- Whatever a walk asks for is imported by a unit that can be reached, even if it is refused. -/
theorem imported_of_asked (resolve : String → Except String String)
    (hread : ∀ name, read name ≠ .refused → answering resolve name = read name)
    (hname : name ∈ ((start entry text).run read limit).asked) :
    name ≠ entry ∧ ∃ importer, Reachable resolve entry text importer ∧
      Imports resolve entry text importer name := by
  have hsound : Sound resolve entry text ((start entry text).run (answering resolve) limit) :=
    (Takes.start.run limit).explores.1
  refine hsound.imported_of_asked ?_
  rcases Behind.run hread (Or.inl rfl : Behind (start entry text) (start entry text)) limit with
    hsame | ⟨-, hasked⟩
  · rwa [← hsame]
  · exact hasked name hname

end Walk

/-! ### The characters of unit names -/

section

variable {c : Char} {cs path after : List Char}

theorem mem_of_importAt? (h : Source.importAt? cs = some (path, after)) :
    path ⊆ cs ∧ after ⊆ cs := by
  simp only [Source.importAt?, Option.bind_eq_bind, Option.bind_eq_some_iff] at h
  obtain ⟨body, hbody, h⟩ := h
  have hcs : body ⊆ cs := by
    intro d hd
    refine (List.dropWhile_suffix Text.isBlank).subset ?_
    rw [Source.dropPrefix?_eq hbody]
    exact List.mem_append_right _ hd
  split at h
  · next opening rest hopening =>
    have hrest : rest ⊆ cs := by
      intro d hd
      refine hcs ((List.dropWhile_suffix fun c => !Source.endsClause c).subset ?_)
      rw [hopening]
      exact List.mem_cons_of_mem _ hd
    split at h
    · next closing others hclosing =>
      have hothers : others ⊆ cs := by
        intro d hd
        refine hrest ((List.dropWhile_suffix fun c => !Source.isQuote c).subset ?_)
        rw [hclosing]
        exact List.mem_cons_of_mem _ hd
      split at h
      · obtain ⟨rfl, rfl⟩ : _ ∧ _ := by simpa using h
        exact ⟨fun d hd => hrest ((List.takeWhile_prefix _).subset hd), hothers⟩
      · simp at h
    · simp at h
  · simp at h

theorem nextLine_suffix (cs : List Char) : Source.nextLine cs <:+ cs := by
  induction cs with
  | nil => exact List.suffix_refl []
  | cons d rest ih =>
    unfold Source.nextLine
    split
    · exact List.suffix_cons d rest
    · exact ih.trans (List.suffix_cons d rest)

theorem subset_of_mem_importPaths (h : path ∈ Source.importPaths cs) : path ⊆ cs := by
  induction cs using Source.importPaths.induct with
  | case1 => simp at h
  | case2 cs hne found after hfound ih =>
    obtain ⟨hpath, hafter⟩ := mem_of_importAt? hfound
    rw [Source.importPaths_of_found hfound] at h
    rcases List.mem_cons.mp h with rfl | hlater
    · exact hpath
    · exact fun d hd => hafter ((nextLine_suffix after).subset (ih hlater hd))
  | case3 cs hne hnone ih =>
    rw [Source.importPaths_of_none hnone] at h
    intro d hd
    exact (List.dropWhile_suffix _).subset ((nextLine_suffix _).subset (ih h hd))

/-- An import path holds no character that its source does not hold. -/
theorem mem_of_mem_findImports {source path : String} (h : path ∈ Source.findImports source)
    (hc : c ∈ path.toList) : c ∈ source.toList := by
  obtain ⟨chars, hchars, rfl⟩ := List.mem_map.mp h
  rw [String.toList_ofList] at hc
  exact (Source.thinned_stripped _).sublist.subset (subset_of_mem_importPaths hchars hc)

/-- Apart from dots and slashes a unit name holds only characters of the importing unit's name and
of the import path. -/
theorem mem_unitName (hslash : c ≠ '/') (hdot : c ≠ '.') {importer path : String}
    (h : c ∈ (unitName importer path).toList) : c ∈ importer.toList ∨ c ∈ path.toList := by
  unfold unitName at h
  split at h
  · have hjoined := Files.Path.mem_text_of_mem_collapse hslash hdot h
    rw [Files.Path.mem_text_ofString_iff hslash hdot, String.toList_ofList] at hjoined
    refine (List.mem_append.mp hjoined).imp_left fun hdirectory => ?_
    have hbefore := (List.dropWhile_suffix _).subset (List.mem_reverse.mp hdirectory)
    exact List.mem_reverse.mp hbefore
  · exact Or.inr h

end

/-! ### What a resolver answers -/

namespace Resolver

/-- What a resolver has for a name in a file tree: the contents of the file, or a marker if there
are none to be read. -/
def answer (r : Resolver) (tree : Files.Tree) (name : String) : Except String String :=
  match tree.readText (r.path name) with
  | .ok text => .ok text
  | .error _ => .error (marker (r.path name))

structure ZeroFree (r : Resolver) : Prop where
  base : '\x00' ∉ r.vendorBase.text.toList
  package : '\x00' ∉ r.packagePrefix.toList
  root : ∀ root ∈ r.root, '\x00' ∉ root.text.toList

/-- A unit that the entry reaches imports a name whose path holds the character zero. -/
def ImportsZero (r : Resolver) (tree : Files.Tree) (entry source : String) : Prop :=
  ∃ importer name, Walk.Reachable (r.answer tree) entry source importer ∧
    Walk.Imports (r.answer tree) entry source importer name ∧ name ≠ entry ∧
    '\x00' ∈ (r.path name).text.toList

variable {r : Resolver} {tree : Files.Tree} {entry source name : String}

theorem answering_answer_of_taken (h : r.reading tree name ≠ .refused) :
    Walk.answering (r.answer tree) name = r.reading tree name := by
  unfold Walk.answering answer
  unfold reading at h ⊢
  split at h
  · next text hread => simp [hread]
  · exact absurd rfl h
  · next failure hother hread => simp [hread]

theorem mem_path_iff (hr : r.ZeroFree) :
    '\x00' ∈ (r.path name).text.toList ↔ '\x00' ∈ name.toList := by
  unfold path
  split
  · next rest hpackage =>
    obtain ⟨chars, hchars, rfl⟩ := Option.map_eq_some_iff.mp hpackage
    rw [Files.Path.mem_text_join_iff (by decide) (by decide) hr.base,
      Files.Path.mem_text_ofString_iff (by decide) (by decide), String.toList_ofList,
      Source.dropPrefix?_eq hchars, List.mem_append]
    exact (or_iff_right hr.package).symm
  · split
    · next root hroot =>
      rw [Files.Path.mem_text_join_iff (by decide) (by decide) (hr.root root hroot),
        Files.Path.mem_text_ofString_iff (by decide) (by decide)]
    · exact Files.Path.mem_text_ofString_iff (by decide) (by decide)

/-- A resolver with the standard prefix has no such part if its directory has no such name. -/
theorem zeroFree_ofBase {base : String} (h : '\x00' ∉ base.toList) : (ofBase base).ZeroFree where
  base := by
    show '\x00' ∉ (Files.Path.ofString base).text.toList
    rwa [Files.Path.mem_text_ofString_iff (by decide) (by decide)]
  package := by
    show '\x00' ∉ standardPrefix.toList
    decide
  root := by simp [ofBase]

theorem inWorld_read (r : Resolver) (world : World) (name : String) :
    ((r.read name).inWorld world).1 =
      if '\x00' ∈ (r.path name).text.toList then .error (.file .zeroCharacter)
      else .ok (Walk.answering (r.answer world.tree) name) := by
  obtain ⟨records, hnote⟩ := r.inWorld_note world name
  unfold read
  by_cases hrefused : r.reading world.tree name = .refused
  · rw [if_pos hrefused] at hnote
    rw [if_pos (reading_eq_refused.mp hrefused), Run.inWorld_bind_error hnote]
  · rw [if_neg hrefused] at hnote
    rw [if_neg (mt reading_eq_refused.mpr hrefused), Run.inWorld_bind_ok hnote,
      answering_answer_of_taken hrefused]
    rfl

theorem importsZero_of_asked (hasked : name ∈ (r.walk tree entry source).asked)
    (hzero : '\x00' ∈ (r.path name).text.toList) : r.ImportsZero tree entry source := by
  obtain ⟨hother, importer, hreached, himports⟩ :=
    Walk.imported_of_asked (r.answer tree) (fun _ => answering_answer_of_taken) hasked
  exact ⟨importer, name, hreached, himports, hother, hzero⟩

/-- A walk that has ended and was refused nothing has asked for every import of the units that can
be reached. -/
theorem not_importsZero_of_taken (hended : (r.walk tree entry source).pending = [])
    (htaken : ∀ name ∈ (r.walk tree entry source).asked, r.reading tree name ≠ .refused) :
    ¬ r.ImportsZero tree entry source := by
  rintro ⟨importer, name, hreached, himports, hother, hzero⟩
  have hsame : (Walk.start entry source).run (Walk.answering (r.answer tree)) unitLimit =
      r.walk tree entry source :=
    Walk.run_congr fun name hname => answering_answer_of_taken (htaken name hname)
  have htakes : Walk.Takes (Walk.answering (r.answer tree)) entry source
      (r.walk tree entry source) := by
    rw [← hsame]
    exact Walk.Takes.start.run unitLimit
  have hw := htakes.ended hended
  obtain ⟨unit, hunit, rfl⟩ := List.mem_map.mp (hw.mem_sources_iff.mpr hreached)
  have hname := (Walk.imports_iff (hw.sound.found unit hunit).1).mp himports
  have hasked := hw.sound.mem_asked_iff.mpr ⟨hother, hw.known unit hunit name hname⟩
  exact htaken name hasked (reading_eq_refused.mpr hzero)

/-- Units whose texts do not hold the character zero import no name that holds it. -/
theorem not_importsZero_of_texts (hr : r.ZeroFree) (hentry : '\x00' ∉ entry.toList)
    (hsource : '\x00' ∉ source.toList)
    (htexts : ∀ path text, tree.readText path = .ok text → '\x00' ∉ text.toList) :
    ¬ r.ImportsZero tree entry source := by
  have htext : ∀ importer found,
      Walk.textOf? (r.answer tree) entry source importer = some found → '\x00' ∉ found.toList := by
    intro importer found hfound
    by_cases hself : importer = entry
    · rw [hself, Walk.textOf?_entry, Option.some.injEq] at hfound
      rwa [← hfound]
    · rw [Walk.textOf?_of_ne hself, toOption_eq_some] at hfound
      unfold answer at hfound
      split at hfound
      · next text hread =>
        rw [← Except.ok.inj hfound]
        exact htexts _ text hread
      · simp at hfound
  have himported : ∀ importer name, '\x00' ∉ importer.toList →
      Walk.Imports (r.answer tree) entry source importer name → '\x00' ∉ name.toList := by
    rintro importer name himporter ⟨found, path, hfound, hpath, rfl⟩ hzero
    rcases mem_unitName (by decide) (by decide) hzero with hbefore | hwithin
    · exact himporter hbefore
    · exact htext importer found hfound (mem_of_mem_findImports hpath hwithin)
  have hreachable : ∀ importer, Walk.Reachable (r.answer tree) entry source importer →
      '\x00' ∉ importer.toList := by
    intro importer hreached
    induction hreached with
    | refl => exact hentry
    | tail _ hstep ih => exact himported _ _ ih hstep.1
  rintro ⟨importer, name, hreached, himports, -, hzero⟩
  exact himported importer name (hreachable importer hreached) himports ((mem_path_iff hr).mp hzero)

/-- How a resolver answers in given surroundings. -/
structure Answers (r : Resolver) (world : World) : Prop where
  /-- A name is answered with the contents of its file or with a marker, one of the two, unless its
  path holds the character zero. Then an error escapes. -/
  read : ∀ name, ((r.read name).inWorld world).1 =
    if '\x00' ∈ (r.path name).text.toList then .error (.file .zeroCharacter)
    else .ok (Walk.answering (r.answer world.tree) name)
  path : r.ZeroFree → ∀ name, '\x00' ∈ (r.path name).text.toList ↔ '\x00' ∈ name.toList
  gathers : ∀ entry source, ¬ r.ImportsZero world.tree entry source →
    ∃ closure, ((r.collect entry source).inWorld world).1 = .ok closure
  escapes : ∀ entry source, r.ImportsZero world.tree entry source →
    (r.walk world.tree entry source).pending = [] →
    ((r.collect entry source).inWorld world).1 = .error (.file .zeroCharacter)
  texts : r.ZeroFree → ∀ entry source, '\x00' ∉ entry.toList → '\x00' ∉ source.toList →
    (∀ path text, world.tree.readText path = .ok text → '\x00' ∉ text.toList) →
    ¬ r.ImportsZero world.tree entry source

/-- A resolver answers every name whose path does not hold the character zero, whatever file tree it
reads from, and gathering the imports of a contract fails at no other names. -/
theorem answers_unless_zero (r : Resolver) (world : World) : r.Answers world where
  read := r.inWorld_read world
  path := fun hr name => mem_path_iff hr
  gathers := by
    intro entry source hnone
    have htaken : ∀ name ∈ (r.walk world.tree entry source).asked,
        r.reading world.tree name ≠ .refused := by
      intro name hname hrefused
      exact hnone (importsZero_of_asked hname (reading_eq_refused.mp hrefused))
    obtain ⟨records, hcollect⟩ := r.inWorld_collect world rfl htaken
    exact ⟨_, congrArg Prod.fst hcollect⟩
  escapes := by
    intro entry source hzero hended
    by_contra hescapes
    refine not_importsZero_of_taken hended ?_ hzero
    intro name hname hrefused
    obtain ⟨after, hcollect⟩ := r.inWorld_collect_refused world hname hrefused
    exact hescapes (congrArg Prod.fst hcollect)
  texts := fun hr entry source hentry hsource htexts =>
    not_importsZero_of_texts hr hentry hsource htexts

/-- A contract that imports what is missing, a directory, bytes that are no text, and a unit. -/
def brokenSource : String :=
  "import \"./gone.sol\";\nimport \"./lib\";\nimport \"./noise.sol\";\nimport \"./whole.sol\";\n"

def brokenWorld : World where
  tree :=
    { workingDirectory := ["work"]
      entries := [(["work"], .directory), (["work", "lib"], .directory),
        (["work", "noise.sol"], .file [0xff]),
        (["work", "whole.sol"], .file (Text.encode "library Whole {}\n"))] }
  network := ⟨[]⟩
  toolchain := ⟨[], none, none, .interrupted⟩
  cache := .empty
  actions := []
  records := []

theorem texts_brokenWorld (path : Files.Path) (text : String)
    (h : brokenWorld.tree.readText path = .ok text) : '\x00' ∉ text.toList := by
  have hnoise : (Files.textOfBytes [0xff]).toOption = none := by decide +kernel
  have hwhole : Files.textOfBytes (Text.encode "library Whole {}\n") =
      .ok "library Whole {}\n" := by
    decide +kernel
  obtain ⟨entry, hentry, bytes, hkind, hbytes⟩ := Files.Tree.exists_entry_of_readText h
  have hfiles : bytes = [0xff] ∨ bytes = Text.encode "library Whole {}\n" := by
    revert hentry
    simp only [brokenWorld, List.mem_cons, List.not_mem_nil, or_false]
    rintro (rfl | rfl | rfl | rfl) <;> cases hkind
    · exact Or.inl rfl
    · exact Or.inr rfl
  rcases hfiles with rfl | rfl
  · simp [hbytes, Except.toOption] at hnoise
  · rw [hwhole] at hbytes
    rw [← Except.ok.inj hbytes]
    decide

/-- Three imports that cannot be read do not keep the fourth one from being read. -/
theorem answers_brokenWorld :
    (ofBase standardBase).Answers brokenWorld ∧
    ¬ (ofBase standardBase).ImportsZero brokenWorld.tree "contract.sol" brokenSource ∧
    ((ofBase standardBase).walk brokenWorld.tree "contract.sol" brokenSource).errors =
      [("gone.sol", "Error reading gone.sol"), ("lib", "Error reading lib"),
        ("noise.sol", "Error reading noise.sol")] ∧
    ∃ closure, (((ofBase standardBase).collect "contract.sol" brokenSource).inWorld
      brokenWorld).1 = .ok closure := by
  have hanswers := answers_unless_zero (ofBase standardBase) brokenWorld
  have hnone := hanswers.texts (zeroFree_ofBase (by decide)) "contract.sol" brokenSource
    (by decide) (by decide) texts_brokenWorld
  exact ⟨hanswers, hnone, by decide +kernel, hanswers.gathers _ _ hnone⟩

def zeroImport : String := "import \"./a\x00b.sol\";\nimport \"./whole.sol\";\n"

/-- A name with the character zero is neither answered with contents nor with a marker, and it keeps
the imports of a contract from being gathered. -/
theorem zeroCharacter_escapes :
    (((ofBase standardBase).read "a\x00b.sol").inWorld brokenWorld).1 =
      .error (.file .zeroCharacter) ∧
    (((ofBase standardBase).collect "contract.sol" zeroImport).inWorld brokenWorld).1 =
      .error (.file .zeroCharacter) := by
  have hzero : '\x00' ∈ ((ofBase standardBase).path "a\x00b.sol").text.toList :=
    (mem_path_iff (zeroFree_ofBase (by decide))).mpr (by decide)
  have himported : Walk.imported "contract.sol" zeroImport = ["a\x00b.sol", "whole.sol"] := by
    decide +kernel
  have hname : "a\x00b.sol" ∈ Walk.imported "contract.sol" zeroImport := by
    rw [himported]
    exact List.mem_cons_self ..
  have hasked : ∃ refused ∈
      ((ofBase standardBase).walk brokenWorld.tree "contract.sol" zeroImport).asked,
      (ofBase standardBase).reading brokenWorld.tree refused = .refused := by
    rcases mem_asked_walk _ brokenWorld.tree hname (by decide) with hasked | hended
    · exact ⟨_, hasked, reading_eq_refused.mpr hzero⟩
    · exact hended
  obtain ⟨refused, hrefusedAsked, hrefused⟩ := hasked
  obtain ⟨after, hcollect⟩ :=
    (ofBase standardBase).inWorld_collect_refused brokenWorld hrefusedAsked hrefused
  refine ⟨?_, congrArg Prod.fst hcollect⟩
  rw [inWorld_read, if_pos hzero]

end Resolver

end AuditHours.Import
