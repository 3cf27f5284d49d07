import AuditHours.Proofs.Compiler.StandardOutput
import AuditHours.Proofs.Estimate.Staging
import AuditHours.Proofs.Version.CatalogShapes

/-!
File names of the catalog. A build is read back from the file name that decorates it, whatever its
name is, and a name is its own build exactly if it has no decoration. The release of a build stands
between its first letter and the first plus sign. So what a constraint leads to is looked for,
installed and run under the release that the file name in the catalog holds.
-/
namespace AuditHours.Version

open Json Run Source

/-! ### Decorations -/

section

variable {p ending cs rest : List Char}

theorem dropPrefix?_eq_none_iff : dropPrefix? p cs = none ↔ ¬ p <+: cs := by
  constructor
  · rintro hnone ⟨rest, rfl⟩
    simp at hnone
  · intro hnot
    cases h : dropPrefix? p cs with
    | none => rfl
    | some rest => exact absurd ⟨rest, (dropPrefix?_eq h).symm⟩ hnot

theorem dropSuffix?_eq (h : dropSuffix? ending cs = some rest) : cs = rest ++ ending := by
  obtain ⟨back, hback, rfl⟩ := Option.map_eq_some_iff.mp h
  have hreverse := congrArg List.reverse (dropPrefix?_eq hback)
  simpa using hreverse

theorem dropSuffix?_eq_none_iff : dropSuffix? ending cs = none ↔ ¬ ending <:+ cs := by
  unfold dropSuffix?
  rw [Option.map_eq_none_iff, dropPrefix?_eq_none_iff, List.reverse_prefix]

/-- Dropping an ending that may be missing makes no text longer. -/
theorem length_dropSuffix_le (ending cs : List Char) :
    ((dropSuffix? ending cs).getD cs).length ≤ cs.length := by
  cases h : dropSuffix? ending cs with
  | none => simp
  | some rest => simp [dropSuffix?_eq h]

/-- A build is read back from the file name that decorates it. -/
theorem buildChars_decorated (build : List Char) :
    buildChars (filePrefix ++ build ++ fileSuffix) = build := by
  unfold buildChars
  simp only [List.append_assoc, dropPrefix?_append, Option.getD_some, dropSuffix?_append]

/-- A name is its own build exactly if it has neither decoration. -/
theorem buildChars_eq_self_iff :
    buildChars cs = cs ↔ ¬ filePrefix <+: cs ∧ ¬ fileSuffix <:+ cs := by
  unfold buildChars
  cases hfront : dropPrefix? filePrefix cs with
  | some rest =>
    obtain rfl := dropPrefix?_eq hfront
    refine iff_of_false (fun hself => ?_) (by simp)
    have hlonger := congrArg List.length hself
    have hshorter := length_dropSuffix_le fileSuffix rest
    have hprefix : filePrefix.length = 8 := rfl
    simp only [Option.getD_some, List.length_append] at hlonger
    omega
  | none =>
    simp only [Option.getD_none]
    cases hend : dropSuffix? fileSuffix cs with
    | some rest =>
      obtain rfl := dropSuffix?_eq hend
      refine iff_of_false (fun hself => ?_) (by simp)
      have hlonger := congrArg List.length hself
      have hsuffix : fileSuffix.length = 3 := rfl
      simp only [Option.getD_some, List.length_append] at hlonger
      omega
    | none =>
      exact iff_of_true rfl ⟨dropPrefix?_eq_none_iff.mp hfront, dropSuffix?_eq_none_iff.mp hend⟩

end

/-- The release of a build ends at the first plus sign, and begins behind the letters in front. -/
theorem releaseChars_eq {release rest : List Char} (hplus : '+' ∉ release)
    (hletter : release.head? ≠ some 'v') :
    releaseChars ('v' :: (release ++ '+' :: rest)) = release := by
  have hstart : (release ++ '+' :: rest).dropWhile (· == 'v') = release ++ '+' :: rest := by
    cases release with
    | nil => rfl
    | cons c release =>
      have hc : c ≠ 'v' := by simpa using hletter
      simp [hc]
  have hkept : ∀ c ∈ release, (c != '+') = true := by
    intro c hc
    simpa using fun heq : c = '+' => hplus (heq ▸ hc)
  unfold releaseChars
  rw [List.dropWhile_cons_of_pos (by simp), hstart, List.takeWhile_append_of_pos hkept]
  simp

theorem Build.ofFileName_decorated (build : String) :
    Build.ofFileName ("soljson-" ++ build ++ ".js") = ⟨build⟩ := by
  have hchars : ("soljson-" ++ build ++ ".js").toList =
      filePrefix ++ build.toList ++ fileSuffix := by
    rw [String.toList_append, String.toList_append]
    rfl
  unfold ofFileName
  rw [hchars, buildChars_decorated, String.ofList_toList]

theorem Build.ofFileName_eq_self_iff (name : String) :
    Build.ofFileName name = ⟨name⟩ ↔
      ¬ "soljson-".toList <+: name.toList ∧ ¬ ".js".toList <:+ name.toList := by
  unfold ofFileName
  rw [Build.mk.injEq, ← String.toList_inj, String.toList_ofList, buildChars_eq_self_iff]
  rfl

theorem Build.release_eq {release rest : String} (hplus : '+' ∉ release.toList)
    (hletter : release.toList.head? ≠ some 'v') :
    Build.release ⟨"v" ++ release ++ "+" ++ rest⟩ = release := by
  have hchars : ("v" ++ release ++ "+" ++ rest).toList =
      'v' :: (release.toList ++ '+' :: rest.toList) := by
    simp only [String.toList_append, List.append_assoc]
    rfl
  unfold Build.release
  rw [hchars, releaseChars_eq hplus hletter, String.ofList_toList]

/-! ### From the catalog to the compiler -/

namespace Lookup

variable {l : Lookup} {fileName : String} {build : Build}

/-- The file name that a lookup finds for its constraint: the entry of the catalog that it gets, or
one that was found before and whose build is remembered. -/
inductive Finds (l : Lookup) (fileName : String) : Prop
  | listed {releases : Fields} (hloads : l.Loads releases)
      (hentry : Decides releases l.constraint (.str fileName))
  | remembered (hknown : l.before.cache.find? l.constraint = some (some (Build.ofFileName fileName)))

def runJob (l : Lookup) (progress : Bool) (job : Value) : Run Value := do
  let build ← l.resolver.resolve l.constraint
  Compiler.load build progress
  Compiler.compile build job

/-- The stages of a job for a release: the catalog is asked if need be, the release is looked for
among the installed ones and installed if it is missing, and the job is run on it. -/
def jobStages (l : Lookup) (release : String) (progress : Bool) (job : Value) : List Stage :=
  let toolchain := l.before.toolchain
  [⟨(l.resolver.asks l.constraint l.before).map .get, true⟩,
    ⟨[.listCompilers], toolchain.listError.isNone⟩,
    ⟨if release ∈ toolchain.installed then [] else [.install release progress],
      release ∈ toolchain.installed ∨ toolchain.installError = none⟩,
    ⟨[.compile release job], toolchain.result.output?.isSome⟩]

theorem Finds.outcome (h : l.Finds fileName) (hname : fileName ≠ "") :
    l.outcome = .ok (Build.ofFileName fileName) := by
  cases h with
  | listed hloads hentry => exact hloads.outcome_text (entryFor_of_decides hentry) hname
  | remembered hknown => exact (of_known hknown).1

/-- A job is run for the release of the build that the lookup ends in. -/
theorem goesThrough_runJob (h : l.outcome = .ok build) (progress : Bool) (job : Value) :
    GoesThrough (l.runJob progress job) l.before (l.jobStages build.release progress job)
      fun _ => True := by
  obtain ⟨network, cache, records, hresolve⟩ := l.resolver.inWorld_resolve l.constraint l.before
  have hresolved : l.resolver.resolved l.constraint l.before = .ok build := by
    rw [← h]
    exact (congrArg Prod.fst hresolve).symm
  rw [hresolved] at hresolve
  refine GoesThrough.cons hresolve rfl rfl fun found hfound => ?_
  obtain rfl := Except.ok.inj hfound
  refine (Compiler.goesThrough_load build progress _).bind fun _ loaded hloaded _ => ?_
  have hresult : loaded.toolchain.result = l.before.toolchain.result :=
    (Compiler.load_keeps hloaded).2.1
  obtain ⟨result, logged, hcompile, hanswer⟩ := Compiler.inWorld_compile_job build job loaded
  refine GoesThrough.single hcompile rfl ?_ fun _ _ => trivial
  rw [← hresult, ← hanswer]
  cases result <;> rfl

end Lookup

/-- A release decorated as it stands in the catalog, with a revision behind it. -/
def releaseFile (release revision : String) : String :=
  "soljson-v" ++ release ++ "+" ++ revision ++ ".js"

theorem releaseFile_eq (release revision : String) :
    releaseFile release revision = "soljson-" ++ ("v" ++ release ++ "+" ++ revision) ++ ".js" := by
  have hfront : "soljson-v" = "soljson-" ++ "v" := by decide
  unfold releaseFile
  rw [hfront]
  simp only [String.append_assoc]

theorem releaseFile_ne_empty (release revision : String) : releaseFile release revision ≠ "" := by
  intro hempty
  have hchars := congrArg String.toList hempty
  simp [releaseFile, String.toList_append] at hchars

/-- What the file names of a release and its revision lead to. -/
structure Decoded (release revision : String) : Prop where
  build_eq : Build.ofFileName (releaseFile release revision) = ⟨"v" ++ release ++ "+" ++ revision⟩
  release_eq : (Build.ofFileName (releaseFile release revision)).release = release
  asked : ∀ (l : Lookup) (progress : Bool) (job : Value),
    l.Finds (releaseFile release revision) →
      GoesThrough (l.runJob progress job) l.before (l.jobStages release progress job) fun _ => True

/-- Every build is read back from the file name that decorates it, and a name is its own build
exactly if it has no decoration. A release without a plus sign that does not begin with the letter
`v` is that of the build in its file name, so compilers are looked for, installed and run under it.
-/
theorem builds_read_back {release revision : String} (hplus : '+' ∉ release.toList)
    (hletter : release.toList.head? ≠ some 'v') :
    Decoded release revision ∧
      (∀ build : String, Build.ofFileName ("soljson-" ++ build ++ ".js") = ⟨build⟩) ∧
      ∀ name : String, Build.ofFileName name = ⟨name⟩ ↔
        ¬ "soljson-".toList <+: name.toList ∧ ¬ ".js".toList <:+ name.toList := by
  have hbuild : Build.ofFileName (releaseFile release revision) =
      ⟨"v" ++ release ++ "+" ++ revision⟩ := by
    rw [releaseFile_eq, Build.ofFileName_decorated]
  have hrelease : (Build.ofFileName (releaseFile release revision)).release = release := by
    rw [hbuild, Build.release_eq hplus hletter]
  refine ⟨⟨hbuild, hrelease, ?_⟩, Build.ofFileName_decorated, Build.ofFileName_eq_self_iff⟩
  intro l progress job hfinds
  have houtcome := hfinds.outcome (releaseFile_ne_empty release revision)
  have hstages := Lookup.goesThrough_runJob houtcome progress job
  rwa [hrelease] at hstages

/-- The entry of a catalog is found as it is decoded, and compilers are asked for under its release.
-/
theorem builds_read_back_listed :
    '+' ∉ "0.8.0".toList ∧ "0.8.0".toList.head? ≠ some 'v' ∧
      Build.ofFileName "soljson-v0.8.0+commit.c7dfd78e.js" = ⟨"v0.8.0+commit.c7dfd78e"⟩ ∧
      listedLookup.Finds (releaseFile "0.8.0" "commit.c7dfd78e") ∧
      ∀ job, GoesThrough (listedLookup.runJob false job) listedLookup.before
        (listedLookup.jobStages "0.8.0" false job) fun _ => True := by
  have hplus : '+' ∉ "0.8.0".toList := by decide
  have hletter : "0.8.0".toList.head? ≠ some 'v' := by decide
  have hfinds : listedLookup.Finds (releaseFile "0.8.0" "commit.c7dfd78e") := by
    have hentry : (listedLookup.resolver.listed listedLookup.reply).toOption.bind
        (textAt? · "0.8.0") = some (releaseFile "0.8.0" "commit.c7dfd78e") := by
      decide +kernel
    obtain ⟨releases, hlisted, htext⟩ := Option.bind_eq_some_iff.mp hentry
    refine .listed (Lookup.loads_of_listed rfl (toOption_eq_some.mp hlisted))
      (.verbatim ?_ (by simp))
    unfold textAt? at htext
    split at htext
    · next hfield => rwa [Option.some.inj htext] at hfield
    · simp at htext
  have hdecoded : Decoded "0.8.0" "commit.c7dfd78e" := (builds_read_back hplus hletter).1
  exact ⟨hplus, hletter, hdecoded.build_eq, hfinds, fun job =>
    hdecoded.asked listedLookup false job hfinds⟩

end AuditHours.Version
