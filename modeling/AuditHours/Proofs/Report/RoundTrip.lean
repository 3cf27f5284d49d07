import AuditHours.Proofs.Files.Writing
import AuditHours.Proofs.Json.RoundTrip
import AuditHours.Proofs.Stage
import AuditHours.Report.Delivery

/-!
Reports in the document form. The report of a value holds the value: it is read back from the text
of the report, and from the file that the report was written to.
-/
namespace AuditHours.Report

open Json

/-- A value that its report holds. -/
structure Recovered (v : Value) : Prop where
  rendered : ∃ text, render .json v = .ok text ∧ Json.read text = .ok v
  /-- A report goes to the file that was named for it whenever that file can be written. -/
  delivered : ∀ output file world, output ≠ "" → destination .json output = .ok file →
    (world.tree.writeText file (indented v)).1 = .ok () →
      ∃ after, (deliver .json v (some output)).inWorld world = (.ok (.written file), after)
  written : ∀ output file world after,
    (deliver .json v output).inWorld world = (.ok (.written file), after) →
      after.tree.readDocument file = .ok v

theorem inWorld_writeFile (path : Files.Path) (text : String) (world : World) :
    (writeFile path text).inWorld world =
      ((world.tree.writeText path text).1.mapError .file,
        { world with tree := (world.tree.writeText path text).2 }) := by
  unfold writeFile
  rw [Run.inWorld_bind_ok (Run.inWorld_get world)]
  exact Run.inWorld_ofResult _ _ _

section

variable {v : Value} {output : String} {file : Files.Path} {world after : World}

/-- A report is written whenever its file can be. -/
theorem inWorld_deliver_json (houtput : output ≠ "") (hfile : destination .json output = .ok file)
    (hwrite : (world.tree.writeText file (indented v)).1 = .ok ()) :
    ∃ after, (deliver .json v (some output)).inWorld world = (.ok (.written file), after) := by
  have hrender : (Run.ofResult .report (render .json v)).inWorld world =
      (.ok (indented v), world) := rfl
  have hname : (some output).filter (!·.isEmpty) = some output := by
    simpa using houtput
  have hpath : (Run.ofResult id (destination .json output)).inWorld world = (.ok file, world) := by
    rw [hfile]
    rfl
  have hwritten := inWorld_writeFile file (indented v) world
  rw [hwrite] at hwritten
  unfold deliver
  rw [Run.inWorld_bind_ok hrender, hname]
  simp only []
  rw [Run.inWorld_bind_ok hpath, Run.inWorld_bind_ok hwritten,
    Run.inWorld_bind_ok (Run.inWorld_log ..)]
  exact ⟨_, Run.inWorld_pure ..⟩

/-- A report that was written stands in a tree with its text. -/
theorem deliver_json_written {output : Option String}
    (h : (deliver .json v output).inWorld world = (.ok (.written file), after)) :
    world.tree.writeText file (indented v) = (.ok (), after.tree) := by
  unfold deliver at h
  have hrender : (Run.ofResult .report (render .json v)).inWorld world =
      (.ok (indented v), world) := rfl
  rw [Run.inWorld_bind_ok hrender] at h
  split at h
  · simp at h
  · next name _ =>
    obtain ⟨path, middle, hpath, h⟩ := Run.returned_of_bind h
    rw [Run.inWorld_ofResult] at hpath
    obtain ⟨_, rfl⟩ := Prod.mk.inj hpath
    obtain ⟨_, written, hwrite, h⟩ := Run.returned_of_bind h
    rw [Run.inWorld_bind_ok (Run.inWorld_log ..), Run.inWorld_pure] at h
    obtain ⟨hfile, rfl⟩ := Prod.mk.inj h
    obtain rfl : path = file := by simpa using hfile
    rw [inWorld_writeFile] at hwrite
    obtain ⟨hresult, rfl⟩ := Prod.mk.inj hwrite
    exact Prod.ext (mapError_eq_ok.mp hresult) rfl

end

/-- The report of a value that survives printing holds the value. -/
theorem recovered_of_portable {v : Value} (h : Portable v) : Recovered v where
  rendered := ⟨indented v, rfl, h.read_indented⟩
  delivered := fun _ _ _ houtput hfile hwrite => inWorld_deliver_json houtput hfile hwrite
  written := by
    intro output file world after hdeliver
    have htext : '\r' ∉ (indented v).toList := by
      simpa [indented] using h.carriageReturn_not_mem 0
    have hread := Files.Tree.readText_writeText (deliver_json_written hdeliver) htext
    simp [Files.Tree.readDocument, hread, h.read_indented, Except.mapError]

def mixedReport : Value := .obj [
  ("constraint", .str "\"^0.8.0\"\r\n\x01/\\ é \u2028"),
  ("estimate", .obj [("total", .real 1.5), ("base_time", .int (-12))]),
  ("contract_units", .arr [.null, .bool true, .arr [], .obj []])]

def emptyWorld : World where
  tree := .withWorkingDirectory ["work"]
  network := ⟨[]⟩
  toolchain := ⟨[], none, none, .interrupted⟩
  cache := .empty
  actions := []
  records := []

theorem portable_mixedReport : Portable mixedReport := by
  have hreal : Portable (.real 1.5) := by
    have hfinite : Number.parts 1.5 = .finite false 6755399441055744 (-52) := by decide +kernel
    exact .real hfinite (by decide +kernel)
  refine .obj (by decide) fun field hfield => ?_
  simp only [List.mem_cons, List.not_mem_nil, or_false] at hfield
  rcases hfield with rfl | rfl | rfl
  · exact .str _
  · refine .obj (by decide) fun field hfield => ?_
    simp only [List.mem_cons, List.not_mem_nil, or_false] at hfield
    rcases hfield with rfl | rfl
    · exact hreal
    · exact .int (by decide)
  · refine .arr fun item hitem => ?_
    simp only [List.mem_cons, List.not_mem_nil, or_false] at hitem
    rcases hitem with rfl | rfl | rfl | rfl
    · exact .null
    · exact .bool true
    · exact .arr (by simp)
    · exact .obj List.nodup_nil (by simp)

/-- The report is written below a new directory and read from there. -/
theorem mixedReport_recovered : Portable mixedReport ∧
    ∃ after, (deliver .json mixedReport (some "out/report.txt")).inWorld emptyWorld =
        (.ok (.written ⟨.relative, ["out", "report.json"]⟩), after) ∧
      after.tree.readDocument ⟨.relative, ["out", "report.json"]⟩ = .ok mixedReport := by
  have hrecovered := recovered_of_portable portable_mixedReport
  have hsuffix : (Files.Path.ofString "out/report.txt").withSuffix? ".json" =
      some ⟨.relative, ["out", "report.json"]⟩ := by decide +kernel
  have hfile : destination .json "out/report.txt" = .ok ⟨.relative, ["out", "report.json"]⟩ := by
    simp [destination, Format.suffix, hsuffix]
  have hwrite : (emptyWorld.tree.writeText ⟨.relative, ["out", "report.json"]⟩
      (indented mixedReport)).1 = .ok () := by
    decide +kernel
  obtain ⟨after, hafter⟩ := hrecovered.delivered _ _ emptyWorld (by decide) hfile hwrite
  exact ⟨portable_mixedReport, after, hafter, hrecovered.written _ _ _ _ hafter⟩

end AuditHours.Report
