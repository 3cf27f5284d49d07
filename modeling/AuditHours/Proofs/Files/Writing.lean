import AuditHours.Proofs.Files.Places
import AuditHours.Proofs.Text.Encoding

/-!
Reading what was written. A written file stands where its path leads, and writing it moves no
directory, so the path leads there afterwards too. The text read from it is the text written to it
if its lines end by line feeds alone.
-/
namespace AuditHours.Files

open Text

/-- The bytes of a text hold that text with all line breaks unified. -/
theorem textOfBytes_encode_unified (text : String) :
    textOfBytes (encode text) = .ok (String.ofList (unifyLineBreaks text.toList)) := by
  rw [textOfBytes, encode, decodeFrom_flatMap]
  rfl

/-- The bytes of a text without carriage returns hold that text. -/
theorem textOfBytes_encode {text : String} (h : '\r' ∉ text.toList) :
    textOfBytes (encode text) = .ok text := by
  rw [textOfBytes_encode_unified, unifyLineBreaks_of_no_return h, String.ofList_toList]

namespace Tree

variable {tree after : Tree} {path : Path} {text : String} {bytes : List UInt8}

/-- A file that was written has the bytes that were written. -/
theorem read_write (h : tree.write path bytes = .ok after) :
    ∃ place, after.locate path = .ok place ∧ after.lookup? place = some (.file bytes) := by
  unfold write at h
  cases hlocate : tree.locate path with
  | error e => simp [hlocate, bind, Except.bind] at h
  | ok place =>
    simp only [hlocate, bind, Except.bind] at h
    split at h
    · simp at h
    · next hfile =>
      obtain rfl := Except.ok.inj h
      have hplace : place ≠ [] := by
        rintro rfl
        exact hfile (by simp [lookup?])
      have hdirectories : ∀ arrived, tree.lookup? arrived = some .directory →
          (tree.put place (.file bytes)).lookup? arrived = some .directory := by
        intro arrived harrived
        have hne : arrived ≠ place := by
          rintro rfl
          exact hfile harrived
        rw [lookup?_put_of_ne _ hne, harrived]
      exact ⟨place, locate_of_directories hdirectories rfl hlocate, lookup?_put _ _ hplace⟩

/-- The text of a file that was written is the text that was written. -/
theorem readText_writeText (h : tree.writeText path text = (.ok (), after))
    (htext : '\r' ∉ text.toList) : after.readText path = .ok text := by
  unfold writeText writeDeep at h
  split at h
  · simp at h
  · next middle _ =>
    split at h
    · next written hwrite =>
      obtain ⟨_, rfl⟩ := Prod.mk.inj h
      obtain ⟨place, hlocate, hfile⟩ := read_write hwrite
      exact readText_eq_ok.mpr ⟨place, _, hlocate, hfile, textOfBytes_encode htext⟩
    · simp at h

end Tree

end AuditHours.Files
