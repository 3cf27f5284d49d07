import AuditHours.Source.Pragma

/-!
Compiler builds. A build names a release and the revision it was made from, such as
`v0.8.0+commit.c7dfd78e`. The catalog lists builds under the names of their files, which carry a
decoration in front and behind.
-/
namespace AuditHours.Version

open Source

structure Build where
  name : String
  deriving DecidableEq, Repr

/-- The release of a build: its name without leading letters `v`, up to the first plus sign. -/
def releaseChars (name : List Char) : List Char :=
  (name.dropWhile (· == 'v')).takeWhile (· != '+')

def Build.release (build : Build) : String := String.ofList (releaseChars build.name.toList)

def filePrefix : List Char := "soljson-".toList

def fileSuffix : List Char := ".js".toList

def dropSuffix? (ending cs : List Char) : Option (List Char) :=
  (dropPrefix? ending.reverse cs.reverse).map List.reverse

/-- The build that a file name decorates; either decoration may be missing. -/
def buildChars (fileName : List Char) : List Char :=
  let body := (dropPrefix? filePrefix fileName).getD fileName
  (dropSuffix? fileSuffix body).getD body

def Build.ofFileName (fileName : String) : Build := ⟨String.ofList (buildChars fileName.toList)⟩

@[simp]
theorem dropPrefix?_append (p cs : List Char) : dropPrefix? p (p ++ cs) = some cs := by
  induction p with
  | nil => rfl
  | cons c p ih => simp [dropPrefix?, ih]

@[simp]
theorem dropSuffix?_append (cs ending : List Char) :
    dropSuffix? ending (cs ++ ending) = some cs := by
  simp [dropSuffix?]

end AuditHours.Version
