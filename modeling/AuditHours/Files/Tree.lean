import AuditHours.Files.Path
import AuditHours.Text.Quoted
import AuditHours.Text.Utf8

/-!
File trees. A tree lists its files and directories by their full place, a list of names from the
root. A path is followed name by name from the root or from the working directory; every name but
the last must be a directory that exists, and a double dot leads to the parent directory, so it
fails after a name that is missing. Operations return the new tree or the fault with the path.
-/
namespace AuditHours.Files

open Text

inductive Entry where
  | file (bytes : List UInt8)
  | directory
  deriving DecidableEq

abbrev Place := List String

/-- The files and directories of a system and its working directory. The root always exists. -/
structure Tree where
  workingDirectory : Place
  entries : List (Place × Entry)

inductive Fault where
  | noEntry
  | alreadyExists
  | notDirectory
  | isDirectory
  | nameTooLong
  deriving DecidableEq, Repr

/-- A refused path, or a path that no file system takes because it holds the character zero. -/
inductive Error where
  | refused (fault : Fault) (path : String)
  | zeroCharacter
  deriving DecidableEq, Repr

def Error.message : Error → String
  | .refused fault path =>
    let what := match fault with
      | .noEntry => "[Errno 2] No such file or directory: "
      | .alreadyExists => "[Errno 17] File exists: "
      | .notDirectory => "[Errno 20] Not a directory: "
      | .isDirectory => "[Errno 21] Is a directory: "
      | .nameTooLong => "[Errno 36] File name too long: "
    what ++ quoted path
  | .zeroCharacter => "embedded null byte"

def maxNameBytes : Nat := 255

def maxPathBytes : Nat := 4095

namespace Tree

def withWorkingDirectory (place : Place) : Tree :=
  ⟨place, (List.range place.length).map fun n => (place.take (n + 1), .directory)⟩

def lookup? (tree : Tree) (place : Place) : Option Entry :=
  if place = [] then some .directory
  else (tree.entries.find? (·.1 == place)).map (·.2)

def put (tree : Tree) (place : Place) (entry : Entry) : Tree :=
  { tree with entries := (place, entry) :: tree.entries.filter (·.1 != place) }

/-- Follows names from a place. The last name may be missing. -/
def follow (tree : Tree) (place : Place) : List String → Except Fault Place
  | [] => .ok place
  | name :: rest =>
    match tree.lookup? place with
    | none => .error .noEntry
    | some (.file _) => .error .notDirectory
    | some .directory =>
      if name = ".." then follow tree place.dropLast rest
      else if maxNameBytes < name.utf8ByteSize then .error .nameTooLong
      else follow tree (place ++ [name]) rest

def locate (tree : Tree) (path : Path) : Except Error Place :=
  if path.text.toList.contains '\x00' then .error .zeroCharacter
  else if maxPathBytes < path.text.utf8ByteSize then .error (.refused .nameTooLong path.text)
  else
    let start := if path.isAbsolute then [] else tree.workingDirectory
    (tree.follow start path.names).mapError (.refused · path.text)

def at? (tree : Tree) (path : Path) : Option Entry :=
  match tree.locate path with
  | .ok place => tree.lookup? place
  | .error _ => none

def isDirectory (tree : Tree) (path : Path) : Bool := tree.at? path == some .directory

def contains (tree : Tree) (path : Path) : Bool := (tree.at? path).isSome

def read (tree : Tree) (path : Path) : Except Error (List UInt8) := do
  match tree.lookup? (← tree.locate path) with
  | some (.file bytes) => .ok bytes
  | some .directory => .error (.refused .isDirectory path.text)
  | none => .error (.refused .noEntry path.text)

/-- Makes a file of the given bytes, in place of an older file; its directory must exist. -/
def write (tree : Tree) (path : Path) (bytes : List UInt8) : Except Error Tree := do
  let place ← tree.locate path
  match tree.lookup? place with
  | some .directory => .error (.refused .isDirectory path.text)
  | _ => .ok (tree.put place (.file bytes))

/-- Makes one directory, which must not exist, inside one that does. -/
def makeDirectory (tree : Tree) (path : Path) : Except Error Tree := do
  let place ← tree.locate path
  match tree.lookup? place with
  | some _ => .error (.refused .alreadyExists path.text)
  | none => .ok (tree.put place .directory)

/-- Accepts a fault if the path names a directory already. -/
def orDirectory (tree : Tree) (path : Path) (e : Error) : Except Error Unit × Tree :=
  (if tree.isDirectory path then .ok () else .error e, tree)

/-- Makes a directory and the directories above it; `depth` bounds how far up it looks. A path that
names a directory already is left as it is. What was made before a fault stays. -/
def makeDirectories (tree : Tree) (path : Path) : (depth : Nat) → Except Error Unit × Tree
  | 0 =>
    match tree.makeDirectory path with
    | .ok tree => (.ok (), tree)
    | .error .zeroCharacter => (.error .zeroCharacter, tree)
    | .error e => tree.orDirectory path e
  | depth + 1 =>
    match tree.makeDirectory path with
    | .ok tree => (.ok (), tree)
    | .error .zeroCharacter => (.error .zeroCharacter, tree)
    | .error (.refused .noEntry p) =>
      if path.names = [] then (.error (.refused .noEntry p), tree)
      else match makeDirectories tree path.parent depth with
        | (.error e, tree) => (.error e, tree)
        | (.ok (), tree) => match tree.makeDirectory path with
          | .ok tree => (.ok (), tree)
          | .error e => tree.orDirectory path e
    | .error e => tree.orDirectory path e

def writeDeep (tree : Tree) (path : Path) (bytes : List UInt8) : Except Error Unit × Tree :=
  match tree.makeDirectories path.parent path.names.length with
  | (.error e, tree) => (.error e, tree)
  | (.ok (), tree) => match tree.write path bytes with
    | .ok tree => (.ok (), tree)
    | .error e => (.error e, tree)

@[simp]
theorem lookup?_put (tree : Tree) {place : Place} (entry : Entry) (h : place ≠ []) :
    (tree.put place entry).lookup? place = some entry := by
  simp [put, lookup?, h]

end Tree

end AuditHours.Files
