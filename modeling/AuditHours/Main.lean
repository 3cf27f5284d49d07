import AuditHours.CommandLine.Execution
import Std.Time.DateTime.Timestamp

/-!
The program. It reads the files that its arguments name, runs, prints what the run says and writes
the files that the run made. It is not connected to a network and has no compilers, so a run ends
where it needs the release catalog.
-/
namespace AuditHours.Program

/-- What the program knows of its surroundings without looking at files. -/
def bareWorld (workingDirectory : Files.Place) : World where
  tree := .withWorkingDirectory workingDirectory
  network := ⟨[]⟩
  toolchain :=
    { installed := [], listError := none, installError := some (.fails "no network")
      result := .interrupted }
  cache := .empty
  actions := []
  records := []

def variableNames : List String :=
  Settings.standard.document.map fun (name, _) => "AUDITSCOPE_" ++ name

/-- The paths that the arguments name for reading, and that of the settings file. -/
def namedPaths (arguments : List String) : List String :=
  match CommandLine.readArguments arguments with
  | .ok request => Settings.filePath.text :: request.contract :: request.config.toList
  | .error _ => [Settings.filePath.text]

def readEnvironment : IO Settings.Environment :=
  variableNames.filterMapM fun name => return (← IO.getEnv name).map (name, ·)

def readPath (tree : Files.Tree) (path : String) : IO Files.Tree := do
  let place := (← IO.currentDir) / path
  let named := Files.Path.ofString path
  if ← place.isDir then return (tree.makeDirectories named named.names.length).2
  try
    let bytes ← IO.FS.readBinFile place
    return (tree.writeDeep named bytes.toList).2
  catch _ => return tree

def readMoment : IO Log.Moment := do
  let now := (← Std.Time.Timestamp.now).toMillisecondsSinceUnixEpoch.val.toNat
  return ⟨now / 1000, now % 1000⟩

/-- Writes the files that one tree has and another one has not. -/
def writeChanges (before after : Files.Tree) : IO Unit :=
  for (place, entry) in after.entries.reverse do
    if before.lookup? place ≠ some entry then
      let path := "/" ++ "/".intercalate place
      match entry with
      | .directory => IO.FS.createDirAll path
      | .file bytes => IO.FS.writeBinFile path ⟨bytes.toArray⟩

def run (arguments : List String) : IO UInt32 := do
  let here := Files.Path.ofString (← IO.currentDir).toString
  let mut world := bareWorld here.names
  for path in namedPaths arguments do
    world := { world with tree := ← readPath world.tree path }
  let (outcome, _, after) :=
    CommandLine.execute arguments (← readEnvironment) (← readMoment) world
  writeChanges world.tree after.tree
  IO.print outcome.output
  IO.eprint outcome.log
  match outcome.ending with
  | .ok code => return code.toUInt32
  | .error failure =>
    IO.eprintln failure.message
    return 1

end AuditHours.Program

def main (arguments : List String) : IO UInt32 := AuditHours.Program.run arguments
