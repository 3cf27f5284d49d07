import AuditHours.Log.Logger

/-!
Setting up a logger from options. A level is a number or the name of one in any case, and a name
that is unknown asks for the usual level. A log file is opened at once: the directories above it are
made, and what it holds already is kept.
-/
namespace AuditHours.Log

open Json

inductive SetupFault where
  | level (text : String)
  | pattern (text : String)
  | file (error : Files.Error)
  | wrongType
  deriving DecidableEq, Repr

def SetupFault.message : SetupFault → String
  | .level text => "Unknown level: " ++ Text.quoted text
  | .pattern text => s!"Invalid format '{text}' for '%' style"
  | .file error => error.message
  | .wrongType => "a value of the wrong type"

def plainCapital (c : Char) : Char :=
  if c = 'ı' then 'I' else if c = 'ſ' then 'S' else c.toUpper

/-- A name that stands for a pattern and not for a level. -/
def patternName : String := "BASIC_FORMAT"

def namedPattern : String := "%(levelname)s:%(name)s:%(message)s"

/-- A name that stands for the kinds of patterns. -/
def kindsName : String := "_STYLES"

def levelOfName (name : String) : Except SetupFault Level :=
  let name := String.ofList (name.toList.map plainCapital)
  if name = patternName then .error (.level namedPattern)
  else if name = kindsName then .error .wrongType
  else .ok ((field? Level.named name).getD .info)

def levelOf : Value → Except SetupFault Level
  | .null => .ok .info
  | .str name => levelOfName name
  | .int n => .ok n
  | .bool b => .ok (if b then 1 else 0)
  | _ => .error .wrongType

def nameOf (v : Value) : Except SetupFault String :=
  match v with
  | .str name => .ok (registryName name)
  | v => if v.isEmpty then .ok "" else .error .wrongType

def layoutOf (v : Value) : Except SetupFault Layout :=
  match v with
  | .str text =>
    match Layout.ofPattern? text with
    | some layout => .ok layout
    | none => .error (.pattern text)
  | v => if v.isEmpty then .ok (.pattern messagePattern) else .error .wrongType

/-- The file that a value names, from the root; an empty value names none. -/
def fileOf (tree : Files.Tree) (v : Value) : Except SetupFault (Option Files.Path) :=
  if v.isEmpty then .ok none
  else match v with
    | .str text =>
      let here : Files.Path := ⟨.root, tree.workingDirectory⟩
      .ok (some (here.join (.ofString text)).collapse)
    | _ => .error .wrongType

/-- Makes the directories above a file that a value names, as the path stands. -/
def makeWay (tree : Files.Tree) : Value → Except SetupFault Files.Tree
  | .str text =>
    let path := Files.Path.ofString text
    if text.isEmpty then .ok tree
    else match tree.makeDirectories path.parent path.names.length with
      | (.ok (), tree) => .ok tree
      | (.error e, _) => .error (.file e)
  | _ => .ok tree

def appendText (tree : Files.Tree) (path : Files.Path) (text : String) :
    Except Files.Error Files.Tree := do
  let place ← tree.locate path
  let old := match tree.lookup? place with
    | some (.file bytes) => bytes
    | _ => []
  tree.write path (old ++ Text.encode text)

def optionNames : List String := ["name", "log_level", "log_file", "json_format", "log_format"]

/-- Sets a logger up as the options say and opens its file. Returns the name of the logger. -/
def setUp (registry : Registry) (tree : Files.Tree) (options : Fields) :
    Except SetupFault (String × Registry × Files.Tree) := do
  if options.any fun (name, _) => !optionNames.contains name then throw .wrongType
  let option := fun name standard => (field? options name).getD standard
  let name ← nameOf (option "name" (.str rootName))
  let level ← levelOf (option "log_level" .null)
  let layout ←
    if (option "json_format" (.bool false)).isEmpty then
      layoutOf (option "log_format" (.str standardPattern))
    else pure .document
  let file ← fileOf tree (option "log_file" .null)
  let tree ← makeWay tree (option "log_file" .null)
  let tree ← match file with
    | none => pure tree
    | some path => (appendText tree path "").mapError .file
  return (name, registry.setUp ⟨name, level, layout, file⟩, tree)

def Output.toFiles (o : Output) (tree : Files.Tree) : Files.Tree :=
  o.files.foldl (fun tree (path, line) =>
    match appendText tree path line with
    | .ok tree => tree
    | .error _ => tree) tree

end AuditHours.Log
