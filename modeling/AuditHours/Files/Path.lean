/-!
File paths. A path is an anchor and a list of names. Reading a path drops empty names and single
dots, so a trailing or repeated slash does not matter; double dots are kept, because what they mean
depends on the file tree. Exactly two leading slashes form an anchor of their own.
-/
namespace AuditHours.Files

inductive Anchor where
  | relative
  | root
  | doubleRoot
  deriving DecidableEq, Repr

structure Path where
  anchor : Anchor
  names : List String
  deriving DecidableEq, Repr

def splitSlash (cs : List Char) : List (List Char) :=
  match cs with
  | [] => [[]]
  | c :: rest =>
    let pieces := splitSlash rest
    if c = '/' then [] :: pieces
    else match pieces with
      | piece :: others => (c :: piece) :: others
      | [] => [[c]]

def Anchor.of : List Char → Anchor
  | '/' :: '/' :: '/' :: _ => .root
  | '/' :: '/' :: _ => .doubleRoot
  | '/' :: _ => .root
  | _ => .relative

def Anchor.text : Anchor → String
  | .relative => ""
  | .root => "/"
  | .doubleRoot => "//"

namespace Path

def ofString (s : String) : Path :=
  let pieces := (splitSlash s.toList).filter fun piece => piece != [] && piece != ['.']
  ⟨.of s.toList, pieces.map String.ofList⟩

/-- The text of a path; the empty relative path is a single dot. -/
def text (p : Path) : String :=
  if p.anchor = .relative ∧ p.names = [] then "."
  else p.anchor.text ++ "/".intercalate p.names

def isAbsolute (p : Path) : Bool := p.anchor != .relative

/-- A path read from another one: an absolute path stands for itself. -/
def join (base p : Path) : Path :=
  if p.isAbsolute then p else ⟨base.anchor, base.names ++ p.names⟩

def parent (p : Path) : Path := ⟨p.anchor, p.names.dropLast⟩

/-- The part of a name before its last dot, unless that dot is first or last in the name. -/
def stem (name : List Char) : List Char :=
  let tail := (name.reverse.takeWhile (· != '.')).length
  let dot := name.length - tail - 1
  if '.' ∈ name ∧ 0 < dot ∧ 0 < tail then name.take dot else name

/-- Replaces the suffix of the last name, or adds one; none if there is no name. -/
def withSuffix? (p : Path) (suffix : String) : Option Path :=
  p.names.getLast?.map fun name =>
    ⟨p.anchor, p.names.dropLast ++ [String.ofList (stem name.toList) ++ suffix]⟩

/-- One more name on a stack of names, the last one on top. A double dot cancels an ordinary name;
at the root it is dropped, and in a relative path it is kept. -/
def pushName (anchor : Anchor) (stack : List String) (name : String) : List String :=
  if name = ".." then
    match stack with
    | [] => if anchor = .relative then [name] else []
    | top :: below => if top = ".." then name :: stack else below
  else name :: stack

/-- The path without double dots that a name before them cancels, and at the root without any. -/
def collapse (p : Path) : Path :=
  ⟨p.anchor, (p.names.foldl (pushName p.anchor) []).reverse⟩

/-- Joining appends the names of a relative path. -/
theorem names_join {base p : Path} (h : p.anchor = .relative) :
    (base.join p).names = base.names ++ p.names := by
  simp [join, isAbsolute, h]

end Path

end AuditHours.Files
