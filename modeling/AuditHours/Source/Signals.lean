import AuditHours.Source.Pragma

/-!
Signals of a contract source, read off the raw text by looking for fixed markers. Comments and
string literals are not skipped. No marker that is counted can overlap itself, so counting the
positions where one starts counts its occurrences.
-/
namespace AuditHours.Source

/-- The number of positions at which a marker starts. -/
def occurrences (marker : List Char) : List Char → Nat
  | [] => if marker = [] then 1 else 0
  | c :: rest => (if marker.isPrefixOf (c :: rest) then 1 else 0) + occurrences marker rest

def mentions (marker : List Char) (cs : List Char) : Bool := occurrences marker cs != 0

structure Signals where
  lineCount : Nat
  externalCalls : Nat
  imports : Nat
  hasAssembly : Bool
  isUpgradeable : Bool
  deriving DecidableEq, Repr

def callMarker : List Char := ".call(".toList

def importMarker : List Char := "import".toList

def assemblyMarker : List Char := "assembly".toList

def upgradeMarkers : List (List Char) :=
  ["delegatecall".toList, "proxy".toList, "initialize".toList]

def Signals.ofChars (cs : List Char) : Signals where
  lineCount := cs.count '\n' + 1
  externalCalls := occurrences callMarker cs
  imports := occurrences importMarker cs
  hasAssembly := mentions assemblyMarker cs
  isUpgradeable := upgradeMarkers.any (mentions · cs)

def signals (source : String) : Signals := .ofChars source.toList

def hasVersionDeclaration (source : String) : Bool := (constraint? source).isSome

end AuditHours.Source
