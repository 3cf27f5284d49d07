import AuditHours.Weights.Reading

/-!
Overlays. An overlay is laid over a document leaf by leaf: where both hold an object the objects
are merged, anywhere else the overlay's value stands. The merged document is read again as a table,
so an overlay cannot bring in an unknown key, a negative weight or thresholds in the wrong order.
-/
namespace AuditHours.Weights

open Number Json Validation

mutual

def overlayValue (under : Option Value) : Value → Value
  | .obj fields => match under with
    | some (.obj base) => .obj (overlayFields base fields)
    | _ => .obj fields
  | .null => .null
  | .bool b => .bool b
  | .int n => .int n
  | .real x => .real x
  | .str s => .str s
  | .arr items => .arr items

def overlayFields (base : Fields) : List (String × Value) → Fields
  | [] => base
  | field :: rest => overlayFields (overlayField base field) rest

def overlayField (base : Fields) : String × Value → Fields
  | (key, v) => setField base key (overlayValue (field? base key) v)

end

/-- The table of a run: the built-in one, or one that an overlay has changed. -/
inductive Table where
  | standard
  | overlaid (weights : Weights Amount)

def Table.weights : Table → Weights Amount
  | .standard => builtIn
  | .overlaid weights => weights

def Table.isStandard : Table → Bool
  | .standard => true
  | .overlaid _ => false

inductive OverlayFault where
  | notObject
  | violations (found : List Violation)
  deriving DecidableEq, Repr

/-- Lays an overlay over a table. An empty overlay of any kind leaves the table as it is. -/
def Table.merge (table : Table) (overlay : Value) : Except OverlayFault Table :=
  if overlay.isEmpty then .ok table
  else match overlay with
    | .obj fields =>
      match read (.obj (overlayFields table.weights.document fields)) with
      | .valid weights => .ok (.overlaid weights)
      | .invalid first more => .error (.violations (first :: more))
    | _ => .error .notObject

end AuditHours.Weights
