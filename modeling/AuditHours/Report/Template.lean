import AuditHours.Json.Plain
import AuditHours.Report.Hours

/-!
Report templates. A template is a list of pieces: fixed text, and slots that are filled from the
fields of the report's data. The pieces are filled in order, so of several faults the first one in
the text is reported. A slot has no value of its own: what it names has to be there.
-/
namespace AuditHours.Report

open Json

/-- A piece of a template. -/
inductive Piece where
  | fixed (text : String)
  | field (name : String)
  /-- The value of a field, or other text if the field counts as no value. -/
  | fieldOr (name fallback : String)
  /-- The elements of a field with commas between them, or other text if there are none. -/
  | elements (name fallback : String)
  | hours (part : String)
  deriving DecidableEq, Repr

inductive Fault where
  | noField (name : String)
  | noPart (kind part : String)
  | hours (fault : HoursFault)
  | shape (fault : ShapeFault)
  deriving DecidableEq, Repr

def Fault.message : Fault → String
  | .noField name => Text.quoted name ++ " is undefined"
  | .noPart kind part => Text.quoted kind ++ " has no attribute " ++ Text.quoted part
  | .hours fault => fault.message
  | .shape .noFields => "a value without fields"
  | .shape .wrongType => "a value of the wrong type"

def kindOf : Value → String
  | .null => "None"
  | .bool _ => "bool object"
  | .int _ => "int object"
  | .real _ => "float object"
  | .str _ => "str object"
  | .arr _ => "list object"
  | .obj _ => "dict object"

def fieldOf (data : Fields) (name : String) : Except Fault Value :=
  match field? data name with
  | some v => .ok v
  | none => .error (.noField name)

def partOf (v : Value) (part : String) : Except Fault Value :=
  match v.get? part with
  | some found => .ok found
  | none => .error (.noPart (kindOf v) part)

def breakdownField : String := "estimate"

def Piece.fill (data : Fields) : Piece → Except Fault String
  | .fixed text => .ok text
  | .field name => (fieldOf data name).map plain
  | .fieldOr name fallback =>
    (fieldOf data name).map fun v => if v.isEmpty then fallback else plain v
  | .elements name fallback => do
    let v ← fieldOf data name
    if v.isEmpty then .ok fallback
    else match v.elements? with
      | some vs => .ok (", ".intercalate (vs.map plain))
      | none => .error (.shape .wrongType)
  | .hours part => do
    let v ← partOf (← fieldOf data breakdownField) part
    (Report.hours v).mapError .hours

def fillAll (data : Fields) : List Piece → Except Fault String
  | [] => .ok ""
  | piece :: rest => do return (← piece.fill data) ++ (← fillAll data rest)

/-- A name that the fields of a report's data cannot have. -/
def reservedName : String := "self"

def fill (template : List Piece) : Value → Except Fault String
  | .obj data =>
    if (field? data reservedName).isSome then .error (.shape .wrongType) else fillAll data template
  | _ => .error (.shape .wrongType)

end AuditHours.Report
