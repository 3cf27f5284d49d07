import AuditHours.Json.Plain
import AuditHours.Text.Character

/-!
Diagnostics of the compiler. A diagnostic is read from an entry of the compiler's output: the
formatted message counts before the plain one, and an entry without a severity is an error.
-/
namespace AuditHours.Compiler

open Json Text

structure Diagnostic where
  message : String
  severity : Value
  type : Value
  location : Value

namespace Diagnostic

def isError (d : Diagnostic) : Bool := d.severity.isText "error"

/-- A value unless it is empty. -/
def filled? (v : Option Value) : Option Value := v.filter (! ·.isEmpty)

def messageValue (fields : Fields) : Value :=
  (filled? (field? fields "formattedMessage") <|> filled? (field? fields "message")).getD
    (.str "Unknown compiler error")

def ofEntry : Value → Except ShapeFault Diagnostic
  | .obj fields =>
    match messageValue fields with
    | .str message => .ok
        { message := trim message
          severity := (field? fields "severity").getD (.str "error")
          type := (field? fields "type").getD (.str "Error")
          location := (field? fields "sourceLocation").getD .null }
    | _ => .error .noFields
  | _ => .error .noFields

def ofImport (unit marker : String) : Diagnostic :=
  ⟨unit ++ ": " ++ marker, .str "error", .str "ImportError", .null⟩

end Diagnostic

/-- The entries of a section of the compiler's output, which may be absent or empty. -/
def entries (section? : Option Value) : Except ShapeFault (List Value) :=
  match Diagnostic.filled? section? with
  | none => .ok []
  | some v => match v.elements? with
    | some items => .ok items
    | none => .error .wrongType

end AuditHours.Compiler
