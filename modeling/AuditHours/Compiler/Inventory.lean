import AuditHours.Compiler.Diagnostic

/-!
The inventory of a compiled source unit. It lists the contract units of the source unit in the order
of the compiler's output, each with the members of its interface.
-/
namespace AuditHours.Compiler

open Json

structure ContractUnit where
  name : String
  members : List Value

namespace ContractUnit

/-- Keeps the members of one kind; every member must have fields. -/
def ofKind (kind : String) : List Value → Except ShapeFault (List Fields)
  | [] => .ok []
  | .obj fields :: rest => do
    let kept ← ofKind kind rest
    return if (field? fields "type").any (·.isText kind) then fields :: kept else kept
  | _ :: _ => .error .noFields

def functions (u : ContractUnit) : Except ShapeFault (List Fields) := ofKind "function" u.members

def events (u : ContractUnit) : Except ShapeFault (List Fields) := ofKind "event" u.members

def functionCount (u : ContractUnit) : Except ShapeFault Nat := u.functions.map List.length

end ContractUnit

abbrev Inventory := List ContractUnit

namespace Inventory

def unitOf (name : String) : Value → Except ShapeFault ContractUnit
  | .obj fields => (entries (field? fields "abi")).map fun members => ⟨name, members⟩
  | _ => .error .noFields

def ofOutput (contracts : Option Value) : Except ShapeFault Inventory :=
  match Diagnostic.filled? contracts with
  | none => .ok []
  | some (.obj fields) => fields.mapM fun (name, v) => unitOf name v
  | some _ => .error .noFields

def names (inventory : Inventory) : List String := inventory.map ContractUnit.name

def shownNames (names : List String) : String :=
  "StructuralArtifact(" ++ shown (.arr (names.map .str)) ++ ")"

end Inventory

end AuditHours.Compiler
