import AuditHours.Json.Value

/-!
The installed compilers. A toolchain lists its releases, installs one that is missing, and runs a
job on one. A run may crash; the crash then holds the compiler's own diagnostics, or only its text.
Each of these may be interrupted by the user.
-/
namespace AuditHours.Compiler

open Json

/-- A failed run of the compiler: its text, and the diagnostics if the compiler has left any. -/
structure Crash where
  text : String
  diagnostics : Value

inductive Setback where
  | fails (text : String)
  | interrupted
  deriving DecidableEq, Repr

inductive RunResult where
  | output (output : Value)
  | crashed (crash : Crash)
  | notInstalled (text : String)
  | broken (text : String)
  | interrupted

/-- The releases that are installed, and how listing, installing and running go. -/
structure Toolchain where
  installed : List String
  listError : Option Setback
  installError : Option Setback
  result : RunResult

namespace Toolchain

def list (t : Toolchain) : Except Setback (List String) :=
  match t.listError with
  | some setback => .error setback
  | none => .ok t.installed

def install (t : Toolchain) (release : String) : Except Setback Toolchain :=
  match t.installError with
  | some setback => .error setback
  | none => .ok { t with installed := t.installed ++ [release] }

end Toolchain

end AuditHours.Compiler
