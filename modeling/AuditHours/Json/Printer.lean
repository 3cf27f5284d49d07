import AuditHours.Json.Value
import AuditHours.Text.Quoted

/-!
Writing JSON text. The indented form puts every item and field on a line of its own, two blanks
deeper than its parent, and leaves characters beyond the plain set as they are. The compact form is
one line of plain characters, in which all others are escaped by their code units.
-/
namespace AuditHours.Json

open Text Number

def codeEscape4 (n : Nat) : List Char := '\\' :: 'u' :: hexDigits 4 n

def shortEscape? (c : Char) : Option (List Char) :=
  match c with
  | '"' => some ['\\', '"']
  | '\\' => some ['\\', '\\']
  | '\x08' => some ['\\', 'b']
  | '\x0c' => some ['\\', 'f']
  | '\n' => some ['\\', 'n']
  | '\r' => some ['\\', 'r']
  | '\t' => some ['\\', 't']
  | _ => none

def stringChar (c : Char) : List Char :=
  match shortEscape? c with
  | some escape => escape
  | none => if c.toNat < 0x20 then codeEscape4 c.toNat else [c]

/-- The code units of a character: itself, or a pair of surrogates. -/
def codeUnits (n : Nat) : List Nat :=
  if n < 0x10000 then [n]
  else [0xD800 + (n - 0x10000) / 0x400, 0xDC00 + (n - 0x10000) % 0x400]

def plainStringChar (c : Char) : List Char :=
  match shortEscape? c with
  | some escape => escape
  | none =>
    if 0x20 ≤ c.toNat ∧ c.toNat < 0x7F then [c]
    else (codeUnits c.toNat).flatMap codeEscape4

def stringText (char : Char → List Char) (s : String) : List Char :=
  '"' :: s.toList.flatMap char ++ ['"']

/-- A value other than an array or object; these are written by their own functions. -/
def scalarText (char : Char → List Char) : Value → List Char
  | .null => ['n', 'u', 'l', 'l']
  | .bool true => ['t', 'r', 'u', 'e']
  | .bool false => ['f', 'a', 'l', 's', 'e']
  | .int n => (intText n).toList
  | .real x => (RealStyle.document.text x).toList
  | .str s => stringText char s
  | .arr _ => []
  | .obj _ => []

def indent (depth : Nat) : List Char := '\n' :: List.replicate (2 * depth) ' '

mutual

/-- A value in indented form; its own items stand one level below `depth`. -/
def indentedAt (depth : Nat) : Value → List Char
  | .arr [] => ['[', ']']
  | .arr (item :: items) =>
    '[' :: indent (depth + 1) ++ indentedAt (depth + 1) item ++ indentedItems (depth + 1) items ++
      indent depth ++ [']']
  | .obj [] => ['{', '}']
  | .obj (field :: fields) =>
    '{' :: indent (depth + 1) ++ indentedField (depth + 1) field ++
      indentedFields (depth + 1) fields ++ indent depth ++ ['}']
  | scalar => scalarText stringChar scalar

def indentedItems (depth : Nat) : List Value → List Char
  | [] => []
  | item :: items => ',' :: indent depth ++ indentedAt depth item ++ indentedItems depth items

def indentedField (depth : Nat) : String × Value → List Char
  | (name, value) => stringText stringChar name ++ ':' :: ' ' :: indentedAt depth value

def indentedFields (depth : Nat) : List (String × Value) → List Char
  | [] => []
  | field :: fields =>
    ',' :: indent depth ++ indentedField depth field ++ indentedFields depth fields

end

def indented (v : Value) : String := String.ofList (indentedAt 0 v)

mutual

def compactChars : Value → List Char
  | .arr [] => ['[', ']']
  | .arr (item :: items) => '[' :: compactChars item ++ compactItems items ++ [']']
  | .obj [] => ['{', '}']
  | .obj (field :: fields) => '{' :: compactField field ++ compactFields fields ++ ['}']
  | scalar => scalarText plainStringChar scalar

def compactItems : List Value → List Char
  | [] => []
  | item :: items => ',' :: ' ' :: compactChars item ++ compactItems items

def compactField : String × Value → List Char
  | (name, value) => stringText plainStringChar name ++ ':' :: ' ' :: compactChars value

def compactFields : List (String × Value) → List Char
  | [] => []
  | field :: fields => ',' :: ' ' :: compactField field ++ compactFields fields

end

def compact (v : Value) : String := String.ofList (compactChars v)

end AuditHours.Json
