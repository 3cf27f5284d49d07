import AuditHours.Json.Value
import AuditHours.Text.Quoted

/-!
Values in messages. Inside another value a text is quoted; alone it stands as it is. The other
values read `None`, `True`, `[1, 2]` or `{'a': 1}`.
-/
namespace AuditHours.Json

open Text Number

mutual

/-- A value as part of a message, with texts in quotes. -/
def shown : Value → String
  | .null => "None"
  | .bool true => "True"
  | .bool false => "False"
  | .int n => intText n
  | .real x => RealStyle.plain.text x
  | .str s => quoted s
  | .arr items => "[" ++ ", ".intercalate (shownItems items) ++ "]"
  | .obj fields => "\x7b" ++ ", ".intercalate (shownFields fields) ++ "\x7d"

def shownItems : List Value → List String
  | [] => []
  | item :: items => shown item :: shownItems items

def shownFields : List (String × Value) → List String
  | [] => []
  | (name, value) :: fields => (quoted name ++ ": " ++ shown value) :: shownFields fields

end

/-- A value as a message of its own. -/
def plain : Value → String
  | .str s => s
  | v => shown v

end AuditHours.Json
