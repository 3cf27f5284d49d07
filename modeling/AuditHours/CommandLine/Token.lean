import AuditHours.CommandLine.Options
import AuditHours.Text.Character

/-!
The arguments one by one. An argument is an option if it begins with a dash and is neither a
negative number nor, unless it names an option, a text with a blank. Behind a divider no argument
is an option.
-/
namespace AuditHours.CommandLine

open Text

/-- A value that an option brings along in its own argument; `marked` if an equals sign precedes
it. -/
structure Joined where
  marked : Bool
  value : List Char
  deriving DecidableEq, Repr

inductive Token where
  | plain (text : String)
  | divider
  | known (choice : Choice) (joined : Option Joined)
  | unknown (text : String)
  deriving DecidableEq, Repr

def splitMark (cs : List Char) : List Char × Option (List Char) :=
  (cs.takeWhile (· != '='), (cs.dropWhile (· != '=')).tail?)

/-- The options that an argument may mean by a shortened long name, or by a short name with a value
right behind it. -/
def candidates (cs : List Char) : List (String × Choice × Option Joined) :=
  match cs with
  | '-' :: '-' :: _ =>
    let (start, value) := splitMark cs
    (Choice.names.filter fun (name, _) => start.isPrefixOf name.toList).map fun (name, c) =>
      (name, c, value.map (⟨true, ·⟩))
  | '-' :: c :: value =>
    (Choice.names.filter fun (name, _) => name.toList == ['-', c]).map fun (name, choice) =>
      (name, choice, some ⟨false, value⟩)
  | _ => []

/-- Digits to the end of the text, before which one line break is allowed. -/
def isDigitsToEnd (cs : List Char) : Bool :=
  match cs with
  | [] => false
  | cs =>
    let rest := cs.dropWhile isDecimalDigit
    cs.head?.any isDecimalDigit && (rest.isEmpty || rest == ['\n'])

def isNegativeNumber (cs : List Char) : Bool :=
  match cs with
  | '-' :: rest =>
    isDigitsToEnd rest || match rest.dropWhile isDecimalDigit with
      | '.' :: fraction => isDigitsToEnd fraction
      | _ => false
  | _ => false

def readShortened (text : String) : Except Fault Token :=
  let cs := text.toList
  match candidates cs with
  | [(_, choice, joined)] => .ok (.known choice joined)
  | [] => .ok (if isNegativeNumber cs || cs.contains ' ' then .plain text else .unknown text)
  | several => .error (.ambiguous text (several.map (·.1)))

def readToken (text : String) : Except Fault Token :=
  let cs := text.toList
  if cs.head? ≠ some '-' then .ok (.plain text)
  else match Choice.ofName? text with
    | some choice => .ok (.known choice none)
    | none =>
      if cs.length = 1 then .ok (.plain text)
      else
        let (name, value) := splitMark cs
        match Choice.ofName? (String.ofList name), value with
        | some choice, some value => .ok (.known choice (some ⟨true, value⟩))
        | _, _ => readShortened text

/-- Reads the arguments up to the divider; those behind it are plain. -/
def readTokens : List String → Except Fault (List Token)
  | [] => .ok []
  | text :: rest =>
    if text = "--" then .ok (.divider :: rest.map .plain)
    else do
      let token ← readToken text
      return token :: (← readTokens rest)

end AuditHours.CommandLine
