import AuditHours.Json.Value
import AuditHours.Source.Pragma
import AuditHours.Text.Character

/-!
Files of settings. Each line binds a name to a value. A value may be quoted: single quotes take
everything literally but an escaped quote or backslash, double quotes know the usual escapes. An
unquoted value ends at a number sign behind a blank. A line that is no binding is skipped. A dollar
sign with a name in braces stands for the value of that name.
-/
namespace AuditHours.Settings

open Json Source Text

def isGap (c : Char) : Bool := isBlank c && c != '\n' && c != '\r'

def isLineEnd (c : Char) : Bool := c == '\n' || c == '\r'

def skipGap (cs : List Char) : List Char := cs.dropWhile isGap

def skipLineEnd : List Char → List Char
  | '\r' :: '\n' :: rest => rest
  | c :: rest => if isLineEnd c then rest else c :: rest
  | [] => []

def skipLine (cs : List Char) : List Char := skipLineEnd (cs.dropWhile (! isLineEnd ·))

/-- Skips the word that may stand in front of a name. -/
def skipExport (cs : List Char) : List Char :=
  match dropPrefix? "export".toList cs with
  | some (c :: rest) => if isGap c then skipGap rest else cs
  | _ => cs

/-- Splits a text at the first mark without a backslash in front of it. -/
def closeAt (mark : Char) : List Char → Option (List Char × List Char)
  | [] => none
  | '\\' :: c :: rest =>
    if c = mark then (closeAt mark rest).map fun (body, rest) => ('\\' :: c :: body, rest)
    else (closeAt mark (c :: rest)).map fun (body, rest) => ('\\' :: body, rest)
  | c :: rest =>
    if c = mark then some ([], rest)
    else (closeAt mark rest).map fun (body, rest) => (c :: body, rest)

def closeAtLast (mark : Char) (cs : List Char) : Option (List Char × List Char) :=
  if cs.contains mark then
    let tail := (cs.reverse.takeWhile (· != mark)).reverse
    some (cs.take (cs.length - tail.length - 1), tail)
  else none

/-- The text up to a closing quote: the first one that is not escaped, else the last one. -/
def quotedValue (mark : Char) (cs : List Char) : Option (List Char × List Char) :=
  closeAt mark cs <|> closeAtLast mark cs

def singleEscape? (c : Char) : Option Char := if c = '\\' ∨ c = '\'' then some c else none

def doubleEscape? (c : Char) : Option Char :=
  match c with
  | 'a' => some '\x07'
  | 'b' => some '\x08'
  | 'f' => some '\x0c'
  | 'n' => some '\n'
  | 'r' => some '\r'
  | 't' => some '\t'
  | 'v' => some '\x0b'
  | '"' => some '"'
  | c => singleEscape? c

def unescape (escape? : Char → Option Char) : List Char → List Char
  | '\\' :: c :: rest =>
    match escape? c with
    | some e => e :: unescape escape? rest
    | none => '\\' :: unescape escape? (c :: rest)
  | c :: rest => c :: unescape escape? rest
  | [] => []

/-- The part of an unquoted value in front of a comment. -/
def beforeComment (afterGap : Bool) : List Char → List Char
  | [] => []
  | c :: rest => if c = '#' ∧ afterGap then [] else c :: beforeComment (isBlank c) rest

def trimEnd (cs : List Char) : List Char := (cs.reverse.dropWhile isBlank).reverse

def takeValue (cs : List Char) : Option (List Char × List Char) :=
  match cs with
  | '\'' :: rest => (quotedValue '\'' rest).map fun (v, rest) => (unescape singleEscape? v, rest)
  | '"' :: rest => (quotedValue '"' rest).map fun (v, rest) => (unescape doubleEscape? v, rest)
  | _ =>
    let line := cs.takeWhile (! isLineEnd ·)
    some (trimEnd (beforeComment false line), cs.dropWhile (! isLineEnd ·))

/-- Reads a name; an empty one stands before a comment. -/
def takeName (cs : List Char) : Option (List Char × List Char) :=
  match cs with
  | '#' :: _ => some ([], cs)
  | '\'' :: rest =>
    let name := rest.takeWhile (· != '\'')
    match rest.dropWhile (· != '\'') with
    | _ :: rest => if name.isEmpty then none else some (name, rest)
    | [] => none
  | _ =>
    let isNameChar := fun c => c != '=' && c != '#' && !isBlank c
    let name := cs.takeWhile isNameChar
    if name.isEmpty then none else some (name, cs.dropWhile isNameChar)

def finishLine (cs : List Char) : Option (List Char) :=
  let cs := skipGap cs
  let cs := match cs with
    | '#' :: _ => cs.dropWhile (! isLineEnd ·)
    | _ => cs
  match cs with
  | [] => some []
  | c :: _ => if isLineEnd c then some (skipLineEnd cs) else none

abbrev Binding := String × Option String

/-- Reads a binding: what it binds, if anything, and the rest of the text. -/
def takeBinding (cs : List Char) : Option Binding × List Char :=
  let start := skipExport (cs.dropWhile isBlank)
  match takeName start with
  | none => (none, skipLine start)
  | some (name, rest) =>
    let rest := skipGap rest
    let bound := match rest with
      | '=' :: more =>
        (takeValue (skipGap more)).map fun (v, rest) => (some (String.ofList v), rest)
      | _ => some (none, rest)
    match bound with
    | none => (none, skipLine (rest.drop 1))
    | some (value, rest) =>
      match finishLine rest with
      | none => (none, skipLine rest)
      | some rest => (if name.isEmpty then none else some (String.ofList name, value), rest)

/-- Reads bindings until the text ends, at most the given number of lines. -/
def takeBindings : Nat → List Char → List Binding
  | 0, _ => []
  | _ + 1, [] => []
  | limit + 1, cs =>
    match takeBinding cs with
    | (some b, rest) => b :: takeBindings limit rest
    | (none, rest) => takeBindings limit rest

def bindings (text : String) : List Binding :=
  let cs := text.toList
  takeBindings (cs.length + 1) cs

abbrev Environment := List (String × String)

/-- The value of a reference: a name, and a text that stands for a missing one. -/
def reference (lookup : String → Option String) (inside : List Char) : String :=
  let name := inside.takeWhile (· != ':')
  let instead := match inside.dropWhile (· != ':') with
    | ':' :: '-' :: text => String.ofList text
    | _ => ""
  (lookup (String.ofList name)).getD instead

def isReference (inside : List Char) : Bool :=
  match inside.dropWhile (· != ':') with
  | [] => true
  | ':' :: '-' :: _ => true
  | _ => false

def expand (lookup : String → Option String) : Nat → List Char → List Char
  | 0, cs => cs
  | _ + 1, [] => []
  | limit + 1, '$' :: '{' :: rest =>
    let inside := rest.takeWhile (· != '}')
    match rest.dropWhile (· != '}') with
    | _ :: after =>
      if isReference inside then
        (reference lookup inside).toList ++ expand lookup limit after
      else '$' :: expand lookup limit ('{' :: rest)
    | [] => '$' :: expand lookup limit ('{' :: rest)
  | limit + 1, c :: rest => c :: expand lookup limit rest

/-- The bindings with their references replaced, each name in its first place with its last value.
Names bound before come first if `ownFirst`, variables of the environment first if not. A name that
is bound without a value stands for no text. -/
def expandAll (ownFirst : Bool) (environment : Environment) (found : List Binding) :
    List Binding :=
  found.foldl (fun done (name, value) =>
    let own := fun n => (field? done n).map (·.getD "")
    let outer := fun n => field? environment n
    let lookup := fun n => if ownFirst then own n <|> outer n else outer n <|> own n
    setField done name (value.map fun v =>
      String.ofList (expand lookup (v.length + 1) v.toList))) []

/-- An environment with the bindings that it does not have yet. -/
def Environment.extend (environment : Environment) (found : List Binding) : Environment :=
  environment ++ (expandAll false environment found).filterMap fun (name, value) =>
    if (field? environment name).isSome then none else value.map (name, ·)

end AuditHours.Settings
