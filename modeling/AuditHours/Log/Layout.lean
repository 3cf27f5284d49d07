import AuditHours.Json.Printer
import AuditHours.Log.Moment
import AuditHours.Log.Pattern
import AuditHours.Log.Record

/-!
How a record is written. A pattern layout fills a pattern from the fields of the record; a document
layout writes the record as a JSON object on one line. A pattern has to hold a slot for a field,
and a pattern without characters stands for the message alone.
-/
namespace AuditHours.Log

open Json Text

inductive Layout where
  | pattern (text : String)
  | document
  deriving DecidableEq, Repr

def messagePattern : String := "%(message)s"

def standardPattern : String := "%(asctime)s - %(name)s - %(levelname)s - %(message)s"

def isNameChar (c : Char) : Bool :=
  c.isAlphanum || c == '_' || (0x80 ≤ c.toNat && isPrintable c && !isBlank c)

def slotKinds : List Char := "diouxefgcrsa%".toList

/-- Whether a text goes on with the width, places and letter of a slot. -/
def endsSlot (cs : List Char) : Bool :=
  let isKind := fun cs : List Char => cs.head?.any fun c => slotKinds.contains c.toLower
  match (spanSize cs).2 with
  | '.' :: rest =>
    let (places, rest) := spanSize rest
    places.isSome && isKind rest
  | rest => isKind rest

def beginsFieldSlot : List Char → Bool
  | '(' :: rest =>
    match rest.dropWhile isNameChar with
    | ')' :: after =>
      !(rest.takeWhile isNameChar).isEmpty && endsSlot (after.dropWhile (flagChars.contains ·))
    | _ => false
  | _ => false

def holdsFieldSlot : List Char → Bool
  | [] => false
  | c :: rest => (c == '%' && beginsFieldSlot rest) || holdsFieldSlot rest

/-- The layout of a pattern; none if no slot is for a field. -/
def Layout.ofPattern? (text : String) : Option Layout :=
  let text := if text.isEmpty then messagePattern else text
  if holdsFieldSlot text.toList then some (.pattern text) else none

def Record.fields (r : Record) (moment : Moment) : Fields :=
  [("name", .str r.logger), ("levelno", .int r.level), ("levelname", .str (Level.name r.level)),
    ("message", .str r.message), ("asctime", .str moment.text), ("created", .real moment.toReal),
    ("msecs", .real (Float.ofNat moment.milliseconds)), ("threadName", .str "MainThread"),
    ("processName", .str "MainProcess")]

def Record.document (r : Record) (moment : Moment) : Fields :=
  [("timestamp", .real moment.toReal), ("level", .str (Level.name r.level)),
    ("name", .str r.logger), ("message", .str r.message)]
  ++ (r.details.map fun d => ("exc_info", Value.str d)).toList
  ++ [("logger", .str r.logger)]

def withDetails (text : String) : Option String → String
  | none => text
  | some details => text ++ (if text.toList.getLast? = some '\n' then "" else "\n") ++ details

/-- The line of a record; none if the pattern does not fit. -/
def Layout.line? (layout : Layout) (moment : Moment) (r : Record) : Option String :=
  match layout with
  | .document => some (compact (.obj (r.document moment)))
  | .pattern text =>
    (fillPattern text ⟨[], some (r.fields moment)⟩).map fun line => withDetails line r.details

end AuditHours.Log
