import AuditHours.Json.Plain
import AuditHours.Number.Exponent
import AuditHours.Number.Literal

/-!
Text patterns. A pattern is text with slots; a slot begins with a percent sign and ends with a
letter that says how a value is shown. Between them a slot may name a field in parentheses and give
flags, a width and a number of places. Slots take the listed values one after the other, or those
of the fields that they name. A pattern that does not fit its values cannot be filled.
-/
namespace AuditHours.Log

open Json Number Text

/-- A size that a slot gives, or takes from the values before its own. -/
inductive Size where
  | given (n : Nat)
  | taken
  deriving DecidableEq, Repr

structure Slot where
  field : Option String
  flags : List Char
  width : Option Size
  places : Option Size
  kind : Char
  deriving DecidableEq, Repr

inductive Part where
  | fixed (c : Char)
  | slot (s : Slot)
  /-- A percent sign that begins nothing. -/
  | broken
  deriving DecidableEq, Repr

/-- The text up to the parenthesis that closes `depth + 1` open ones, and what follows it. -/
def spanClosed (depth : Nat) : List Char → Option (List Char × List Char)
  | [] => none
  | ')' :: rest =>
    match depth with
    | 0 => some ([], rest)
    | depth + 1 => (spanClosed depth rest).map fun (inner, after) => (')' :: inner, after)
  | '(' :: rest => (spanClosed (depth + 1) rest).map fun (inner, after) => ('(' :: inner, after)
  | c :: rest => (spanClosed depth rest).map fun (inner, after) => (c :: inner, after)

def spanField : List Char → Option (Option String × List Char)
  | '(' :: rest => (spanClosed 0 rest).map fun (name, after) => (some (String.ofList name), after)
  | rest => some (none, rest)

def flagChars : List Char := ['#', '0', '-', ' ', '+']

def spanSize : List Char → Option Size × List Char
  | '*' :: rest => (some .taken, rest)
  | cs =>
    match spanDigits cs with
    | ([], rest) => (none, rest)
    | (digits, rest) => (some (.given (ofDigits digits)), rest)

/-- A number of places at the beginning of a text; a lone point asks for none. -/
def spanPlaces : List Char → Option Size × List Char
  | '.' :: rest =>
    let (size, rest) := spanSize rest
    (some (size.getD (.given 0)), rest)
  | rest => (none, rest)

/-- Drops a letter that once told the size of a number. -/
def dropSizeLetter : List Char → List Char
  | 'h' :: rest => rest
  | 'l' :: rest => rest
  | 'L' :: rest => rest
  | rest => rest

def readSlot (cs : List Char) : Option (Slot × List Char) := do
  let (field, cs) ← spanField cs
  let flags := cs.takeWhile (flagChars.contains ·)
  let (width, cs) := spanSize (cs.dropWhile (flagChars.contains ·))
  let (places, cs) := spanPlaces cs
  match dropSizeLetter cs with
  | [] => none
  | kind :: rest => return (⟨field, flags, width, places, kind⟩, rest)

/-- The parts of a pattern. Two percent signs in a row stand for one. -/
def partsOf : List Char → List Part
  | [] => []
  | '%' :: '%' :: rest => .fixed '%' :: partsOf rest
  | '%' :: rest =>
    match readSlot rest with
    | none => [.broken]
    | some (slot, after) => .slot slot :: partsOf (rest.drop (rest.length - after.length))
  | c :: rest => .fixed c :: partsOf rest
  termination_by cs => cs.length
  decreasing_by all_goals (simp only [List.length_drop, List.length_cons]; omega)

/-- The values that a pattern is filled from: those still to come, and the fields that can be
named. -/
structure Supply where
  pending : List Value
  fields : Option Fields

namespace Supply

/-- Values in a row; a single object that is not empty gives fields. -/
def ofValues : List Value → Supply
  | [.obj (f :: fs)] => ⟨[.obj (f :: fs)], some (f :: fs)⟩
  | values => ⟨values, none⟩

def next (s : Supply) : Option (Value × Supply) :=
  match s.pending with
  | [] => none
  | v :: rest => some (v, { s with pending := rest })

/-- Makes the value of a field the only one to come. -/
def choose (s : Supply) (name : String) : Option Supply := do
  return { s with pending := [← field? (← s.fields) name] }

def maxSize : Nat := Nat.pow 2 31 - 1

def boundedSize (n : Int) (s : Supply) : Option (Option Int × Supply) :=
  if n.natAbs ≤ maxSize then some (some n, s) else none

/-- A size, which may be the next value; a negative one asks for the left. -/
def size (s : Supply) : Option Size → Option (Option Int × Supply)
  | none => some (none, s)
  | some (.given n) => boundedSize n s
  | some .taken => do
    let (v, s) ← s.next
    match v with
    | .int n => boundedSize n s
    | .bool b => boundedSize (if b then 1 else 0) s
    | _ => none

def isUsed (s : Supply) : Bool := s.fields.isSome || s.pending.isEmpty

end Supply

structure Shown where
  sign : List Char
  head : List Char
  body : List Char
  isNumber : Bool

def Shown.ofText (cs : List Char) : Shown := ⟨[], [], cs, false⟩

def signFor (flags : List Char) (negative : Bool) : List Char :=
  if negative then ['-']
  else if flags.contains '+' then ['+']
  else if flags.contains ' ' then [' ']
  else []

/-- A value as a whole number; a real loses its fraction. -/
def wholeOf? : Value → Option Int
  | .bool b => some (if b then 1 else 0)
  | .int n => some n
  | .real x =>
    match parts x with
    | .finite negative mantissa exponent =>
      let (num, den) := magnitude mantissa exponent
      some (if negative then -(num / den : Nat) else (num / den : Nat))
    | _ => none
  | _ => none

def realOf? : Value → Option Float
  | .bool b => some (if b then 1.0 else 0.0)
  | .int n => ofInt? n
  | .real x => some x
  | _ => none

/-- A whole number in a base, with at least `places` digits and a mark before them. -/
def showWhole (flags : List Char) (places base : Nat) (mark : List Char) (n : Int) : Shown :=
  let digits := Nat.toDigits base n.natAbs
  ⟨signFor flags (n < 0), if flags.contains '#' then mark else [],
    zeros (places - digits.length) ++ digits, true⟩

def showReal (flags : List Char) (text : String) : Shown :=
  let point := fun body => if flags.contains '#' then markPoint body else body
  match text.toList with
  | '-' :: body => ⟨signFor flags true, [], point body, true⟩
  | body => ⟨signFor flags false, [], point body, true⟩

def characterOf? : Value → Option Char
  | .bool b => some (if b then '\x01' else '\x00')
  | .int n => if 0 ≤ n ∧ n.toNat.isValidChar then some (Char.ofNat n.toNat) else none
  | .str s => match s.toList with
    | [c] => some c
    | _ => none
  | _ => none

def escapeBeyondPlain (cs : List Char) : List Char :=
  cs.flatMap fun c => if c.toNat < 0x80 then [c] else codeEscape c.toNat

def Shown.toUpper (s : Shown) : Shown :=
  { s with head := s.head.map Char.toUpper, body := s.body.map Char.toUpper }

/-- A value as a slot of the given kind shows it. -/
def showAs (flags : List Char) (places : Option Nat) (kind : Char) (v : Value) : Option Shown :=
  let cut := fun cs : List Char => Shown.ofText ((places.map cs.take).getD cs)
  let whole := fun (base : Nat) (mark : List Char) => match v with
    | .real _ => none
    | v => (wholeOf? v).map (showWhole flags (places.getD 0) base mark)
  let real := fun text : Nat → Float → String =>
    (realOf? v).map fun x => showReal flags (text (places.getD 6) x)
  match kind with
  | 's' => some (cut (plain v).toList)
  | 'r' => some (cut (shown v).toList)
  | 'a' => some (cut (escapeBeyondPlain (shown v).toList))
  | 'd' | 'i' | 'u' => (wholeOf? v).map (showWhole flags (places.getD 0) 10 [])
  | 'x' => whole 16 ['0', 'x']
  | 'X' => (whole 16 ['0', 'x']).map (·.toUpper)
  | 'o' => whole 8 ['0', 'o']
  | 'f' => real fixedText
  | 'F' => (real fixedText).map (·.toUpper)
  | 'e' => real scientificText
  | 'E' => (real scientificText).map (·.toUpper)
  | 'g' => real (generalText (flags.contains '#'))
  | 'G' => (real (generalText (flags.contains '#'))).map (·.toUpper)
  | 'c' => (characterOf? v).map fun c => .ofText [c]
  | _ => none

def Shown.pad (s : Shown) (flags : List Char) (width : Int) : List Char :=
  let all := s.sign ++ s.head ++ s.body
  let missing := width.natAbs - all.length
  if flags.contains '-' || width < 0 then all ++ List.replicate missing ' '
  else if s.isNumber && flags.contains '0' then s.sign ++ s.head ++ zeros missing ++ s.body
  else List.replicate missing ' ' ++ all

def Slot.fill (slot : Slot) (supply : Supply) : Option (List Char × Supply) := do
  let supply ← match slot.field with
    | some name => supply.choose name
    | none => some supply
  let (width, supply) ← supply.size slot.width
  let (places, supply) ← supply.size slot.places
  let (v, supply) ← supply.next
  let shown ← showAs slot.flags (places.map Int.toNat) slot.kind v
  return (shown.pad slot.flags (width.getD 0), supply)

def fillParts : List Part → Supply → Option (List Char × Supply)
  | [], supply => some ([], supply)
  | .fixed c :: rest, supply => (fillParts rest supply).map fun (cs, s) => (c :: cs, s)
  | .slot slot :: rest, supply => do
    let (cs, supply) ← slot.fill supply
    let (more, supply) ← fillParts rest supply
    return (cs ++ more, supply)
  | .broken :: _, _ => none

/-- Fills a pattern; listed values have to be used up. -/
def fillPattern (pattern : String) (supply : Supply) : Option String := do
  let (cs, supply) ← fillParts (partsOf pattern.toList) supply
  if supply.isUsed then return String.ofList cs else none

/-- A message with its values; without values it stands as it is. -/
def messageOf (pattern : String) (values : List Value) : Option String :=
  if values.isEmpty then some pattern else fillPattern pattern (.ofValues values)

end AuditHours.Log
