import AuditHours.Number.Literal

/-!
Literal host addresses. A short address is four decimal numbers up to 255 without leading zeros. A
long address is eight groups of up to four hexadecimal digits; one run of zero groups may be left
out, and the last two groups may be written as a short address.
-/
namespace AuditHours.Http

open Number

def splitAt (mark : Char) : List Char → List (List Char)
  | [] => [[]]
  | c :: rest =>
    let pieces := splitAt mark rest
    if c = mark then [] :: pieces
    else match pieces with
      | piece :: others => (c :: piece) :: others
      | [] => [[c]]

/-- The text before the first occurrence of a character, and the text behind it if there is one. -/
def cutAt (mark : Char) (cs : List Char) : List Char × Option (List Char) :=
  match cs.dropWhile (· != mark) with
  | [] => (cs, none)
  | _ :: rest => (cs.takeWhile (· != mark), some rest)

def isOctet (cs : List Char) : Bool :=
  !cs.isEmpty && cs.length ≤ 3 && cs.all Char.isDigit && (cs.head? != some '0' || cs.length == 1)
    && ofDigits (cs.filterMap plainDigit?) ≤ 255

def isShortAddress (cs : List Char) : Bool :=
  let pieces := splitAt '.' cs
  pieces.length == 4 && pieces.all isOctet

def isHexDigit (c : Char) : Bool :=
  c.isDigit || ('a' ≤ c && c ≤ 'f') || ('A' ≤ c && c ≤ 'F')

def isGroup (cs : List Char) : Bool := !cs.isEmpty && cs.length ≤ 4 && cs.all isHexDigit

/-- The groups of a long address; a short address at the end counts as two groups. -/
def longGroups (cs : List Char) : List (List Char) :=
  let pieces := splitAt ':' cs
  match pieces.getLast? with
  | some last => if isShortAddress last then pieces.dropLast ++ [['0'], ['0']] else pieces
  | none => pieces

def isLongAddress (cs : List Char) : Bool :=
  let groups := longGroups cs
  let inner := (groups.drop 1).dropLast
  let gaps := inner.countP List.isEmpty
  let open? := groups.head? == some []
  let close? := groups.getLast? == some []
  if groups.length < 3 || 9 < groups.length || 1 < gaps then false
  else if gaps = 1 then
    let gap := 1 + (inner.takeWhile (! List.isEmpty ·)).length
    (!open? || gap == 1) && (!close? || gap + 2 == groups.length)
      && groups.all (fun g => g.isEmpty || isGroup g)
      && (groups.filter (! List.isEmpty ·)).length < 8
  else groups.length == 8 && groups.all isGroup

/-- A long address with the name of a zone behind a percent sign. -/
def isZonedAddress (cs : List Char) : Bool :=
  match cutAt '%' cs with
  | (address, none) => isLongAddress address
  | (address, some zone) => isLongAddress address && !zone.isEmpty && !zone.contains '%'

end AuditHours.Http
